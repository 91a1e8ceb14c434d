import FileMirror.LocalState
import FileMirror.LocalPaths
import Mathlib.Algebra.GroupWithZero.Nat

set_option autoImplicit false

namespace FileMirror

structure FileStat where
  size : ℕ
  mtimeNs : ℤ
  deriving DecidableEq

structure StubMeta where
  rfm : ℕ
  path : String
  size : ℕ
  hash : String
  objectKey : String
  evictedAt : ℕ
  mtimeNs : Option ℤ
  mode : Option ℕ
  deriving DecidableEq

/-- `placeholder::MAX_STUB_LEN`: a longer file is not a placeholder. -/
def maxStubLen : ℕ := 4096

/-- What a character comes to in a JSON string: quotes, backslashes and the control characters with
an escape of their own, the other control characters, and the rest. -/
def jsonCharLen (c : Char) : ℕ :=
  if c.toNat ∈ [34, 92, 8, 9, 10, 12, 13] then 2
  else if c.toNat < 32 then 6
  else c.utf8Size

def jsonStringLen (s : String) : ℕ := (s.toList.map jsonCharLen).sum + 2

def jsonNatLen (n : ℕ) : ℕ := (Nat.toDigits 10 n).length

def jsonIntLen : ℤ → ℕ
  | .ofNat n => jsonNatLen n
  | .negSucc n => jsonNatLen (n + 1) + 1

/-- How many bytes `placeholder::write` writes: the names of the fields with their punctuation, the
values, and a newline. -/
def StubMeta.textLen (stub : StubMeta) : ℕ :=
  7 + jsonNatLen stub.rfm + 8 + jsonStringLen stub.path + 8 + jsonNatLen stub.size +
    8 + jsonStringLen stub.hash + 14 + jsonStringLen stub.objectKey +
    14 + jsonNatLen stub.evictedAt + stub.mtimeNs.elim 0 (12 + jsonIntLen ·) +
    stub.mode.elim 0 (8 + jsonNatLen ·) + 2

/-- `placeholder::SUFFIX`. -/
def stubSuffix : List Char := ".rfm".toList

def stubRel (path : String) : String := String.ofList (path.toList ++ stubSuffix)

/-- A regular file as the passes see it: its stat, the hash of its bytes, whether some attempt of
`hash_stable` finds its stat unchanged across the read, and what `placeholder::read` makes of it. -/
structure DiskFile where
  stat : FileStat
  contents : ContentHash
  settled : Bool
  stub : Option StubMeta
  deriving DecidableEq

/-- The regular files below the mirrored root, by canonical relative path. -/
abbrev LocalTree := StringMap DiskFile

/-- `hash_stable`: `none` means that the file kept moving. -/
def DiskFile.hashStable (f : DiskFile) : Option (ℕ × ℤ × ContentHash) :=
  if f.settled then some (f.stat.size, f.stat.mtimeNs, f.contents) else none

/-- `std::fs::rename` of a file onto whatever stood at `target`. -/
def LocalTree.rename (t : LocalTree) (source target : String) : LocalTree :=
  match t[source]? with
  | none => t
  | some f => (t.erase source).insert target f

end FileMirror
