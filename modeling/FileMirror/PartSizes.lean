import FileMirror.Uploading

set_option autoImplicit false

namespace FileMirror

def frameSize : ℕ := chunkSize + tagSize

def framesPerPart (partSize : ℕ) : ℕ := max ((partSize + frameSize - 1) / frameSize) 1

def frameCount (plaintextLen : ℕ) : ℕ := max ((plaintextLen + chunkSize - 1) / chunkSize) 1

theorem frameSize_pos : 0 < frameSize := by decide

def Streams : List Frame → Prop
  | [] => True
  | [frame] => frame.last = true
  | frame :: next :: frames =>
      frame.last = false ∧ frame.plaintext.length = chunkSize ∧ Streams (next :: frames)

section Streams

variable {nonce : List UInt8} {aad : String} {position : ℕ} {bytes : List UInt8} {frame : Frame}
  {frames : List Frame}

theorem chunkFrames_ne_nil : chunkFrames nonce aad position bytes ≠ [] := by
  rw [chunkFrames]
  split_ifs
  · exact List.cons_ne_nil _ _
  · exact List.cons_ne_nil _ _

theorem streams_chunkFrames : Streams (chunkFrames nonce aad position bytes) := by
  fun_induction chunkFrames nonce aad position bytes with
  | case1 position bytes hshort => rfl
  | case2 position bytes hlong ih =>
      have hne : chunkFrames nonce aad (position + 1) (bytes.drop chunkSize) ≠ [] := chunkFrames_ne_nil
      obtain ⟨next, rest, hrest⟩ := List.exists_cons_of_ne_nil hne
      rw [hrest] at ih ⊢
      refine ⟨rfl, ?_, ih⟩
      rw [List.length_take]
      omega

theorem length_chunkFrames (nonce : List UInt8) (aad : String) (position : ℕ) (bytes : List UInt8) :
    (chunkFrames nonce aad position bytes).length = frameCount bytes.length := by
  have hpos := chunkSize_pos
  fun_induction chunkFrames nonce aad position bytes with
  | case1 position bytes hshort =>
      have hone : (bytes.length + chunkSize - 1) / chunkSize ≤ 1 := by
        rw [← Nat.lt_succ_iff, Nat.div_lt_iff_lt_mul hpos]
        omega
      unfold frameCount
      rw [Nat.max_eq_right hone]
      rfl
  | case2 position bytes hlong ih =>
      rw [List.length_cons, ih, List.length_drop]
      have hdiv : (bytes.length + chunkSize - 1) / chunkSize =
          (bytes.length - chunkSize + chunkSize - 1) / chunkSize + 1 := by
        rw [← Nat.add_div_right _ hpos]
        congr 1
        omega
      have hone : 1 ≤ (bytes.length - chunkSize + chunkSize - 1) / chunkSize := by
        rw [Nat.one_le_div_iff hpos]
        omega
      unfold frameCount
      rw [hdiv]
      omega

theorem counted_chunkFrames (h : frameCount bytes.length ≤ counterMax + 1) :
    Counted (chunkFrames nonce aad 0 bytes) := by
  have hlast : ∀ (position : ℕ) (bytes : List UInt8), ∀ frame ∈ chunkFrames nonce aad position bytes,
      frame.last = false → frame.position + 1 < position + frameCount bytes.length := by
    intro position bytes
    rw [← length_chunkFrames nonce aad position bytes]
    fun_induction chunkFrames nonce aad position bytes with
    | case1 position bytes hshort =>
        intro frame hframe hopen
        rw [List.mem_singleton.mp hframe] at hopen
        cases hopen
    | case2 position bytes hlong ih =>
        intro frame hframe hopen
        have hne : 0 < (chunkFrames nonce aad (position + 1) (bytes.drop chunkSize)).length :=
          List.length_pos_iff.mpr chunkFrames_ne_nil
        rw [List.length_cons]
        obtain rfl | hframe := List.mem_cons.mp hframe
        · dsimp only
          omega
        · have hrest := ih frame hframe hopen
          omega
  intro frame hframe hopen
  have hposition := hlast 0 bytes frame hframe hopen
  omega

theorem Streams.tail (h : Streams (frame :: frames)) (hne : frames ≠ []) :
    frame.last = false ∧ frame.plaintext.length = chunkSize ∧ Streams frames := by
  cases frames with
  | nil => exact absurd rfl hne
  | cons next frames => exact h

theorem framesPerPart_le {partSize m : ℕ} (hm : 1 ≤ m) :
    framesPerPart partSize ≤ m ↔ partSize ≤ m * frameSize := by
  have hpos := frameSize_pos
  unfold framesPerPart
  rw [max_le_iff, ← Nat.lt_succ_iff, Nat.div_lt_iff_lt_mul hpos, Nat.succ_mul]
  constructor
  · rintro ⟨h, _⟩
    omega
  · intro h
    exact ⟨by omega, hm⟩

end Streams

section Filling

variable {content : List UInt8} {e : StreamingEncryptor} {partSize : ℕ} {frames : List Frame}

theorem streams_remaining (content : List UInt8) (h : e.finished = false) :
    Streams (e.remaining content) := by
  unfold StreamingEncryptor.remaining
  rw [if_neg (by rw [h]; exact Bool.false_ne_true)]
  exact streams_chunkFrames

theorem remaining_ne_nil (content : List UInt8) (h : e.finished = false) :
    e.remaining content ≠ [] := by
  unfold StreamingEncryptor.remaining
  rw [if_neg (by rw [h]; exact Bool.false_ne_true)]
  exact chunkFrames_ne_nil

theorem remaining_finished (h : e.finished = true) : e.remaining content = [] := if_pos h

theorem fillPart_takes (fuel : ℕ) (acc : List Frame) (hopen : e.finished = false) (hcounted : Counted (e.remaining content))
    (hacc : (sealAll acc).length = acc.length * frameSize)
    (hroom : acc.length < framesPerPart partSize)
    (hfuel : framesPerPart partSize ≤ fuel + acc.length) :
    ∃ next, StreamingEncryptor.fillPart (fun _ => content) partSize fuel e acc =
        some (acc ++ (e.remaining content).take (framesPerPart partSize - acc.length), next) ∧
      next.remaining content = (e.remaining content).drop (framesPerPart partSize - acc.length) ∧
      (next.finished = true ↔ (e.remaining content).length ≤ framesPerPart partSize - acc.length) := by
  induction fuel generalizing e acc with
  | zero => omega
  | succ fuel ih =>
      obtain ⟨hremaining, hfinished, hposition⟩ := readFrame_still content hopen
      have hstreams := streams_remaining content hopen
      obtain ⟨k, hk⟩ : ∃ k, framesPerPart partSize - acc.length = k + 1 :=
        ⟨framesPerPart partSize - acc.length - 1, by omega⟩
      rw [hremaining] at hstreams hcounted ⊢
      rw [hk, List.take_succ_cons, List.drop_succ_cons, List.length_cons]
      unfold StreamingEncryptor.fillPart
      generalize e.readFrame (fun _ => content) = read at hremaining hfinished hposition hstreams hcounted
      obtain ⟨frame, e'⟩ := read
      simp only at hremaining hfinished hposition hstreams hcounted ⊢
      cases hlast : frame.last with
      | true =>
          have hnil : e'.remaining content = [] := remaining_finished (hfinished.symm.trans hlast)
          rw [if_pos rfl, hnil]
          refine ⟨e', by rw [List.take_nil], by rw [hnil, List.drop_nil], ?_⟩
          simp [← hfinished, hlast]
      | false =>
          have hopen' : e'.finished = false := hfinished.symm.trans hlast
          have hne := remaining_ne_nil content hopen'
          obtain ⟨_, hfull, hrest⟩ := hstreams.tail hne
          have hbelow : frame.position < counterMax := hcounted frame (List.mem_cons_self ..) hlast
          have hsealed : (sealAll (acc ++ [frame])).length = (acc ++ [frame]).length * frameSize := by
            rw [sealAll_append, List.length_append, hacc, sealAll_cons, List.length_append,
              length_seal, hfull, List.length_append, Nat.add_mul]
            simp [sealAll, frameSize]
          have hlen : (acc ++ [frame]).length = acc.length + 1 := by
            rw [List.length_append, List.length_singleton]
          rw [if_neg Bool.false_ne_true, if_neg (by omega), hsealed, hlen]
          by_cases hfill : framesPerPart partSize ≤ acc.length + 1
          · rw [if_pos ((framesPerPart_le (by omega)).mp hfill)]
            have hzero : k = 0 := by omega
            subst hzero
            refine ⟨e', by rw [List.take_zero], by rw [List.drop_zero], ?_⟩
            have hpos := List.length_pos_iff.mpr hne
            rw [hopen']
            constructor
            · exact fun hended => absurd hended Bool.false_ne_true
            · omega
          · rw [if_neg fun hsize => hfill ((framesPerPart_le (by omega)).mpr hsize)]
            have hmore : Counted (e'.remaining content) :=
              fun f hf => hcounted f (List.mem_cons_of_mem _ hf)
            obtain ⟨last, hparts, hleft, hended⟩ :=
              ih _ hopen' hmore hsealed (by omega) (by omega)
            have hcount : framesPerPart partSize - (acc ++ [frame]).length = k := by omega
            rw [hcount] at hparts hleft hended
            refine ⟨last, ?_, hleft, ?_⟩
            · rw [hparts, List.append_assoc, List.singleton_append]
            · rw [hended]
              omega

theorem one_le_framesPerPart (partSize : ℕ) : 1 ≤ framesPerPart partSize := le_max_right _ _

theorem framesPerPart_le_succ (partSize : ℕ) : framesPerPart partSize ≤ partSize + 1 := by
  have hpos := frameSize_pos
  rw [framesPerPart_le (by omega)]
  calc partSize ≤ partSize + 1 := Nat.le_succ _
    _ ≤ (partSize + 1) * frameSize := Nat.le_mul_of_pos_right _ hpos

theorem encryptNextPart_takes (partSize : ℕ) (hopen : e.finished = false)
    (hcounted : Counted (e.remaining content)) :
    ∃ next, e.encryptNextPart (fun _ => content) partSize =
        some (some ⟨(e.remaining content).take (framesPerPart partSize)⟩, next) ∧
      next.remaining content = (e.remaining content).drop (framesPerPart partSize) ∧
      (next.finished = true ↔ (e.remaining content).length ≤ framesPerPart partSize) := by
  have hone := one_le_framesPerPart partSize
  have hfuel := framesPerPart_le_succ partSize
  obtain ⟨next, hparts, hleft, hended⟩ := fillPart_takes (partSize + 1) [] hopen hcounted rfl
    (Nat.lt_of_succ_le hone) hfuel
  rw [List.length_nil, Nat.sub_zero] at hparts hleft hended
  refine ⟨next, ?_, hleft, hended⟩
  unfold StreamingEncryptor.encryptNextPart
  rw [if_neg (by rw [hopen]; exact Bool.false_ne_true), hparts, Option.map_some, List.nil_append]

theorem length_filled (hstreams : Streams frames) {k : ℕ} (hk : k < frames.length) :
    (sealAll (frames.take k)).length = k * frameSize := by
  induction k generalizing frames with
  | zero => rw [List.take_zero, Nat.zero_mul]; rfl
  | succ k ih =>
      cases frames with
      | nil => exact absurd hk (Nat.not_lt_zero _)
      | cons frame frames =>
          rw [List.length_cons] at hk
          have hne : frames ≠ [] := List.length_pos_iff.mp (by omega)
          obtain ⟨_, hfull, hrest⟩ := hstreams.tail hne
          rw [List.take_succ_cons, sealAll_cons, List.length_append, length_seal, hfull,
            ih hrest (by omega), Nat.succ_mul, Nat.add_comm]
          rfl

theorem encryptParts_fills (partSize : ℕ) {n : ℕ} (hcounted : Counted (e.remaining content))
    (hn : (e.remaining content).length < n) :
    ∃ parts next, e.encryptParts (fun _ => content) partSize n = some (parts, next) ∧
      next.finished = true ∧
      parts.length = ((e.remaining content).length + framesPerPart partSize - 1) /
        framesPerPart partSize ∧
      ∀ part ∈ parts.dropLast, part.ciphertext.length = framesPerPart partSize * frameSize := by
  have hone := one_le_framesPerPart partSize
  generalize hk : framesPerPart partSize = k at hone ⊢
  induction n generalizing e with
  | zero => omega
  | succ n ih =>
      unfold StreamingEncryptor.encryptParts
      cases hopen : e.finished with
      | true =>
          have hnone : e.encryptNextPart (fun _ => content) partSize = some (none, e) := by
            unfold StreamingEncryptor.encryptNextPart
            rw [if_pos hopen]
          rw [hnone, remaining_finished hopen, List.length_nil, Nat.zero_add]
          refine ⟨[], e, rfl, hopen, ?_, fun part hpart => absurd hpart List.not_mem_nil⟩
          rw [Nat.div_eq_of_lt (by omega), List.length_nil]
      | false =>
          obtain ⟨next, hpart, hleft, hended⟩ :=
            encryptNextPart_takes partSize hopen hcounted
          rw [hk] at hpart hleft hended
          have hpos : 0 < (e.remaining content).length :=
            List.length_pos_iff.mpr (remaining_ne_nil content hopen)
          have hshorter : (next.remaining content).length < n := by
            rw [hleft, List.length_drop]
            omega
          have hmore : Counted (next.remaining content) := by
            rw [hleft]
            exact fun f hf => hcounted f (List.drop_subset _ _ hf)
          obtain ⟨parts, last, hparts, hfinished, hcount, hfull⟩ := ih hmore hshorter
          rw [hpart]
          dsimp only
          rw [hparts, Option.map_some]
          refine ⟨_, _, rfl, hfinished, ?_, ?_⟩
          · dsimp only
            rw [List.length_cons, hcount, hleft, List.length_drop]
            by_cases hlast : (e.remaining content).length ≤ k
            · have hfirst : ((e.remaining content).length + k - 1) / k = 1 :=
                Nat.div_eq_of_lt_le (by omega) (by omega)
              rw [Nat.sub_eq_zero_of_le hlast, Nat.zero_add, Nat.div_eq_of_lt (by omega), hfirst]
            · rw [← Nat.add_div_right _ (by omega)]
              congr 1
              omega
          · intro part hpart
            dsimp only at hpart
            by_cases hlast : (e.remaining content).length ≤ k
            · have hnil : parts = [] := by
                rw [← List.length_eq_zero_iff, hcount, hleft, List.length_drop,
                  Nat.sub_eq_zero_of_le hlast, Nat.zero_add, Nat.div_eq_of_lt (by omega)]
              rw [hnil] at hpart
              cases hpart
            · have hne : parts ≠ [] := by
                rw [← List.length_pos_iff, hcount, hleft, List.length_drop]
                exact Nat.div_pos (by omega) (by omega)
              rw [List.dropLast_cons_of_ne_nil hne, List.mem_cons] at hpart
              obtain rfl | hpart := hpart
              · exact length_filled (streams_remaining content hopen) (by omega)
              · exact hfull part hpart

end Filling

section Limits

def maxObjectSize : ℕ := 5 * 2 ^ 40

def maxParts : ℕ := 10000

def minPartSize : ℕ := 5 * 1024 * 1024

/-- Not too many parts, of which none but the last is too small. -/
def WithinLimits (parts : List EncryptedPart) : Prop :=
  parts.length ≤ maxParts ∧ ∀ part ∈ parts.dropLast, minPartSize ≤ part.ciphertext.length

theorem minPartSize_le (fileLen : ℕ) : minPartSize ≤ getChunkSize fileLen := by
  unfold getChunkSize minPartSize
  dsimp only
  split_ifs
  · omega
  · omega

/-- A file is uploaded within the limits exactly if as many parts as are allowed, of as many frames as
reach the part size, hold all its frames. -/
theorem parts_within_limits_iff (nonce : List UInt8) (aad : String) (content : List UInt8)
    (hlen : content.length ≤ maxObjectSize) :
    ∃ parts e, (StreamingEncryptor.new nonce aad).encryptParts (fun _ => content)
        (getChunkSize content.length) (content.length + 2) = some (parts, e) ∧ e.finished = true ∧
      (WithinLimits parts ↔
        frameCount content.length ≤ maxParts * framesPerPart (getChunkSize content.length)) := by
  have hremaining : (StreamingEncryptor.new nonce aad).remaining content =
      chunkFrames nonce aad 0 content := rfl
  have hcount : frameCount content.length ≤ content.length + 1 := by
    unfold frameCount chunkSize
    omega
  have hcounted : Counted ((StreamingEncryptor.new nonce aad).remaining content) := by
    rw [hremaining]
    apply counted_chunkFrames
    unfold maxObjectSize at hlen
    unfold frameCount counterMax chunkSize
    omega
  have hn : ((StreamingEncryptor.new nonce aad).remaining content).length < content.length + 2 := by
    rw [hremaining, length_chunkFrames]
    omega
  obtain ⟨parts, e, hparts, hfinished, hlength, hfull⟩ :=
    encryptParts_fills (getChunkSize content.length) hcounted hn
  have hone := one_le_framesPerPart (getChunkSize content.length)
  rw [hremaining, length_chunkFrames] at hlength
  refine ⟨parts, e, hparts, hfinished, ?_⟩
  have hfits : parts.length ≤ maxParts ↔
      frameCount content.length ≤ maxParts * framesPerPart (getChunkSize content.length) := by
    rw [hlength, ← Nat.lt_succ_iff, Nat.div_lt_iff_lt_mul (by omega), Nat.succ_mul]
    omega
  unfold WithinLimits
  rw [hfits, and_iff_left_iff_imp]
  intro _ part hpart
  rw [hfull part hpart]
  exact (minPartSize_le _).trans ((framesPerPart_le hone).mp (le_refl _))

/-- A file of three parts. -/
theorem parts_within_limits_several : ∃ content : List UInt8, content.length = 25000000 ∧
    ∃ parts e, (StreamingEncryptor.new (List.replicate nonceSize 0) "a").encryptParts
        (fun _ => content) (getChunkSize content.length) (content.length + 2) = some (parts, e) ∧
      e.finished = true ∧ WithinLimits parts := by
  have hlength : (List.replicate 25000000 (7 : UInt8)).length = 25000000 := List.length_replicate
  refine ⟨List.replicate 25000000 7, hlength, ?_⟩
  obtain ⟨parts, e, hparts, hfinished, hlimits⟩ :=
    parts_within_limits_iff (List.replicate nonceSize 0) "a" (List.replicate 25000000 7)
      (by rw [hlength]; decide)
  have hfew : frameCount 25000000 ≤ maxParts * framesPerPart (getChunkSize 25000000) := by
    decide +kernel
  exact ⟨parts, e, hparts, hfinished, hlimits.mpr (by rw [hlength]; exact hfew)⟩

/-- One byte more than 10000 parts of 8 MiB. -/
theorem parts_over_limit : ∃ content : List UInt8, content.length = 83886080001 ∧
    content.length ≤ maxObjectSize ∧ ∃ parts e,
      (StreamingEncryptor.new [] "").encryptParts (fun _ => content)
        (getChunkSize content.length) (content.length + 2) = some (parts, e) ∧ e.finished = true ∧
      ¬ WithinLimits parts := by
  have hlength : (List.replicate 83886080001 (0 : UInt8)).length = 83886080001 := List.length_replicate
  refine ⟨List.replicate 83886080001 0, hlength, by rw [hlength]; decide, ?_⟩
  obtain ⟨parts, e, hparts, hfinished, hlimits⟩ :=
    parts_within_limits_iff [] "" (List.replicate 83886080001 0) (by rw [hlength]; decide)
  refine ⟨parts, e, hparts, hfinished, fun h => ?_⟩
  have hmany := hlimits.mp h
  rw [hlength] at hmany
  have hnot : ¬ frameCount 83886080001 ≤ maxParts * framesPerPart (getChunkSize 83886080001) := by
    decide +kernel
  exact hnot hmany

end Limits

end FileMirror
