import FileMirror.DiskFacts
import FileMirror.Restore

set_option autoImplicit false

namespace FileMirror.Restore

open Attempts Disk PackFormat Verify

def Runs {α : Type} (P : Disk → Prop) (x : Restoring α) (Q : α → Disk → Prop) (E : Disk → Prop) :
    Prop :=
  Does (fun w => P w.disk) x (fun a w => Q a w.disk) fun w => E w.disk

section Programs

variable {α β : Type} {P : Disk → Prop} {x : Restoring α} {f : α → Restoring β} {Q : α → Disk → Prop}
  {R : β → Disk → Prop} {E : Disk → Prop} {d : Disk}

theorem Runs.weaken {P' : Disk → Prop} {Q' : α → Disk → Prop} {E' : Disk → Prop} (h : Runs P x Q E)
    (hP : ∀ d, P' d → P d) (hQ : ∀ a d, Q a d → Q' a d) (hE : ∀ d, E d → E' d) : Runs P' x Q' E' :=
  Does.weaken h (fun w => hP w.disk) (fun a w => hQ a w.disk) fun w => hE w.disk

theorem runs_bind (hx : Runs P x Q E) (hf : ∀ a d, Q a d → Runs (· = d) (f a) R E) :
    Runs P (x >>= f) R E := by
  refine Does.bind hx fun a => ?_
  intro w hw
  exact hf a w.disk hw w rfl

theorem runs_of (h : ∀ d, P d → Runs (· = d) x Q E) : Runs P x Q E :=
  fun w hw => h w.disk hw w rfl

theorem runs_forM {g : α → Restoring PUnit} {l : List α} {Q : PUnit → Disk → Prop}
    (I : List α → Disk → Prop) (hstart : ∀ d, P d → I [] d) (hend : ∀ d, I l d → Q ⟨⟩ d)
    (hg : ∀ done a rest, l = done ++ a :: rest → ∀ d, I done d →
      Runs (· = d) (g a) (fun _ => I (done ++ [a])) E) : Runs P (l.forM g) Q E := by
  have hrun : Does (fun w : World => I [] w.disk) (l.forM g) (fun _ w => I l w.disk)
      fun w => E w.disk :=
    does_forM (fun done (w : World) => I done w.disk) l fun done a rest hl => runs_of (hg done a rest hl)
  exact hrun.weaken (fun w => hstart w.disk) (fun _ w => hend w.disk) fun _ h => h

theorem runs_tryCollect {g : α → Restoring PUnit} {l : List α} {Q : PUnit → Disk → Prop}
    {late : List α → List α} {F : Disk → Prop} (I : List α → Disk → Prop)
    (hamong : ∀ rest, late rest ⊆ rest) (hstart : ∀ d, P d → I [] d) (hend : ∀ d, I l d → Q ⟨⟩ d)
    (hfail : ∀ d, F d → E d)
    (hg : ∀ done a rest, l = done ++ a :: rest → ∀ d, I done d →
      Runs (· = d) (g a) (fun _ => I (done ++ [a])) F)
    (hlate : ∀ a ∈ l, ∀ d, F d → Runs (· = d) (g a) (fun _ => F) F) :
    Runs P (tryCollect late g l) Q E := by
  have hrun : Does (fun w : World => I [] w.disk) (tryCollect late g l) (fun _ w => I l w.disk)
      fun w => F w.disk :=
    does_tryCollect (fun done (w : World) => I done w.disk) l hamong
      (fun done a rest hl => runs_of (hg done a rest hl)) fun a ha => runs_of (hlate a ha)
  exact hrun.weaken (fun w => hstart w.disk) (fun _ w => hend w.disk) fun w => hfail w.disk

theorem runs_bind_same {Q : α → Prop} (hx : Runs (· = d) x (fun a d' => d' = d ∧ Q a) E)
    (hf : ∀ a, Q a → Runs (· = d) (f a) R E) : Runs (· = d) (x >>= f) R E :=
  runs_bind hx fun a _ h => h.1 ▸ hf a h.2

theorem runs_pure {a : α} (h : Q a d) : Runs (· = d) (pure a) Q E := by
  rintro w rfl
  exact h

theorem runs_addStats {Q : PUnit → Disk → Prop} {g : Stats → Stats} (h : Q ⟨⟩ d) :
    Runs (· = d) (addStats g) Q E := by
  rintro w rfl
  exact h

theorem runs_stop {e : BackupError} (h : E d) : Runs (· = d) (stop e : Restoring α) Q E := by
  rintro w rfl
  exact h

/-- What `?` makes of the result of a call. -/
def Tried (Q : α → Disk → Prop) (E : Disk → Prop) : Except SysError α → Disk → Prop
  | .ok a, d => Q a d
  | .error _, d => E d

theorem runs_orStop {g : SysError → BackupError} {result : Except SysError α}
    (h : Tried Q E result d) : Runs (· = d) (orStop g result) Q E := by
  cases result with
  | error e => exact runs_stop h
  | ok a => exact runs_pure h

end Programs

namespace Restorer

variable {r : Restorer} {α : Type} {d d' d'' : Disk} {path x y : List String} {i size : ℕ}

def Faulty (r : Restorer) : Prop := ∃ n, ((r.turns n).fault).isSome

def Blocked (r : Restorer) (d : Disk) (x : List String) : Prop :=
  r.overwrite = false ∧ d.held x ≠ none

section Calls

variable {Q : α → Disk → Prop} {E : Disk → Prop} {g : SysError → BackupError}

theorem runs_call {f : ℤ → Disk → Except SysError (α × Disk)} {broken : ℤ → Fault → Disk → Disk}
    {R : Except SysError α → Disk → Prop}
    (hok : ∀ now a d', f now d = .ok (a, d') → R (.ok a) d')
    (herror : ∀ now e, f now d = .error e → R (.error e) d)
    (hfault : r.Faulty → ∀ now fault, R (.error (.other fault.message)) (broken now fault d)) :
    Runs (· = d) (r.call f broken) R E := by
  rintro w rfl
  unfold call
  cases hturn : (r.turns w.calls).fault with
  | some fault => exact hfault ⟨w.calls, by rw [hturn]; rfl⟩ _ fault
  | none =>
      dsimp only
      cases hf : f (r.turns w.calls).now w.disk with
      | error e => exact herror _ e hf
      | ok result => exact hok _ result.1 result.2 hf

theorem runs_call_orStop {f : ℤ → Disk → Except SysError (α × Disk)}
    {broken : ℤ → Fault → Disk → Disk} (hok : ∀ now a d', f now d = .ok (a, d') → Q a d')
    (herror : ∀ now e, f now d = .error e → E d)
    (hfault : r.Faulty → ∀ now fault, E (broken now fault d)) :
    Runs (· = d) (r.call f broken >>= orStop g) Q E := by
  have hcall : Runs (· = d) (r.call f broken) (Tried Q E) E := runs_call hok herror hfault
  exact runs_bind hcall fun _ _ h => runs_orStop h

theorem runs_ask {f : Disk → Except SysError α} {R : Except SysError α → Disk → Prop}
    (h : R (f d) d) (hfault : r.Faulty → ∀ message, R (.error (.other message)) d) :
    Runs (· = d) (r.ask f) R E := by
  refine runs_call ?_ ?_ fun hr _ fault => hfault hr fault.message
  · intro _ a d' hf
    cases hresult : f d with
    | error e =>
        rw [hresult] at hf
        cases hf
    | ok b =>
        rw [hresult] at hf h
        cases hf
        exact h
  · intro _ e hf
    cases hresult : f d with
    | error e' =>
        rw [hresult] at hf h
        cases hf
        exact h
    | ok b =>
        rw [hresult] at hf
        cases hf

theorem runs_call_does {f : ℤ → Disk → Except SysError (α × Disk)}
    {broken : ℤ → Fault → Disk → Disk} (hok : ∀ now, ∃ a d', f now d = .ok (a, d') ∧ Q a d')
    (hfault : r.Faulty → ∀ now fault, E (broken now fault d)) :
    Runs (· = d) (r.call f broken >>= orStop g) Q E := by
  refine runs_call_orStop ?_ ?_ hfault
  · intro now a d' hf
    obtain ⟨b, made, hmade, hQ⟩ := hok now
    cases hmade.symm.trans hf
    exact hQ
  · intro now e hf
    obtain ⟨b, made, hmade, -⟩ := hok now
    cases hmade.symm.trans hf

theorem runs_act_does {f : Disk → ℤ → Except SysError Disk} {Q : PUnit → Disk → Prop}
    (hok : ∀ now, ∃ d', f d now = .ok d' ∧ Q ⟨⟩ d') (hfault : r.Faulty → E d) :
    Runs (· = d) (r.act f >>= orStop g) Q E := by
  refine runs_call_does (fun now => ?_) fun hr _ _ => hfault hr
  obtain ⟨d', hd', hQ⟩ := hok now
  exact ⟨⟨⟩, d', by rw [hd']; rfl, hQ⟩

theorem runs_ask_does {f : Disk → Except SysError α} {a : α} (hf : f d = .ok a) (hQ : Q a d)
    (hfault : r.Faulty → E d) : Runs (· = d) (r.ask f >>= orStop g) Q E :=
  runs_call_does (fun _ => ⟨a, d, by rw [hf]; rfl, hQ⟩) fun hr _ _ => hfault hr

end Calls

def Stopped (r : Restorer) (x : List String) (blocked : Prop) (d d' : Disk) : Prop :=
  Around r.overwrite x [] d d' ∧ (r.Faulty ∨ blocked)

section Steps

theorem runs_contained {f : PUnit → Restoring α} {R : α → Disk → Prop} {E : Disk → Prop}
    (hreal : d.canonicalize path = .ok y) (hin : r.resolvedTarget <+: y) (hfault : r.Faulty → E d)
    (hf : Runs (· = d) (f ⟨⟩) R E) : Runs (· = d) (r.checkContained path >>= f) R E := by
  refine runs_bind_same (Q := fun _ => True) ?_ fun _ _ => hf
  unfold checkContained
  refine runs_bind_same (Q := fun resolved => resolved = y)
    (runs_ask_does hreal ⟨rfl, rfl⟩ hfault) ?_
  rintro _ rfl
  rw [if_pos hin]
  exact runs_pure ⟨rfl, trivial⟩

def Keeps (r : Restorer) (path x : List String) (d : Disk) : Prop :=
  ∀ d', Around r.overwrite x [] d d' → d'.Leads path x

theorem Stopped.refl {blocked : Prop} (h : r.Faulty ∨ blocked) : r.Stopped x blocked d d :=
  ⟨.refl, h⟩

theorem runs_lstat (hx : d.Leads path x) {E : Disk → Prop} :
    Runs (· = d) (r.ask fun d => d.lstat path)
      (fun result d' => d' = d ∧ (result = (d.held x).elim (.error .notFound) .ok ∨
        r.Faulty ∧ ∃ message, result = .error (.other message))) E :=
  runs_ask ⟨rfl, .inl hx.lstat⟩ fun hr message => ⟨rfl, .inr ⟨hr, message, rfl⟩⟩

theorem runs_clear {blocked : Prop} (hleads : r.Keeps path x d) (hblocked : r.Blocked d x → blocked) :
    Runs (· = d) (r.clear path)
      (fun _ d' => d'.held x = none ∧ Around r.overwrite x [] d d' ∧ d'.inodes = d.inodes)
      (r.Stopped x blocked d) := by
  have hx := hleads d .refl
  unfold clear
  refine runs_bind_same (runs_lstat hx) ?_
  rintro result (rfl | ⟨hr, message, rfl⟩)
  · cases hheld : d.held x with
    | none => exact runs_pure ⟨hheld, .refl, rfl⟩
    | some h =>
        have htaken : d.held x ≠ none := by
          rw [hheld]
          exact Option.some_ne_none h
        dsimp only [Option.elim_some]
        cases hover : r.overwrite with
        | false =>
            rw [if_pos rfl]
            exact runs_stop (.refl (.inr (hblocked ⟨hover, htaken⟩)))
        | true =>
            rw [if_neg (by simp)]
            cases h with
            | dir info =>
                refine runs_call_does (fun now => ?_) fun hr now fault => ⟨?_, .inl hr⟩
                · obtain ⟨d', hgone, hd'⟩ := @removeDirAll_leads d path x now hx htaken
                  exact ⟨⟨⟩, d', by rw [hgone]; rfl, hd'⟩
                · rw [hover]
                  exact (removeSome_leads hx fault.removed).1
            | _ =>
                refine runs_act_does (fun now => ?_) fun hr => .refl (.inl hr)
                exact @removeFile_leads d path x now hx htaken
  · exact runs_stop (.refl (.inl hr))

theorem runs_ensureDir (hleads : r.Keeps path x d) :
    Runs (· = d) (r.ensureDir path)
      (fun _ d' => d'.IsDir x ∧ Around r.overwrite x [] d d' ∧ d'.inodes = d.inodes)
      (r.Stopped x (r.Blocked d x ∧ ¬ d.IsDir x) d) := by
  have hmkdir : ∀ d₁, Around r.overwrite x [] d d₁ → d₁.inodes = d.inodes → d₁.held x = none →
      Runs (· = d₁) (r.act (fun d => d.mkdir path) >>= orStop io)
        (fun _ d' => d'.IsDir x ∧ Around r.overwrite x [] d d' ∧ d'.inodes = d.inodes)
        (r.Stopped x (r.Blocked d x ∧ ¬ d.IsDir x) d) := by
    intro d₁ haround hinodes hfree
    refine runs_act_does (fun now => ?_) fun hr => ⟨haround, .inl hr⟩
    obtain ⟨d', hmade, hdir, haround', hinodes'⟩ :=
      @mkdir_leads d₁ path x now r.overwrite (hleads d₁ haround) hfree
    exact ⟨d', hmade, hdir, haround.trans haround' (by simp), hinodes'.trans hinodes⟩
  unfold ensureDir
  refine runs_bind_same (runs_lstat (hleads d .refl)) ?_
  rintro result (rfl | ⟨hr, message, rfl⟩)
  · cases hheld : d.held x with
    | none => exact hmkdir d .refl rfl hheld
    | some h =>
        have hother : (∀ info, h ≠ .dir info) → ¬ d.IsDir x := by
          rintro hne ⟨info, hinfo⟩
          cases hheld.symm.trans hinfo
          exact hne info rfl
        dsimp only [Option.elim_some]
        cases h with
        | dir info => exact runs_pure ⟨⟨info, hheld⟩, .refl, rfl⟩
        | _ =>
            refine runs_bind (runs_clear hleads fun hblocked => ⟨hblocked, hother (by simp)⟩) ?_
            rintro _ d₁ ⟨hfree, haround, hinodes⟩
            exact hmkdir d₁ haround hinodes hfree
  · exact runs_stop (.refl (.inl hr))

theorem runs_makeDir {rel : String} (hleads : r.Keeps (r.path rel) x d)
    (hin : r.resolvedTarget <+: x) :
    Runs (· = d) (r.makeDir rel)
      (fun _ d' => d'.IsDir x ∧ Around r.overwrite x [] d d' ∧ d'.inodes = d.inodes)
      (r.Stopped x (r.Blocked d x ∧ ¬ d.IsDir x) d) := by
  unfold makeDir
  refine runs_bind (runs_ensureDir hleads) ?_
  rintro _ d₁ ⟨hdir, haround, hinodes⟩
  refine runs_contained ((hleads d₁ haround).real hdir) hin (fun hr => ⟨haround, .inl hr⟩) ?_
  exact runs_addStats ⟨hdir, haround, hinodes⟩

theorem runs_makeSymlink {rel target : String} {node : TreeFormat.Node}
    (hleads : r.Keeps (r.path rel) x d) (hin : r.resolvedTarget <+: x.dropLast)
    (htarget : node.linkTarget = some target) :
    Runs (· = d) (r.makeSymlink rel node)
      (fun _ d' => d'.held x = some (.symlink target) ∧ Around r.overwrite x [] d d' ∧
        d'.inodes = d.inodes)
      (r.Stopped x (r.Blocked d x) d) := by
  unfold makeSymlink
  refine runs_contained (hleads d .refl).parent hin (fun hr => .refl (.inl hr)) ?_
  refine runs_bind (runs_clear hleads id) ?_
  rintro _ d₁ ⟨hfree, haround, hinodes⟩
  rw [htarget]
  refine runs_bind_same (Q := fun given => given = target) (runs_pure ⟨rfl, rfl⟩) ?_
  rintro given rfl
  refine runs_bind (Q := fun _ d₂ => d₂.held x = some (.symlink given) ∧
    Around r.overwrite x [] d₁ d₂ ∧ d₂.inodes = d₁.inodes) (runs_act_does (fun now => ?_) fun hr =>
      ⟨haround, .inl hr⟩) ?_
  · exact symlink_leads (hleads d₁ haround) hfree
  · rintro _ d₂ ⟨hlink, haround', hinodes'⟩
    exact runs_addStats ⟨hlink, haround.trans haround' (by simp), hinodes'.trans hinodes⟩

theorem runs_clearOther (hleads : r.Keeps path x d) :
    Runs (· = d) (r.clearOther path)
      (fun _ d' => (d' = d ∧ (d.held x = none ∨ (∃ i, d.held x = some (.file i)) ∨ r.Faulty)) ∨
        d'.held x = none ∧ Around r.overwrite x [] d d')
      (r.Stopped x (r.Blocked d x) d) := by
  unfold clearOther
  refine runs_bind_same (runs_lstat (hleads d .refl)) ?_
  rintro result (rfl | ⟨hr, message, rfl⟩)
  · cases hheld : d.held x with
    | none => exact runs_pure (.inl ⟨rfl, .inl rfl⟩)
    | some h =>
        dsimp only [Option.elim_some]
        cases h with
        | file i => exact runs_pure (.inl ⟨rfl, .inr (.inl ⟨i, rfl⟩)⟩)
        | _ =>
            exact (runs_clear hleads id).weaken (fun _ h => h) (fun _ _ h => .inr ⟨h.1, h.2.1⟩)
              fun _ h => h
  · exact runs_pure (.inl ⟨rfl, .inr (.inr hr)⟩)

def Created (r : Restorer) (x : List String) (size : ℕ) (d d' : Disk) : Prop :=
  Around r.overwrite x [] d d' ∧ ∃ i, d'.held x = some (.file i) ∧
    (d'.inodes i).bytes = List.replicate size 0 ∧
      (d.next ≤ i ∨ r.overwrite = true ∧ d.held x = some (.file i))

theorem runs_open (hleads : r.Keeps path x d)
    (hcleared : (d' = d ∧ (d.held x = none ∨ (∃ i, d.held x = some (.file i)) ∨ r.Faulty)) ∨
      d'.held x = none ∧ Around r.overwrite x [] d d') :
    Runs (· = d') (r.call (fun now d =>
        if r.overwrite then d.openTruncate path now else d.openNew path now) (fun _ _ d => d) >>=
          orStop (creating path))
      (fun i d'' => Around r.overwrite x [] d d'' ∧ d''.held x = some (.file i) ∧
        (d''.inodes i).bytes = [] ∧
          (d.next ≤ i ∨ r.overwrite = true ∧ d.held x = some (.file i)))
      (r.Stopped x (r.Blocked d x) d) := by
  have haround : Around r.overwrite x [] d d' := by
    rcases hcleared with ⟨rfl, -⟩ | ⟨-, haround⟩
    · exact .refl
    · exact haround
  have hx := hleads d' haround
  by_cases hfree : d'.held x = none
  · refine runs_call_does (fun now => ?_) fun hr _ _ => ⟨haround, .inl hr⟩
    obtain ⟨d'', hmade, hfile, hempty, haround'⟩ := @openNew_leads d' path x now r.overwrite hx hfree
    refine ⟨d'.next, d'', ?_, haround.trans haround' (by simp), hfile, hempty, .inl haround.next⟩
    rw [openTruncate_free hx hfree, hmade, ite_self]
  · obtain ⟨rfl, hkind⟩ := hcleared.resolve_right fun h => hfree h.1
    have hkind := hkind.resolve_left hfree
    cases hover : r.overwrite with
    | false =>
        refine runs_call_orStop ?_ ?_ fun hr _ _ => .refl (.inl hr)
        · intro now i d'' hopen
          rw [if_neg (by simp), openNew_taken hx hfree] at hopen
          cases hopen
        · exact fun _ _ _ => .refl (.inr ⟨hover, hfree⟩)
    | true =>
        by_cases hfile : ∃ i, d'.held x = some (.file i)
        · obtain ⟨i, hfile⟩ := hfile
          refine runs_call_does (fun now => ?_) fun hr _ _ => .refl (.inl hr)
          have hopen := @openTruncate_file d' path x now i hx hfile
          refine ⟨i, _, hopen, Around.refl.setInode (.inr ⟨rfl, hfile⟩), hfile, ?_, .inr ⟨rfl, hfile⟩⟩
          rw [inodes_setInode]
        · refine runs_call_orStop ?_ ?_ fun hr _ _ => .refl (.inl hr)
          · intro now i d'' hopen
            obtain ⟨e, he⟩ := @openTruncate_taken d' path x now hx hfree (not_exists.mp hfile)
            rw [if_pos rfl, he] at hopen
            cases hopen
          · exact fun _ _ _ => .refl (.inl (hkind.resolve_left hfile))

theorem runs_createFile (hleads : r.Keeps path x d) (hin : r.resolvedTarget <+: x.dropLast) :
    Runs (· = d) (r.createFile path size) (fun _ => r.Created x size d)
      (r.Stopped x (r.Blocked d x) d) := by
  unfold createFile
  refine runs_contained (hleads d .refl).parent hin (fun hr => .refl (.inl hr)) ?_
  refine runs_bind (runs_clearOther hleads) ?_
  intro _ d₁ hcleared
  refine runs_bind (runs_open hleads hcleared) ?_
  rintro i d₂ ⟨haround, hfile, hempty, hi⟩
  refine runs_act_does (fun now => ⟨_, rfl, haround.setInode hi, i, hfile, ?_, hi⟩) fun hr =>
    ⟨haround, .inl hr⟩
  rw [setLen, inodes_setInode, hempty, List.takeD_nil]

theorem runs_linkFile {link : List String × List String} (hsource : d.held y = some (.file i))
    (hfrom : ∀ d', Around r.overwrite x [] d d' → d'.Leads link.1 y)
    (hleads : r.Keeps link.2 x d) (hin : r.resolvedTarget <+: x.dropLast) (hxy : ¬ x <+: y) :
    Runs (· = d) (r.linkFile link)
      (fun _ d' => d'.held x = some (.file i) ∧ Around r.overwrite x [y] d d' ∧
        d'.inodes = d.inodes)
      (r.Stopped x (r.Blocked d x) d) := by
  unfold linkFile
  refine runs_contained (hleads d .refl).parent hin (fun hr => .refl (.inl hr)) ?_
  refine runs_bind (runs_clear hleads id) ?_
  rintro _ d₁ ⟨hfree, haround, hinodes⟩
  refine runs_bind (Q := fun _ d₂ => d₂.held x = some (.file i) ∧
    Around r.overwrite x [y] d₁ d₂ ∧ d₂.inodes = d₁.inodes) (runs_act_does (fun now => ?_) fun hr =>
      ⟨haround, .inl hr⟩) ?_
  · exact hardLink_leads (hfrom d₁ haround) ((haround.file hxy).mpr hsource) (hleads d₁ haround) hfree
  · rintro _ d₂ ⟨hlink, haround', hinodes'⟩
    refine runs_addStats ⟨hlink, haround.trans haround' ?_, hinodes'.trans hinodes⟩
    simpa using hxy

def Tells (P : FileInfo → Prop) (x : List String) (d : Disk) : Prop :=
  (∃ info, d.held x = some (.dir info) ∧ P info) ∨
    ∃ i, d.held x = some (.file i) ∧ P (d.inodes i).info

theorem tells_alter {P : FileInfo → Prop} {f : FileInfo → FileInfo} {handle : Handle}
    (hat : d.At x handle) (h : Tells (fun info => P (f info)) x d) : Tells P x (d.alter f handle) := by
  cases handle with
  | dir p =>
      obtain ⟨rfl, info, hdir⟩ := hat
      rcases h with ⟨info', hinfo, hP⟩ | ⟨i, hfile, -⟩
      · refine .inl ⟨f info', ?_, hP⟩
        simp only [alter, alterDir, if_pos, hinfo, Option.map_some, Held.alter]
      · cases hdir.symm.trans hfile
  | file i =>
      rcases h with ⟨info, hinfo, -⟩ | ⟨j, hfile, hP⟩
      · cases hat.symm.trans hinfo
      · cases hat.symm.trans hfile
        refine .inr ⟨i, hat, ?_⟩
        rw [alter, inodes_setInode]
        exact hP

theorem tells_true (hheld : d.IsDir x ∨ ∃ i, d.held x = some (.file i)) : Tells (fun _ => True) x d := by
  rcases hheld with ⟨info, hdir⟩ | ⟨i, hfile⟩
  · exact .inl ⟨info, hdir, trivial⟩
  · exact .inr ⟨i, hfile, trivial⟩

theorem bytes_alter {f : FileInfo → FileInfo} {handle : Handle} (j : ℕ) :
    ((d.alter f handle).inodes j).bytes = (d.inodes j).bytes := by
  cases handle with
  | dir p => rfl
  | file i =>
      by_cases hj : j = i
      · rw [hj, alter, inodes_setInode]
      · rw [alter, inodes_setInode_other hj]

def Marks (x : List String) (d d' : Disk) : Prop :=
  Alters x d d' ∧ ∀ i, (d'.inodes i).bytes = (d.inodes i).bytes

theorem Marks.alter {f : FileInfo → FileInfo} {handle : Handle} (h : Marks x d d')
    (hat : d'.At x handle) : Marks x d (d'.alter f handle) :=
  ⟨h.1.trans (alters_alter hat), fun i => (bytes_alter i).trans (h.2 i)⟩

def Recorded (node : TreeFormat.Node) (info : FileInfo) : Prop :=
  info.mode = node.mode &&& modeMask ∧ info.mtime = node.mtime ∧ info.atime = node.mtime

theorem runs_applyMetadata {node : TreeFormat.Node} (hx : d.Leads path x)
    (hheld : d.IsDir x ∨ ∃ i, d.held x = some (.file i)) (htype : node.nodeType ≠ .symlink) :
    Runs (· = d) (r.applyMetadata path node)
      (fun _ d' => Marks x d d' ∧ Tells (Recorded node) x d') (fun d' => Marks x d d' ∧ r.Faulty) := by
  obtain ⟨handle, hopen, hat⟩ := openRead_leads hx hheld
  have hself : Marks x d d := ⟨.refl, fun _ => rfl⟩
  unfold applyMetadata
  rw [if_neg htype]
  refine runs_bind_same (Q := fun opened => opened = handle)
    (runs_ask_does hopen ⟨rfl, rfl⟩ fun hr => ⟨hself, hr⟩) ?_
  rintro _ rfl
  refine runs_bind (Q := fun _ d₁ => Marks x d d₁ ∧ Tells (fun _ => True) x d₁) ?_ ?_
  · refine runs_call ?_ ?_ fun _ _ _ => ⟨hself, tells_true hheld⟩
    · intro now _ d₁ hmade
      cases hmade
      exact ⟨hself.alter hat, tells_alter hat (tells_true hheld)⟩
    · intro now e he
      cases he
  rintro _ d₁ ⟨hmarks, htells⟩
  have hat₁ := hmarks.1.at hat
  refine runs_bind (Q := fun _ d₂ => Marks x d d₂ ∧
    Tells (fun info => info.mode = node.mode &&& modeMask) x d₂) (runs_act_does (fun _ => ?_) fun hr =>
      ⟨hmarks, hr⟩) ?_
  · refine ⟨_, rfl, hmarks.alter hat₁, tells_alter hat₁ ?_⟩
    simpa using htells
  rintro _ d₂ ⟨hmarks₂, htells₂⟩
  have hat₂ := hmarks₂.1.at hat
  refine runs_act_does (fun _ => ⟨_, rfl, hmarks₂.alter hat₂, tells_alter hat₂ ?_⟩) fun hr =>
    ⟨hmarks₂, hr⟩
  simpa [Recorded] using htells₂

theorem runs_writeAt {data : List UInt8} {offset : ℕ} (hx : d.Leads path x)
    (hfile : d.held x = some (.file i)) :
    Runs (· = d) (r.writeAt path data offset)
      (fun _ d' => Alters x d d' ∧
        (d'.inodes i).bytes = Patches.writeAt 0 (d.inodes i).bytes offset data)
      (fun d' => Alters x d d' ∧ r.Faulty) := by
  unfold writeAt
  refine runs_bind_same (Q := fun inode => inode = i)
    (runs_ask_does (openWrite_leads hx hfile) ⟨rfl, rfl⟩ fun hr => ⟨.refl, hr⟩) ?_
  rintro _ rfl
  split_ifs with hempty
  · refine runs_pure ⟨.refl, ?_⟩
    rw [Patches.writeAt, if_pos hempty]
  · refine runs_call_does (fun now => ⟨⟨⟩, _, rfl, alters_setInode hfile, ?_⟩) fun hr _ _ =>
      ⟨alters_setInode hfile, hr⟩
    rw [writeAllAt, inodes_setInode]

end Steps

end Restorer

end FileMirror.Restore
