import DigTls.Posix.Durable
import DigTls.Posix.Residue
import DigTls.Store.SlotWrites

/-! # A slot write against loss of power

A slot write prepares a sibling, syncs its bytes, renames it over the slot file and syncs the
directory. At every moment the slot file's name can lead, now or after a loss of power, to
the old file or to the whole new one and to nothing else.
-/
namespace DigTls
open EffectPrograms PosixVolume Volume
variable {α : Type} {s t u : Volume String} {os : Platform} {tmp dest path : String} {contents : Bytes}
  {secret : Secret} {o : Option (Except DigTlsError Unit)}

/-- The file at `tmp` has these contents, and they are on stable storage. -/
def Ready (tmp : String) (contents : Bytes) (s : Volume String) : Prop :=
  ∃ file, s.lookup tmp = some file ∧ (s.inode file).data = contents ∧ (s.inode file).dirty = false

theorem prepares_orFail {r : Except IoError α} {A : α → Volume String → Prop} (h : ∀ a, r = .ok a → A a s) :
    Prepares tmp s (orFail r) A := by
  cases r with
  | ok a => exact Prepares.done (h a rfl)
  | error e => exact Prepares.raise

theorem prepares_fsCreate (hs : s.Wf) (mode : Mode) : Prepares tmp s (fsCreate tmp mode) fun file t =>
    t.lookup tmp = some file ∧ (t.inode file).data = [] := by
  refine Prepares.call rfl (prepares_orFail fun file hfile => ?_) ?_
  · have hcreated := (@create_spec _ s _ tmp _ hs mode (s.create tmp mode).1 rfl).2 file hfile
    exact ⟨hcreated.1, create_empty hfile⟩
  · rintro _ _ ⟨⟨⟩⟩
    exact ⟨_, rfl⟩

theorem prepares_writeAll {file : ℕ} (hl : s.lookup tmp = some file) (hempty : (s.inode file).data = [])
    (data : Bytes) : Prepares tmp s (writeAll file data) fun _ t =>
      t.lookup tmp = some file ∧ (t.inode file).data = data := by
  refine Prepares.call (lookup_eq_some_iff.mp hl).2 (prepares_orFail fun _ _ => ⟨hl, ?_⟩) ?_
  · simp [Volume.run, overwrite, hempty]
  · rintro _ _ ⟨⟨⟩⟩
    exact ⟨_, rfl⟩

theorem prepares_setPermissions {file : ℕ} (hl : s.lookup tmp = some file) (mode : Mode) :
    Prepares tmp s (setPermissions tmp mode) fun _ t =>
      t.lookup tmp = some file ∧ (t.inode file).data = (s.inode file).data := by
  refine Prepares.call rfl ?_ ?_
  · rw [run_setPermissions hl]
    exact prepares_orFail fun _ _ => ⟨hl, by simp⟩
  · rintro _ _ ⟨⟨⟩⟩
    exact ⟨_, rfl⟩

theorem prepares_stage (hs : s.Wf) (contents : Bytes) (secret : Secret) :
    Prepares tmp s (stage os tmp contents secret) fun _ t =>
      ∃ file, t.lookup tmp = some file ∧ (t.inode file).data = contents := by
  have hwrite : ∀ mode, Prepares tmp s (fsCreate tmp mode >>= fun file => writeAll file contents)
      fun _ t => ∃ file, t.lookup tmp = some file ∧ (t.inode file).data = contents := by
    intro mode
    refine (prepares_fsCreate hs mode).bind fun file t _ hfile => ?_
    exact (prepares_writeAll hfile.1 hfile.2 contents).mono fun _ u _ hu => ⟨file, hu⟩
  cases secret with
  | no => exact hwrite _
  | yes =>
    cases os with
    | windows => exact hwrite _
    | unix =>
      refine (prepares_fsCreate hs _).bind fun file t _ hfile => ?_
      refine (prepares_writeAll hfile.1 hfile.2 contents).bind fun _ u _ hu => ?_
      refine (prepares_setPermissions hu.1 _).mono fun _ v _ hv => ?_
      exact ⟨file, hv.1, hv.2.trans hu.2⟩

theorem prepares_openWrite : Prepares tmp s (openWrite tmp) fun file t => t = s ∧ s.lookup tmp = some file := by
  refine Prepares.call rfl ?_ ?_
  · cases hl : s.lookup tmp with
    | none =>
      have hrun : Volume.run (.openWrite tmp) s = (.error .notFound, s) := by simp [Volume.run, hl]
      rw [hrun]
      exact Prepares.raise
    | some file =>
      rw [run_openWrite hl]
      exact Prepares.done ⟨rfl, rfl⟩
  · rintro _ _ ⟨⟨⟩⟩
    exact ⟨_, rfl⟩

theorem prepares_syncAll {file : ℕ} (hl : s.lookup tmp = some file) :
    Prepares tmp s (syncAll file) fun _ t => t.lookup tmp = some file ∧
      (t.inode file).data = (s.inode file).data ∧ (t.inode file).dirty = false := by
  refine Prepares.call (lookup_eq_some_iff.mp hl).2 (prepares_orFail fun _ _ => ⟨hl, ?_, ?_⟩) ?_
  · simp [Volume.run]
  · simp [Volume.run]
  · rintro _ _ ⟨⟨⟩⟩
    exact ⟨_, rfl⟩

/-- The first half of a slot write: the sibling is written and its bytes are synced. -/
def prepared (os : Platform) (tmp : String) (contents : Bytes) (secret : Secret) : Task Unit := do
  stage os tmp contents secret
  let file ← openWrite tmp
  syncAll file

theorem atomicWrite_prepared (dest : String) (contents : Bytes) (secret : Secret) :
    atomicWrite os dest contents secret = prepared os (tmpPath dest) contents secret >>= fun _ =>
      atomicRename os (tmpPath dest) dest >>= fun _ => fsyncDir os := by
  simp [atomicWrite, prepared, Program.bind_assoc']

theorem prepares_prepared (hs : s.Tracked) (contents : Bytes) (secret : Secret) :
    Prepares tmp s (prepared os tmp contents secret) fun _ t => Ready tmp contents t := by
  refine (prepares_stage hs.toWf contents secret).bind fun _ t _ ⟨file, hl, hdata⟩ => ?_
  refine prepares_openWrite.bind fun file' u _ ⟨hu, hl'⟩ => ?_
  subst hu
  obtain rfl : file = file' := Option.some.inj (hl.symm.trans hl')
  refine (prepares_syncAll hl).mono fun _ v _ hv => ?_
  exact ⟨file, hv.1, hv.2.1.trans hdata, hv.2.2⟩

/-- The sibling after its preparation, about to be moved. -/
structure Staged (dest : String) (contents : Bytes) (s u : Volume String) (file : ℕ) : Prop where
  tracked : u.Tracked
  beside : Beside (tmpPath dest) s u
  lookup : u.lookup (tmpPath dest) = some file
  data : (u.inode file).data = contents
  clean : (u.inode file).dirty = false

/-- What a slot write leaves: work on the sibling only, the sibling moved into place, or that
and a directory that has been synced; only then it has answered. -/
inductive WriteLeaves (dest : String) (contents : Bytes) (s : Volume String) :
    Option (Except DigTlsError Unit) → Volume String → Prop
  | beside {o : Option (Except DigTlsError Unit)} {t : Volume String} (beside : Beside (tmpPath dest) s t)
      (unanswered : ∀ b, o ≠ some (.ok b)) : WriteLeaves dest contents s o t
  | moved {o : Option (Except DigTlsError Unit)} {u : Volume String} {file : ℕ}
      (staged : Staged dest contents s u file) (unanswered : ∀ b, o ≠ some (.ok b)) :
      WriteLeaves dest contents s o (u.moved (tmpPath dest) dest file)
  | synced {u : Volume String} {file : ℕ} (staged : Staged dest contents s u file) :
      WriteLeaves dest contents s (some (.ok ()))
        { u.moved (tmpPath dest) dest file with past := fun _ => [] }

theorem ensures_atomicWrite (hs : s.Tracked) (dest : String) (contents : Bytes) (secret : Secret) :
    Ensures (blind String) (atomicWrite .unix dest contents secret) s fun _ o t =>
      WriteLeaves dest contents s o t := by
  rw [atomicWrite_prepared]
  refine Ensures.bind (((prepares_prepared hs contents secret).and (ensures_tracked hs)).mono ?_)
  rintro trace o u ⟨⟨_, hb, hready⟩, hu⟩
  rcases o with _ | e | _
  · exact .beside hb (by simp)
  · exact .beside hb (by simp)
  · obtain ⟨file, hl, hdata, hclean⟩ := hready () rfl
    have hstaged : Staged dest contents s u file := ⟨hu, hb, hl, hdata, hclean⟩
    refine Ensures.call_of_run (rename_eq (tmpPath_ne dest) hl) ?_ ?_ ?_
    · have hp : (u.moved (tmpPath dest) dest file).present = true := (lookup_eq_some_iff.mp hl).1
      refine Ensures.call_of_run (run_syncDir hp) ?_ ?_ ?_
      · exact Ensures.done (.synced hstaged)
      · rintro _ _ ⟨⟨⟩⟩
        exact Ensures.raise (.moved hstaged (by simp))
      · rintro _ ⟨⟩
        exact .moved hstaged (by simp)
    · rintro _ _ ⟨⟨⟩⟩
      exact Ensures.raise (.beside hb (by simp))
    · rintro _ ⟨⟩
      exact .beside hb (by simp)

section Leaves
variable {P : Option Bytes → Prop}

theorem Staged.entry {file : ℕ} (h : Staged dest contents s u file) : u.entry (tmpPath dest) = some file :=
  (lookup_eq_some_iff.mp h.lookup).2

theorem Staged.moved_contents {file : ℕ} (h : Staged dest contents s u file) :
    (u.moved (tmpPath dest) dest file).contents dest = some contents := by
  rw [moved_contents_target (tmpPath_ne dest) h.lookup, h.data]

theorem WriteLeaves.shows (h : WriteLeaves dest contents s o t) (hs : s.Wf) :
    (t.contents dest = s.contents dest ∧ (∀ b, o ≠ some (.ok b))) ∨ t.contents dest = some contents := by
  cases h with
  | beside hb hno => exact Or.inl ⟨hb.contents hs (tmpPath_ne dest).symm, hno⟩
  | moved hstaged _ => exact Or.inr hstaged.moved_contents
  | synced hstaged => exact Or.inr hstaged.moved_contents

theorem WriteLeaves.versions (h : WriteLeaves dest contents s o t) (hs : s.Tracked)
    (hv : Versions dest P s) (hP : P (some contents)) : Versions dest P t := by
  have hmoved : ∀ v file, Staged dest contents s v file → Versions dest P (v.moved (tmpPath dest) dest file) := by
    intro v file hstaged
    have hbeside := hv.beside hs hstaged.beside (tmpPath_ne dest).symm
    refine hbeside.renameOnto hstaged.tracked.toWf (tmpPath_ne dest) hstaged.entry hstaged.clean ?_
    rw [hstaged.data]
    exact hP
  cases h with
  | beside hb _ => exact hv.beside hs hb (tmpPath_ne dest).symm
  | moved hstaged _ => exact hmoved _ _ hstaged
  | synced hstaged => exact (hmoved _ _ hstaged).synced.mono fun _ hc => hc.1

/-- Once the write has answered, the new file is the only version, whatever there was before. -/
theorem WriteLeaves.answered (h : WriteLeaves dest contents s (some (.ok ())) t) :
    Versions dest (· = some contents) t := by
  cases h with
  | beside _ hno => exact absurd rfl (hno ())
  | moved _ hno => exact absurd rfl (hno ())
  | @synced v file hstaged =>
    have hentry : (v.moved (tmpPath dest) dest file).entry dest = some file :=
      moved_entry_target (tmpPath_ne dest)
    have honly : ∀ e, Recallable { v.moved (tmpPath dest) dest file with past := fun _ => [] } dest e →
        e = some file := by
      rintro e (rfl | he)
      · exact hentry
      · cases he
    refine ⟨fun e he => ?_, fun i hi => ?_, by simp⟩
    · rw [honly e he]
      exact congrArg some hstaged.data
    · cases honly _ hi
      exact hstaged.clean

/-- Other names keep their versions, unless the write is staged through them. -/
theorem WriteLeaves.other (h : WriteLeaves dest contents s o t) (hs : s.Tracked)
    (hv : Versions path P s) (hd : path ≠ dest) (htmp : path ≠ tmpPath dest) : Versions path P t := by
  have hmoved : ∀ v file, Staged dest contents s v file → Versions path P (v.moved (tmpPath dest) dest file) :=
    fun v file hstaged => (hv.beside hs hstaged.beside htmp).renameAside htmp hd hstaged.entry
  cases h with
  | beside hb _ => exact hv.beside hs hb htmp
  | moved hstaged _ => exact hmoved _ _ hstaged
  | synced hstaged => exact (hmoved _ _ hstaged).synced.mono fun _ hc => hc.1

/-- A write changes files and entries, not the directory. -/
theorem WriteLeaves.frame (h : WriteLeaves dest contents s o t) :
    t = { s with entry := t.entry, past := t.past, inode := t.inode, next := t.next } := by
  cases h with
  | beside hb _ => exact hb.frame
  | @moved _ u file hstaged _ =>
    have hu := hstaged.beside.frame
    rw [hu]
    rfl
  | @synced u file hstaged =>
    have hu := hstaged.beside.frame
    rw [hu]
    rfl

theorem WriteLeaves.present (h : WriteLeaves dest contents s o t) : t.present = s.present := by
  rw [h.frame]
  rfl

theorem WriteLeaves.anchored (h : WriteLeaves dest contents s o t) : t.Anchored ↔ s.Anchored := by
  rw [h.frame]
  rfl

end Leaves

end DigTls
