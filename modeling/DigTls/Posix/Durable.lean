import DigTls.Posix.Staging

/-! # What is on stable storage

A loss of power takes back directory entries that were not synced and spoils bytes that were
not synced. `Versions path P` says that, whichever earlier value the entry of `path` falls back
to, the file it then leads to is whole and `P` holds of it. A row of calls that keeps such a
statement may be cut anywhere.
-/
namespace PosixVolume
open EffectPrograms

namespace Volume
variable {ν : Type} {s t u : Volume ν} {tmp dest path q : ν} {i j : ℕ} {P Q : Option Bytes → Prop}

/-- A loss of power: entries fall back as far as they were not synced, and a file with bytes
that were not synced comes back with anything in it. -/
structure PowerLoss (s t : Volume ν) : Prop where
  entries : EntryLoss { s with inode := t.inode } t
  files : ∀ i, (s.inode i).dirty = false → t.inode i = s.inode i
  settled : ∀ i, (t.inode i).dirty = false

/-- The values a loss of power may leave the entry of `path` with. -/
def Recallable (s : Volume ν) (path : ν) (e : Option ℕ) : Prop := e = s.entry path ∨ e ∈ s.past path

/-- Each of the files `path` may lead to after a loss of power is on stable storage and shared
with no other name; `P` holds of its contents, and of none where there may be no file. -/
structure Versions (path : ν) (P : Option Bytes → Prop) (s : Volume ν) : Prop where
  whole : ∀ e, s.Recallable path e → P (e.map fun i => (s.inode i).data)
  clean : ∀ i, s.Recallable path (some i) → (s.inode i).dirty = false
  apart : ∀ i, some i ∈ s.past path → ∀ q, q ≠ path → s.entry q ≠ some i

/-- The path of the directory survives a loss of power. -/
def Anchored (s : Volume ν) : Prop := s.depth ≤ s.anchored

theorem PowerLoss.tracked (h : PowerLoss s t) (hs : s.Tracked) : t.Tracked :=
  h.entries.tracked ⟨⟨hs.single, hs.fresh⟩, hs.pastFresh, hs.absent, hs.path⟩

theorem PowerLoss.depth (h : PowerLoss s t) : t.depth = s.depth := by rw [h.entries.frame]

theorem PowerLoss.present (h : PowerLoss s t) (hs : s.Anchored) : t.present = true := by
  have hle : s.anchored ≤ t.made := h.entries.path.1
  rw [Volume.present, decide_eq_true_eq, h.depth]
  exact hs.trans hle

theorem PowerLoss.present_before (h : PowerLoss s t) (hp : t.present = true) : s.present = true := by
  have hle : t.made ≤ s.made := h.entries.path.2
  rw [Volume.present, decide_eq_true_eq, h.depth] at hp
  rw [Volume.present, decide_eq_true_eq]
  exact hp.trans hle

theorem Tracked.present_of_anchored (hs : s.Tracked) (h : s.Anchored) : s.present = true := by
  have hle := h.trans hs.path
  simpa [Volume.present] using hle

/-- A directory that has come through a loss of power is on stable storage. -/
theorem PowerLoss.anchored_iff (h : PowerLoss s t) : t.Anchored ↔ t.present = true := by
  have hmade : t.anchored = t.made := by rw [h.entries.frame]
  rw [Anchored, hmade, Volume.present, decide_eq_true_eq]

/-- Where the path of the directory is not anchored, a loss of power may take all of it. -/
theorem powerLoss_vanish (hs : s.Tracked) (hgone : ¬ s.Anchored) : ∃ t, PowerLoss s t ∧ t.present = false := by
  have hlt : s.anchored < s.depth := not_le.mp hgone
  refine ⟨{ s with
    made := s.anchored
    anchored := s.anchored
    entry := fun _ => none
    past := fun _ => []
    inode := fun i => { s.inode i with dirty := false } }, ⟨⟨rfl, ⟨le_rfl, hs.path⟩, ?_, ?_, ?_⟩, ?_, ?_⟩, ?_⟩
  · intro hp
    simp only [Volume.present, decide_eq_true_eq] at hp
    omega
  · exact fun _ _ => rfl
  · simp
  · intro i hi
    exact congrArg (Inode.mk (s.inode i).data (s.inode i).mode) hi.symm
  · exact fun _ => rfl
  · simpa [Volume.present] using hlt

theorem Versions.mono (h : Versions path P s) (hpq : ∀ c, P c → Q c) : Versions path Q s :=
  ⟨fun e he => hpq _ (h.whole e he), h.clean, h.apart⟩

theorem Versions.contents (h : Versions path P s) (hp : s.present = true) : P (s.contents path) := by
  have hwhole := h.whole _ (Or.inl rfl)
  simpa [Volume.contents, lookup, hp] using hwhole

/-- As long as the directory is there, a loss of power leaves the name with one of its
versions, and for good. -/
theorem Versions.powerLoss (h : Versions path P s) (hloss : PowerLoss s t) (hp : t.present = true) :
    Versions path P t := by
  have hpast : t.past path = [] := hloss.entries.past path
  have hrecall : ∀ e, t.Recallable path e → s.Recallable path e := by
    rintro e (rfl | he)
    · exact hloss.entries.entries hp path
    · rw [hpast] at he
      cases he
  have hsame : ∀ i, s.Recallable path (some i) → t.inode i = s.inode i :=
    fun i hi => hloss.files i (h.clean i hi)
  refine ⟨fun e he => ?_, fun i _ => hloss.settled i, by simp [hpast]⟩
  have hwhole := h.whole e (hrecall e he)
  cases e with
  | none => exact hwhole
  | some i =>
    simp only [Option.map_some] at hwhole ⊢
    rwa [hsame i (hrecall _ he)]

/-- What is known of the name after a loss of power, the loss of the directory included. -/
theorem Versions.contents_powerLoss (h : Versions path P s) (hloss : PowerLoss s t) :
    P (t.contents path) ∨ t.present = false := by
  cases hp : t.present with
  | false => exact Or.inr rfl
  | true => exact Or.inl ((h.powerLoss hloss hp).contents hp)

theorem Recallable.lt_next (hs : s.Tracked) (h : s.Recallable path (some i)) : i < s.next := by
  rcases h with h | h
  · exact hs.fresh path i h.symm
  · exact hs.pastFresh path i h

theorem Versions.unshared (h : Versions path P s) (hs : s.Wf) (hi : s.Recallable path (some i))
    (hq : q ≠ path) : s.entry q ≠ some i := by
  rcases hi with hi | hi
  · exact fun he => hq (hs.single q path i he hi.symm)
  · exact h.apart i hi q hq

/-- Work beside the name changes none of its versions. -/
theorem Versions.beside (h : Versions path P s) (hs : s.Tracked) (hb : Beside tmp s t) (hne : path ≠ tmp) :
    Versions path P t := by
  obtain ⟨hentry, hpast⟩ := hb.names path hne
  have hrecall : ∀ e, t.Recallable path e ↔ s.Recallable path e := fun e => by
    rw [Recallable, Recallable, hentry, hpast]
  have hsame : ∀ i, s.Recallable path (some i) → t.inode i = s.inode i :=
    fun i hi => hb.files i (hi.lt_next hs) (h.unshared hs.toWf hi hne.symm)
  refine ⟨fun e he => ?_, fun i hi => ?_, fun i hi q hq => ?_⟩
  · have he' := (hrecall e).mp he
    have hwhole := h.whole e he'
    cases e with
    | none => exact hwhole
    | some i =>
      simp only [Option.map_some] at hwhole ⊢
      rwa [hsame i he']
  · have hi' := (hrecall _).mp hi
    rw [hsame i hi']
    exact h.clean i hi'
  · rw [hpast] at hi
    by_cases hqt : q = tmp
    · subst hqt
      intro hown
      rcases hb.own i hown with hs' | hnew
      · exact h.apart i hi q hq hs'
      · have hlt := hs.pastFresh path i hi
        omega
    · rw [(hb.names q hqt).1]
      exact h.apart i hi q hq

/-- Once the directory has been synced, only the present version is left. -/
theorem Versions.synced (h : Versions path P s) :
    Versions path (fun c => P c ∧ c = (s.entry path).map fun i => (s.inode i).data)
      { s with past := fun _ => [] } := by
  refine ⟨?_, ?_, by simp⟩
  · rintro e (rfl | he)
    · exact ⟨h.whole _ (Or.inl rfl), rfl⟩
    · cases he
  · rintro i (hi | hi)
    · exact h.clean i (Or.inl hi)
    · cases hi

variable [DecidableEq ν]

def moved (s : Volume ν) (source target : ν) (file : ℕ) : Volume ν :=
  (s.relink target (some file)).relink source none

theorem rename_eq {source target : ν} (hne : source ≠ target) (hl : s.lookup source = some i) :
    s.rename source target = (.ok (), s.moved source target i) := by
  simp [Volume.rename, hl, hne, moved]

section Moved
variable {source target : ν}

theorem moved_entry_target (hne : source ≠ target) : (s.moved source target i).entry target = some i := by
  rw [moved, relink_entry_of_ne hne.symm, relink_entry_self]

theorem moved_entry_of_ne (hs : q ≠ source) (ht : q ≠ target) :
    (s.moved source target i).entry q = s.entry q := by
  rw [moved, relink_entry_of_ne hs, relink_entry_of_ne ht]

theorem moved_past_target (hne : source ≠ target) :
    (s.moved source target i).past target = s.entry target :: s.past target := by
  simp [moved, relink, Function.update_of_ne hne.symm]

theorem moved_past_of_ne (hs : q ≠ source) (ht : q ≠ target) :
    (s.moved source target i).past q = s.past q := by
  simp [moved, relink, Function.update_of_ne hs, Function.update_of_ne ht]

theorem moved_contents_of_ne (hs : q ≠ source) (ht : q ≠ target) :
    (s.moved source target i).contents q = s.contents q := by
  rw [moved, contents_relink_of_ne hs, contents_relink_of_ne ht]

theorem moved_contents_target (hne : source ≠ target) (hl : s.lookup source = some i) :
    (s.moved source target i).contents target = some (s.inode i).data := by
  have hp : (s.moved source target i).present = true := (lookup_eq_some_iff.mp hl).1
  exact contents_of_lookup (lookup_eq_some_iff.mpr ⟨hp, moved_entry_target hne⟩)

/-- Renaming a file that is on stable storage over the name adds it to the versions. -/
theorem Versions.renameOnto (h : Versions target P s) (hs : s.Wf) (hne : source ≠ target)
    (he : s.entry source = some i) (hclean : (s.inode i).dirty = false) (hP : P (some (s.inode i).data)) :
    Versions target P (s.moved source target i) := by
  have hentry : (s.moved source target i).entry target = some i := moved_entry_target hne
  have hrecall : ∀ e, (s.moved source target i).Recallable target e → e = some i ∨ s.Recallable target e := by
    intro e hrec
    rw [Recallable, hentry, moved_past_target hne, List.mem_cons] at hrec
    exact hrec
  refine ⟨fun e hrec => ?_, fun j hrec => ?_, fun j hj q hq => ?_⟩
  · rcases hrecall e hrec with rfl | hold
    · exact hP
    · exact h.whole e hold
  · rcases hrecall _ hrec with heq | hold
    · cases heq
      exact hclean
    · exact h.clean j hold
  · rw [moved_past_target hne] at hj
    have hold : s.Recallable target (some j) := by
      rcases List.mem_cons.mp hj with hj | hj
      · exact Or.inl hj
      · exact Or.inr hj
    by_cases hqs : q = source
    · subst hqs
      simp [moved]
    · rw [moved_entry_of_ne hqs hq]
      exact h.unshared hs hold hq

theorem Versions.renameAside (h : Versions path P s) (hs : path ≠ source) (ht : path ≠ target)
    (he : s.entry source = some i) : Versions path P (s.moved source target i) := by
  have hpast := @moved_past_of_ne _ s path i _ _ _ hs ht
  have hrecall : ∀ e, (s.moved source target i).Recallable path e → s.Recallable path e := by
    intro e hrec
    rwa [Recallable, moved_entry_of_ne hs ht, hpast] at hrec
  refine ⟨fun e hrec => h.whole e (hrecall e hrec), fun j hrec => h.clean j (hrecall _ hrec), ?_⟩
  intro j hj q hq
  rw [hpast] at hj
  by_cases hqs : q = source
  · subst hqs
    simp [moved]
  · by_cases hqt : q = target
    · subst hqt
      rw [moved_entry_target (Ne.symm hqs)]
      exact fun heq => h.apart j hj source hs.symm (he.trans heq)
    · rw [moved_entry_of_ne hqs hqt]
      exact h.apart j hj q hq

end Moved

theorem Versions.unlink (h : Versions path P s) (hne : path ≠ q) : Versions path P (s.relink q none) := by
  have hpast : (s.relink q none).past path = s.past path := Function.update_of_ne hne ..
  have hrecall : ∀ e, (s.relink q none).Recallable path e → s.Recallable path e := by
    intro e hrec
    rwa [Recallable, relink_entry_of_ne hne, hpast] at hrec
  refine ⟨fun e hrec => h.whole e (hrecall e hrec), fun j hrec => h.clean j (hrecall _ hrec), ?_⟩
  intro j hj r hr
  rw [hpast] at hj
  by_cases hrq : r = q
  · subst hrq
    simp
  · rw [relink_entry_of_ne hrq]
    exact h.apart j hj r hr

/-- No call has a say in how much of the directory's path is on stable storage. -/
theorem run_path (op : Op ν) (s : Volume ν) :
    (run op s).2.depth = s.depth ∧ (run op s).2.anchored = s.anchored := by
  cases op with
  | create path mode =>
    simp only [run, Volume.create]
    repeat' split
    all_goals exact ⟨rfl, rfl⟩
  | rename source target =>
    simp only [run, Volume.rename]
    repeat' split
    all_goals exact ⟨rfl, rfl⟩
  | removeFile path =>
    simp only [run, Volume.removeFile]
    split
    all_goals exact ⟨rfl, rfl⟩
  | createDirAll =>
    simp only [run, makePath]
    split
    all_goals exact ⟨rfl, rfl⟩
  | pathExists | writeAll | syncAll => exact ⟨rfl, rfl⟩
  | readToString | read | setPermissions | openWrite | setDirPermissions | syncDir =>
    simp only [run]
    repeat' split
    all_goals exact ⟨rfl, rfl⟩

omit [DecidableEq ν] in
theorem Partial.kept_path {op : Op ν} (h : Partial op s t) : t.depth = s.depth ∧ t.anchored = s.anchored := by
  cases h with
  | unchanged => exact ⟨rfl, rfl⟩
  | wrote => exact ⟨rfl, rfl⟩
  | dug =>
    simp only [makePath]
    split
    all_goals exact ⟨rfl, rfl⟩

theorem anchored_outcome {ε α : Type} {p : Program (Op ν) Op.Res ε α} {trace : List (Op ν)}
    {o : Option (Except ε α)} (h : Outcome (posix ν) p s trace o t) : t.Anchored ↔ s.Anchored := by
  have hpath : t.depth = s.depth ∧ t.anchored = s.anchored := by
    induction h with
    | done | raise => exact ⟨rfl, rfl⟩
    | @step op _ s _ _ _ _ ih => exact ⟨ih.1.trans (run_path op s).1, ih.2.trans (run_path op s).2⟩
    | fault failed _ ih => exact ⟨ih.1.trans failed.left.kept_path.1, ih.2.trans failed.left.kept_path.2⟩
    | crash cut => exact cut.kept_path
  rw [Anchored, Anchored, hpath.1, hpath.2]

end Volume
end PosixVolume
