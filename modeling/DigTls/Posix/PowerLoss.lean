import DigTls.Posix.Frame
import Mathlib.Data.List.Infix
import Mathlib.Data.Set.Basic

/-! # What a loss of power undoes

A change of a directory entry is on stable storage once the directory has been synced. Until
then a loss of power may give the entry back any value it has had since the last sync, and a
directory made since its parent was synced may be missing altogether.
-/
namespace PosixVolume
open EffectPrograms

namespace Volume
variable {ν : Type} {s t : Volume ν} {path q : ν} {i : ℕ}

/-- A loss of power as far as directory entries go. A rename is undone as a whole, so no file
comes out of it under two names. What comes out of it has been read off the disk. -/
structure EntryLoss (s t : Volume ν) : Prop where
  frame : t = { s with made := t.made, anchored := t.made, entry := t.entry, past := fun _ => [] }
  path : s.anchored ≤ t.made ∧ t.made ≤ s.made
  entries : t.present = true → ∀ q, t.entry q = s.entry q ∨ t.entry q ∈ s.past q
  gone : t.present = false → ∀ q, t.entry q = none
  single : ∀ p q i, t.entry p = some i → t.entry q = some i → p = q

/-- A well-formed volume whose entries, the earlier ones included, lead to files in use. A
directory that is not there has no entries, and what is anchored is there. -/
structure Tracked (s : Volume ν) : Prop extends s.Wf where
  pastFresh : ∀ p i, some i ∈ s.past p → i < s.next
  absent : s.present = false → ∀ q, s.entry q = none ∧ s.past q = []
  path : s.anchored ≤ s.made

theorem Tracked.entry_none (hs : s.Tracked) (h : s.contents q = none) : s.entry q = none := by
  cases hp : s.present with
  | false => exact (hs.absent hp q).1
  | true => simpa [contents_eq_none_iff, lookup, hp] using h

theorem EntryLoss.inode (h : EntryLoss s t) : t.inode = s.inode := by rw [h.frame]
theorem EntryLoss.past (h : EntryLoss s t) (q : ν) : t.past q = [] := by rw [h.frame]

theorem EntryLoss.source (h : EntryLoss s t) (hq : t.entry q = some i) :
    s.entry q = some i ∨ some i ∈ s.past q := by
  cases hp : t.present with
  | false => simp [h.gone hp q] at hq
  | true =>
    rcases h.entries hp q with heq | hpast
    · exact Or.inl (heq ▸ hq)
    · exact Or.inr (hq ▸ hpast)

theorem EntryLoss.tracked (h : EntryLoss s t) (hs : s.Tracked) : t.Tracked := by
  have hnext : t.next = s.next := by rw [h.frame]
  have hanchored : t.anchored = t.made := by rw [h.frame]
  refine ⟨⟨h.single, fun p i hp => ?_⟩, fun p i hp => ?_, fun habs q => ⟨h.gone habs q, h.past q⟩, ?_⟩
  · rw [hnext]
    rcases h.source hp with hp | hp
    · exact hs.fresh p i hp
    · exact hs.pastFresh p i hp
  · simp [h.past p] at hp
  · exact hanchored.le

/-- `t` differs from `s` in entries only, and those of `s` are among the ones a loss of power
may bring back. -/
structure Undoable (s t : Volume ν) : Prop where
  frame : t = { s with entry := t.entry, past := t.past }
  recalled : ∀ q, s.entry q = t.entry q ∨ s.entry q ∈ t.past q

theorem Undoable.refl (s : Volume ν) : Undoable s s := ⟨rfl, fun _ => Or.inl rfl⟩

/-- A loss of power may take the volume back to where it was. -/
theorem Undoable.entryLoss (h : Undoable s t) (hs : s.Tracked) :
    EntryLoss t { s with anchored := s.made, past := fun _ => [] } := by
  refine ⟨?_, ?_, fun _ => h.recalled, fun habs q => (hs.absent habs q).1, hs.single⟩
  · rw [h.frame]
  · rw [h.frame]
    exact ⟨hs.path, le_rfl⟩

theorem Tracked.refile (hs : s.Tracked) (node : Inode) : (s.refile i node).Tracked :=
  ⟨hs.toWf.refile node, hs.pastFresh, hs.absent, hs.path⟩

theorem Tracked.makePath (hs : s.Tracked) {k : ℕ} (hk : s.present = false → s.made ≤ k) :
    (s.makePath k).Tracked := by
  have hwf := (makePath_spec hs.toWf k).1
  cases hp : s.present with
  | true =>
    have hsame : s.makePath k = s := by simp [Volume.makePath, hp]
    rw [hsame]
    exact hs
  | false =>
    refine ⟨hwf, ?_, ?_, ?_⟩
    · simp [Volume.makePath, hp]
    · simp [Volume.makePath, hp]
    · have hle := hs.path.trans (hk hp)
      simpa [Volume.makePath, hp] using hle

theorem Partial.tracked {op : Op ν} (h : Partial op s t) (hs : s.Tracked) : t.Tracked := by
  cases h with
  | unchanged => exact hs
  | wrote file data k => exact hs.refile _
  | dug _ _ low => exact hs.makePath fun _ => low

variable [DecidableEq ν]

theorem mem_past_relink {target e : Option ℕ} (h : e ∈ (s.relink path target).past q) :
    e = s.entry q ∨ e ∈ s.past q := by
  by_cases hq : q = path
  · subst hq
    simpa [relink] using h
  · right
    simpa [relink, Function.update_of_ne hq] using h

theorem Tracked.relink {target : Option ℕ} (hs : s.Tracked) (hp : s.present = true)
    (hwf : (s.relink path target).Wf) : (s.relink path target).Tracked := by
  refine ⟨hwf, fun p i hi => ?_, fun habs => ?_, hs.path⟩
  · rcases mem_past_relink hi with hi | hi
    · exact hs.fresh p i hi.symm
    · exact hs.pastFresh p i hi
  · rw [relink_present, hp] at habs
    cases habs

theorem Tracked.create (hs : s.Tracked) (mode : Mode) : (s.create path mode).2.Tracked := by
  unfold Volume.create
  split_ifs with hp
  · cases he : s.entry path with
    | some j => exact hs.refile _
    | none =>
      refine ⟨hs.toWf.relink_next _ path, fun p i hi => ?_, fun habs => ?_, hs.path⟩
      · have hpast := @mem_past_relink _ (s.refile s.next _) path p _ (some s.next) _ hi
        have hlt : i < s.next := by
          rcases hpast with hi | hi
          · exact hs.fresh p i hi.symm
          · exact hs.pastFresh p i hi
        exact Nat.lt_succ_of_lt hlt
      · change s.present = false at habs
        rw [hp] at habs
        cases habs
  · exact hs

theorem Tracked.renamed (hs : s.Tracked) {source target : ν} (hne : source ≠ target)
    (hl : s.lookup source = some i) : ((s.relink target (some i)).relink source none).Tracked := by
  obtain ⟨hp, he⟩ := lookup_eq_some_iff.mp hl
  refine ⟨hs.toWf.rename hne he, fun p j hj => ?_, fun habs => ?_, hs.path⟩
  · change j < s.next
    rcases mem_past_relink hj with hj | hj
    · by_cases hpt : p = target
      · subst hpt
        rw [relink_entry_self] at hj
        cases hj
        exact hs.fresh source i he
      · rw [relink_entry_of_ne hpt] at hj
        exact hs.fresh p j hj.symm
    · rcases mem_past_relink hj with hj | hj
      · exact hs.fresh p j hj.symm
      · exact hs.pastFresh p j hj
  · change s.present = false at habs
    rw [hp] at habs
    cases habs

theorem Tracked.rename (hs : s.Tracked) (source target : ν) : (s.rename source target).2.Tracked := by
  unfold Volume.rename
  cases hl : s.lookup source with
  | none => exact hs
  | some i =>
    dsimp only
    split_ifs with hne
    · exact hs
    · exact hs.renamed hne hl

theorem Tracked.removeFile (hs : s.Tracked) (path : ν) : (s.removeFile path).2.Tracked := by
  unfold Volume.removeFile
  cases hl : s.lookup path with
  | none => exact hs
  | some i => exact hs.relink (lookup_eq_some_iff.mp hl).1 (hs.toWf.relink none (by simp))

theorem Tracked.run (op : Op ν) (hs : s.Tracked) : (Volume.run op s).2.Tracked := by
  cases op with
  | pathExists path => exact hs
  | readToString path =>
    simp only [Volume.run]
    repeat' split
    all_goals exact hs
  | read path =>
    simp only [Volume.run]
    split
    all_goals exact hs
  | create path mode => exact hs.create mode
  | writeAll file data => exact hs.refile _
  | setPermissions path mode =>
    simp only [Volume.run]
    split
    · exact hs
    · exact hs.refile _
  | openWrite path =>
    simp only [Volume.run]
    split
    all_goals exact hs
  | syncAll file => exact hs.refile _
  | rename source target => exact hs.rename source target
  | removeFile path => exact hs.removeFile path
  | createDirAll =>
    refine hs.makePath fun hp => ?_
    have hlt : s.made < s.depth := by simpa [present] using hp
    omega
  | setDirPermissions mode =>
    simp only [Volume.run]
    split_ifs
    · exact ⟨⟨hs.single, hs.fresh⟩, hs.pastFresh, hs.absent, hs.path⟩
    · exact hs
  | syncDir =>
    simp only [Volume.run]
    split_ifs with hp
    · exact ⟨⟨hs.single, hs.fresh⟩, by simp, fun habs q => ⟨(hs.absent habs q).1, rfl⟩, hs.path⟩
    · exact hs

theorem Tracked.outcome {ε α : Type} {p : Program (Op ν) Op.Res ε α} {trace : List (Op ν)}
    {o : Option (Except ε α)} (hs : s.Tracked) (h : Outcome (posix ν) p s trace o t) : t.Tracked := by
  have hkeeps := keeps_all (M := posix ν) (I := Tracked) (fun op _ h => h.run op)
    (fun _ _ _ _ hf => hf.left.tracked) (fun _ _ _ ht => ht.tracked) p
  exact (hkeeps s hs trace o t h).1

/-- A loss of power may take back a deletion. -/
theorem Undoable.removeFile {s₀ : Volume ν} (h : Undoable s₀ s) (path : ν) :
    Undoable s₀ (s.removeFile path).2 := by
  unfold Volume.removeFile
  cases hl : s.lookup path with
  | none => exact h
  | some i =>
    refine ⟨?_, fun q => ?_⟩
    · have hframe := h.frame
      simp only [relink]
      rw [hframe]
    · by_cases hq : q = path
      · subst hq
        right
        rcases h.recalled q with heq | hpast
        · simp [relink, heq]
        · simp [relink, hpast]
      · rw [relink_entry_of_ne hq]
        simpa [relink, Function.update_of_ne hq] using h.recalled q

end Volume
end PosixVolume
