import DigTls.Posix.Volume

/-! # What a call leaves alone

In a well-formed volume no two names lead to the same file, so a call that works on one
name shows on no other. `Apart path s t` says that `s` has become `t` by such calls.
-/
namespace PosixVolume
open EffectPrograms

namespace Volume
variable {ν : Type} {s t u : Volume ν} {path q : ν} {i file : ℕ}

/-- No file has two names, and the next inode number is not in use. -/
structure Wf (s : Volume ν) : Prop where
  single : ∀ p q i, s.entry p = some i → s.entry q = some i → p = q
  fresh : ∀ p i, s.entry p = some i → i < s.next

theorem lookup_eq_some_iff : s.lookup path = some i ↔ s.present = true ∧ s.entry path = some i := by
  unfold lookup
  split_ifs with h <;> simp [h]

theorem contents_of_lookup (h : s.lookup path = some i) : s.contents path = some (s.inode i).data := by
  simp [contents, h]

theorem contents_eq_none_iff : s.contents path = none ↔ s.lookup path = none := by
  simp [contents]

theorem contents_isSome : (s.contents path).isSome = (s.lookup path).isSome := by
  simp [contents]

theorem Wf.lookup_ne (hs : s.Wf) (hpath : s.entry path = some i) (hne : q ≠ path) :
    s.lookup q ≠ some i := by
  intro hq
  exact hne (hs.single q path i (lookup_eq_some_iff.mp hq).2 hpath)

theorem Wf.lookup_ne_next (hs : s.Wf) : s.lookup q ≠ some s.next := by
  intro hq
  have hlt := hs.fresh q s.next (lookup_eq_some_iff.mp hq).2
  omega

theorem Wf.refile (hs : s.Wf) (node : Inode) : (s.refile i node).Wf := ⟨hs.single, hs.fresh⟩

/-- A call that failed has taken some partial effect, if any. -/
theorem Fault.left {op : Op ν} {r : op.Res} (h : Fault op s r t) : Partial op s t := by
  cases h <;> first | assumption | exact .unchanged _ _

/-- Calls that take effect as a whole or not at all. -/
def Whole : Op ν → Prop
  | .writeAll _ _ | .createDirAll => False
  | _ => True

theorem Partial.eq_of_whole {op : Op ν} (h : Partial op s t) (hop : Whole op) : t = s := by
  cases h with
  | unchanged => rfl
  | wrote => exact hop.elim
  | dug => exact hop.elim

/-- The volume has changed at one name at most. -/
structure Apart (path : ν) (s t : Volume ν) : Prop where
  wf : t.Wf
  present : t.present = s.present
  elsewhere : ∀ q, q ≠ path → t.contents q = s.contents q

theorem Apart.refl (hs : s.Wf) : Apart path s s := ⟨hs, rfl, fun _ _ => rfl⟩

theorem Apart.of_whole {op : Op ν} (hs : s.Wf) (hop : Whole op) (h : Partial op s t) : Apart path s t := by
  rw [h.eq_of_whole hop]
  exact .refl hs

theorem Apart.trans (h : Apart path s t) (k : Apart path t u) : Apart path s u :=
  ⟨k.wf, k.present.trans h.present, fun q hq => (k.elsewhere q hq).trans (h.elsewhere q hq)⟩

@[simp] theorem refile_lookup (node : Inode) : (s.refile i node).lookup = s.lookup := rfl
@[simp] theorem refile_inode_self (node : Inode) : (s.refile i node).inode i = node :=
  Function.update_self ..

theorem contents_refile_self (h : s.lookup path = some i) (node : Inode) :
    (s.refile i node).contents path = some node.data := by
  simp [contents, h]

theorem contents_refile_of_ne (h : s.lookup q ≠ some i) (node : Inode) :
    (s.refile i node).contents q = s.contents q := by
  unfold contents
  rw [refile_lookup]
  cases hq : s.lookup q with
  | none => rfl
  | some j =>
    have hne : j ≠ i := by
      rintro rfl
      exact h hq
    simp [refile, Function.update_of_ne hne]

theorem Apart.refile (hs : s.Wf) (h : s.lookup path = some i) (node : Inode) :
    Apart path s (s.refile i node) :=
  ⟨hs.refile node, rfl, fun _ hq =>
    contents_refile_of_ne (hs.lookup_ne (lookup_eq_some_iff.mp h).2 hq) node⟩

theorem makePath_spec (hs : s.Wf) (k : ℕ) :
    (s.makePath k).Wf ∧ ∀ q, (s.makePath k).contents q = s.contents q := by
  unfold makePath
  split_ifs with hp
  · exact ⟨hs, fun _ => rfl⟩
  · refine ⟨⟨?_, ?_⟩, ?_⟩
    · intro p q i h
      cases h
    · intro p i h
      cases h
    · intro q
      have hq : s.contents q = none := by
        rw [contents_eq_none_iff]
        simp [lookup, hp]
      rw [hq, contents_eq_none_iff]
      simp [lookup]

theorem Partial.wf {op : Op ν} (h : Partial op s t) (hs : s.Wf) : t.Wf := by
  cases h with
  | unchanged => exact hs
  | wrote file data k => exact hs.refile _
  | dug => exact (makePath_spec hs _).1

variable [DecidableEq ν]

@[simp] theorem relink_present (target : Option ℕ) : (s.relink path target).present = s.present := rfl
@[simp] theorem relink_inode (target : Option ℕ) : (s.relink path target).inode = s.inode := rfl
@[simp] theorem relink_entry_self (target : Option ℕ) : (s.relink path target).entry path = target :=
  Function.update_self ..

theorem relink_entry_of_ne (h : q ≠ path) (target : Option ℕ) :
    (s.relink path target).entry q = s.entry q :=
  Function.update_of_ne h ..

theorem lookup_relink_of_ne (h : q ≠ path) (target : Option ℕ) :
    (s.relink path target).lookup q = s.lookup q := by
  simp [lookup, relink_entry_of_ne h]

theorem lookup_relink_self (h : s.present = true) (target : Option ℕ) :
    (s.relink path target).lookup path = target := by
  simp [lookup, h]

theorem contents_relink_of_ne (h : q ≠ path) (target : Option ℕ) :
    (s.relink path target).contents q = s.contents q := by
  simp [contents, lookup_relink_of_ne h]

theorem Wf.relink (hs : s.Wf) (target : Option ℕ)
    (hfree : ∀ j, target = some j → j < s.next ∧ ∀ q, q ≠ path → s.entry q ≠ some j) :
    (s.relink path target).Wf := by
  constructor
  · intro p q j hp hq
    by_cases hpp : p = path
    · by_cases hqp : q = path
      · rw [hpp, hqp]
      · subst hpp
        rw [relink_entry_self] at hp
        rw [relink_entry_of_ne hqp] at hq
        exact absurd hq ((hfree j hp).2 q hqp)
    · rw [relink_entry_of_ne hpp] at hp
      by_cases hqp : q = path
      · subst hqp
        rw [relink_entry_self] at hq
        exact absurd hp ((hfree j hq).2 p hpp)
      · rw [relink_entry_of_ne hqp] at hq
        exact hs.single p q j hp hq
  · intro p j hp
    by_cases hpp : p = path
    · subst hpp
      rw [relink_entry_self] at hp
      exact (hfree j hp).1
    · rw [relink_entry_of_ne hpp] at hp
      exact hs.fresh p j hp

theorem Wf.relink_next (hs : s.Wf) (node : Inode) (path : ν) :
    Wf { (s.refile s.next node).relink path (some s.next) with next := s.next + 1 } := by
  have hs' : Wf { s.refile s.next node with next := s.next + 1 } :=
    ⟨hs.single, fun p i hp => Nat.lt_succ_of_lt (hs.fresh p i hp)⟩
  apply @Wf.relink _ _ path _ hs' (some s.next)
  rintro j ⟨⟩
  refine ⟨Nat.lt_succ_self _, fun q _ hq => ?_⟩
  exact absurd (hs.fresh q _ hq) (lt_irrefl _)

theorem Apart.unlink (hs : s.Wf) : Apart path s (s.relink path none) :=
  ⟨hs.relink none (by simp), rfl, fun _ hq => contents_relink_of_ne hq none⟩

theorem run_setPermissions (hl : s.lookup path = some i) (mode : Mode) :
    run (.setPermissions path mode) s = (.ok (), s.refile i { s.inode i with mode := mode }) := by
  simp [run, hl]

theorem run_openWrite (hl : s.lookup path = some i) : run (.openWrite path) s = (.ok i, s) := by
  simp [run, hl]

theorem run_removeFile (hl : s.lookup path = some i) :
    run (.removeFile path) s = (.ok (), s.relink path none) := by
  simp [run, removeFile, hl]

theorem run_setDirPermissions (hp : s.present = true) (mode : Mode) :
    run (.setDirPermissions mode : Op ν) s = (.ok (), { s with dirMode := mode }) := by
  simp [run, hp]

theorem run_syncDir (hp : s.present = true) :
    run (.syncDir : Op ν) s = (.ok (), { s with past := fun _ => [] }) := by
  simp [run, hp]

theorem create_ok (hp : s.present = true) (path : ν) (mode : Mode) :
    ∃ file, (s.create path mode).1 = .ok file ∧ (s.create path mode).2.lookup path = some file := by
  unfold create
  rw [if_pos hp]
  cases he : s.entry path with
  | some i => exact ⟨i, rfl, lookup_eq_some_iff.mpr ⟨hp, he⟩⟩
  | none => exact ⟨s.next, rfl, lookup_relink_self (s := s.refile s.next _) hp _⟩

theorem create_spec (hs : s.Wf) (mode : Mode) {r : Except IoError ℕ}
    (h : s.create path mode = (r, t)) :
    Apart path s t ∧ ∀ f, r = .ok f → t.lookup path = some f ∧ t.contents path = some [] := by
  unfold create at h
  split_ifs at h with hp
  · cases he : s.entry path with
    | some j =>
      have hl : s.lookup path = some j := lookup_eq_some_iff.mpr ⟨hp, he⟩
      simp only [he, Prod.mk.injEq] at h
      obtain ⟨rfl, rfl⟩ := h
      refine ⟨Apart.refile hs hl _, ?_⟩
      rintro f ⟨⟩
      exact ⟨hl, contents_refile_self hl _⟩
    | none =>
      simp only [he, Prod.mk.injEq] at h
      obtain ⟨rfl, rfl⟩ := h
      have hl : ((s.refile s.next ⟨[], mode &&& ~~~s.umask, true⟩).relink path
          (some s.next)).lookup path = some s.next := lookup_relink_self hp _
      constructor
      · refine ⟨hs.relink_next _ path, rfl, ?_⟩
        intro q hq
        change ((s.refile s.next _).relink path _).contents q = s.contents q
        rw [contents_relink_of_ne hq, contents_refile_of_ne hs.lookup_ne_next]
      · rintro f ⟨⟩
        refine ⟨hl, ?_⟩
        have hc := contents_of_lookup hl
        rw [relink_inode, refile_inode_self] at hc
        exact hc
  · cases h
    exact ⟨Apart.refl hs, fun f hf => by cases hf⟩

/-- The source's file under the target's name: again every file has one name. -/
theorem Wf.rename (hs : s.Wf) {source target : ν} (hne : source ≠ target)
    (he : s.entry source = some i) : ((s.relink target (some i)).relink source none).Wf := by
  have hmoved : ((s.relink source none).relink target (some i)).Wf := by
    apply Wf.relink (hs.relink none (by simp)) (some i)
    rintro j ⟨⟩
    refine ⟨hs.fresh source i he, fun q _ hq => ?_⟩
    by_cases hqs : q = source
    · subst hqs
      simp at hq
    · rw [relink_entry_of_ne hqs] at hq
      exact hqs (hs.single q source i hq he)
  have hentry : ((s.relink target (some i)).relink source none).entry =
      ((s.relink source none).relink target (some i)).entry :=
    Function.update_comm hne.symm ..
  constructor
  · rw [hentry]
    exact hmoved.single
  · rw [hentry]
    exact hmoved.fresh

theorem rename_spec (hs : s.Wf) {source target : ν} (hne : source ≠ target)
    {r : Except IoError Unit} (h : s.rename source target = (r, t)) :
    (r = .ok () ∧ t.Wf ∧ t.present = s.present ∧ t.contents target = s.contents source ∧
      (s.contents source).isSome ∧ t.contents source = none ∧
      ∀ q, q ≠ source → q ≠ target → t.contents q = s.contents q) ∨
    (r = .error .notFound ∧ t = s ∧ s.contents source = none) := by
  unfold rename at h
  cases hl : s.lookup source with
  | none =>
    simp only [hl, Prod.mk.injEq] at h
    exact Or.inr ⟨h.1.symm, h.2.symm, contents_eq_none_iff.mpr hl⟩
  | some i =>
    simp only [hl, hne, if_false, Prod.mk.injEq] at h
    obtain ⟨rfl, rfl⟩ := h
    obtain ⟨hp, he⟩ := lookup_eq_some_iff.mp hl
    have hsource : ((s.relink target (some i)).relink source none).lookup source = none :=
      lookup_relink_self (s := s.relink target (some i)) hp none
    have htarget : ((s.relink target (some i)).relink source none).lookup target = some i := by
      rw [lookup_relink_of_ne hne.symm, lookup_relink_self hp]
    refine Or.inl ⟨rfl, hs.rename hne he, rfl, ?_, ?_, contents_eq_none_iff.mpr hsource, ?_⟩
    · rw [contents_of_lookup htarget, contents_of_lookup hl]
      rfl
    · rw [contents_isSome, hl]
      rfl
    · intro q hqs hqt
      rw [contents_relink_of_ne hqs, contents_relink_of_ne hqt]

theorem Wf.run (op : Op ν) (hs : s.Wf) : (Volume.run op s).2.Wf := by
  cases op with
  | pathExists path => exact hs
  | readToString path =>
    simp only [Volume.run]
    repeat' split
    all_goals exact hs
  | read path =>
    simp only [Volume.run]
    split <;> exact hs
  | create path mode => exact (create_spec hs mode rfl).1.wf
  | writeAll file data => exact hs.refile _
  | setPermissions path mode =>
    simp only [Volume.run]
    split
    · exact hs
    · exact hs.refile _
  | openWrite path =>
    simp only [Volume.run]
    split <;> exact hs
  | syncAll file => exact hs.refile _
  | rename source target =>
    simp only [Volume.run, Volume.rename]
    cases hl : s.lookup source with
    | none => exact hs
    | some i =>
      dsimp only
      split_ifs with hne
      · exact hs
      · exact hs.rename hne (lookup_eq_some_iff.mp hl).2
  | removeFile path =>
    simp only [Volume.run, Volume.removeFile]
    cases s.lookup path with
    | none => exact hs
    | some i => exact hs.relink none (by simp)
  | createDirAll => exact (makePath_spec hs _).1
  | setDirPermissions mode =>
    simp only [Volume.run]
    split_ifs
    · exact ⟨hs.single, hs.fresh⟩
    · exact hs
  | syncDir =>
    simp only [Volume.run]
    split_ifs
    · exact ⟨hs.single, hs.fresh⟩
    · exact hs

end Volume

/-- The targets of the renames among the calls made. -/
def renamed {ν : Type} (trace : List (Op ν)) : List ν :=
  trace.filterMap fun
    | .rename _ target => some target
    | _ => none

theorem renamed_append {ν : Type} (xs ys : List (Op ν)) :
    renamed (xs ++ ys) = renamed xs ++ renamed ys := by
  simp [renamed]

end PosixVolume
