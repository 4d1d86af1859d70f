import DigTls.Posix.PowerLoss

/-! # Where the bytes of a secret are left

A file keeps its bytes when it is unlinked, and a loss of power may give it its name back. So
that a secret is gone from a directory says two things: no name leads to a file that contains
it, and no earlier value of an entry does.
-/
namespace PosixVolume
open EffectPrograms

namespace Volume
variable {ν : Type} {secret data : Bytes} {seen kept : Set ν} {s t : Volume ν} {path q : ν} {i : ℕ}

/-- No name in `seen` leads to a file that contains the secret, and no earlier entry of a
name in `kept` does. -/
structure Confined (secret : Bytes) (seen kept : Set ν) (s : Volume ν) : Prop where
  entries : ∀ q ∈ seen, ∀ i, s.entry q = some i → ¬ secret <:+: (s.inode i).data
  earlier : ∀ q ∈ kept, ∀ i, some i ∈ s.past q → ¬ secret <:+: (s.inode i).data

theorem Confined.contents (h : Confined secret seen kept s) (hq : q ∈ seen)
    (hc : s.contents q = some data) : ¬ secret <:+: data := by
  obtain ⟨i, hl, rfl⟩ := Option.map_eq_some_iff.mp hc
  exact h.entries q hq i (lookup_eq_some_iff.mp hl).2

/-- A loss of power brings back no more than the earlier entries hold. -/
theorem Confined.entryLoss (h : Confined secret seen seen s) (hloss : EntryLoss s t) :
    Confined secret seen kept t := by
  refine ⟨fun q hq i hi => ?_, fun q _ i hi => ?_⟩
  · rw [hloss.inode]
    rcases hloss.source hi with hi | hi
    · exact h.entries q hq i hi
    · exact h.earlier q hq i hi
  · simp [hloss.past q] at hi

theorem Confined.refile (h : Confined secret seen kept s) {node : Inode}
    (hnode : secret <:+: node.data → secret <:+: (s.inode i).data) :
    Confined secret seen kept (s.refile i node) := by
  have hclean : ∀ j, ¬ secret <:+: (s.inode j).data → ¬ secret <:+: ((s.refile i node).inode j).data := by
    intro j hj
    by_cases hji : j = i
    · subst hji
      rw [refile_inode_self]
      exact fun hin => hj (hnode hin)
    · simpa [Volume.refile, Function.update_of_ne hji] using hj
  exact ⟨fun q hq j hj => hclean j (h.entries q hq j hj),
    fun q hq j hj => hclean j (h.earlier q hq j hj)⟩

theorem Confined.makePath (h : Confined secret seen kept s) (k : ℕ) :
    Confined secret seen kept (s.makePath k) := by
  unfold Volume.makePath
  split_ifs
  · exact h
  · constructor
    · intro q _ i hi
      cases hi
    · intro q _ i hi
      cases hi

theorem Confined.overwrite (h : Confined secret seen kept s) (hempty : (s.inode i).data = [])
    (hdata : ¬ secret <:+: data) : Confined secret seen kept (s.overwrite i data) := by
  refine h.refile fun hin => absurd hin ?_
  simpa [hempty] using hdata

variable [DecidableEq ν]

theorem Confined.relink (h : Confined secret seen kept s) (hsub : kept ⊆ seen) (path : ν) (target : Option ℕ)
    (htarget : path ∈ seen → ∀ j, target = some j → ¬ secret <:+: (s.inode j).data) :
    Confined secret seen kept (s.relink path target) := by
  refine ⟨fun q hq i hi => ?_, fun q hq i hi => ?_⟩
  · by_cases hqp : q = path
    · subst hqp
      rw [relink_entry_self] at hi
      exact htarget hq i hi
    · rw [relink_entry_of_ne hqp] at hi
      exact h.entries q hq i hi
  · rcases mem_past_relink hi with hi | hi
    · exact h.entries q (hsub hq) i hi.symm
    · exact h.earlier q hq i hi

theorem Confined.create (h : Confined secret seen kept s) (hsub : kept ⊆ seen) (hsecret : secret ≠ [])
    (path : ν) (mode : Mode) : Confined secret seen kept (s.create path mode).2 := by
  unfold Volume.create
  split_ifs
  · cases he : s.entry path with
    | some i => exact h.refile fun hin => absurd (List.infix_nil.mp hin) hsecret
    | none =>
      have hfresh : Confined secret seen kept (s.refile s.next ⟨[], mode &&& ~~~s.umask, true⟩) :=
        h.refile fun hin => absurd (List.infix_nil.mp hin) hsecret
      have hlinked := hfresh.relink hsub path (some s.next) fun _ j hj => by
        cases hj
        simpa using hsecret
      exact ⟨hlinked.entries, hlinked.earlier⟩
  · exact h

theorem create_empty {mode : Mode} {file : ℕ} (h : (s.create path mode).1 = .ok file) :
    ((s.create path mode).2.inode file).data = [] := by
  unfold Volume.create at h ⊢
  split_ifs at h ⊢
  · cases he : s.entry path with
    | some i =>
      simp only [he] at h
      cases h
      simp
    | none =>
      simp only [he] at h
      cases h
      simp [Volume.relink, Volume.refile]

theorem Confined.rename (h : Confined secret seen kept s) (hsub : kept ⊆ seen) {source : ν}
    (hsource : source ∈ seen) (target : ν) : Confined secret seen kept (s.rename source target).2 := by
  unfold Volume.rename
  cases hl : s.lookup source with
  | none => exact h
  | some i =>
    dsimp only
    split_ifs
    · exact h
    · have hclean := h.entries source hsource i (lookup_eq_some_iff.mp hl).2
      have htarget := h.relink hsub target (some i) fun _ j hj => by
        cases hj
        exact hclean
      exact htarget.relink hsub source none fun _ j hj => by cases hj

end Volume

/-- A call that writes no bytes, and renames only a file known not to contain the secret. -/
def Op.Careful {ν : Type} (seen : Set ν) : Op ν → Prop
  | .writeAll _ _ => False
  | .rename source _ => source ∈ seen
  | _ => True

namespace Volume
variable {ν : Type} {secret : Bytes} {seen kept : Set ν} {s t : Volume ν} {op : Op ν}

theorem Confined.left (h : Confined secret seen kept s) (hop : op.Careful seen)
    (hleft : Partial op s t) : Confined secret seen kept t := by
  cases hleft with
  | unchanged => exact h
  | wrote => exact hop.elim
  | dug => exact h.makePath _

variable [DecidableEq ν]

theorem Confined.run (h : Confined secret seen kept s) (hsub : kept ⊆ seen) (hsecret : secret ≠ [])
    (hop : op.Careful seen) : Confined secret seen kept (Volume.run op s).2 := by
  cases op with
  | pathExists path => exact h
  | readToString path =>
    simp only [Volume.run]
    repeat' split
    all_goals exact h
  | read path =>
    simp only [Volume.run]
    split
    all_goals exact h
  | create path mode => exact h.create hsub hsecret path mode
  | writeAll file data => exact hop.elim
  | setPermissions path mode =>
    simp only [Volume.run]
    split
    · exact h
    · exact h.refile id
  | openWrite path =>
    simp only [Volume.run]
    split
    all_goals exact h
  | syncAll file => exact h.refile id
  | rename source target => exact h.rename hsub hop target
  | removeFile path =>
    simp only [Volume.run, Volume.removeFile]
    split
    · exact h
    · exact h.relink hsub path none fun _ j hj => by cases hj
  | createDirAll => exact h.makePath s.depth
  | setDirPermissions mode =>
    simp only [Volume.run]
    split_ifs
    · exact ⟨h.entries, h.earlier⟩
    · exact h
  | syncDir =>
    simp only [Volume.run]
    split_ifs
    · exact ⟨h.entries, by simp⟩
    · exact h

end Volume

section Programs
variable {ν : Type} [DecidableEq ν] {ε α : Type} {secret : Bytes} {seen kept : Set ν} {A : α → Prop}

theorem keeps_careful (hsub : kept ⊆ seen) (hsecret : secret ≠ []) {op : Op ν} (hop : op.Careful seen)
    {next : op.Res → Program (Op ν) Op.Res ε α}
    (later : ∀ r, Keeps (posix ν) (Volume.Confined secret seen kept) (next r) A) :
    Keeps (posix ν) (Volume.Confined secret seen kept) (.call op next) A :=
  Keeps.call (fun _ h => h.run hsub hsecret hop) (fun _ _ _ hf h => h.left hop hf.left)
    (fun _ _ ht h => h.left hop ht) later

theorem keeps_create_write (hsub : kept ⊆ seen) (hsecret : secret ≠ []) {path : ν} {mode : Mode}
    {data : Bytes} (hdata : ¬ secret <:+: data)
    {next : Except IoError ℕ → Program (Op ν) Op.Res ε α}
    {k : Except IoError Unit → Program (Op ν) Op.Res ε α}
    (good : ∀ file, next (.ok file) = .call (.writeAll file data) k)
    (bad : ∀ e, Keeps (posix ν) (Volume.Confined secret seen kept) (next (.error e)) A)
    (later : ∀ r, Keeps (posix ν) (Volume.Confined secret seen kept) (k r) A) :
    Keeps (posix ν) (Volume.Confined secret seen kept) (.call (.create path mode) next) A := by
  intro s hs
  have hcreated := hs.create hsub hsecret path mode
  apply Ensures.call
  · change Ensures _ (next (s.create path mode).1) (s.create path mode).2 _
    cases hr : (s.create path mode).1 with
    | error e => exact bad e _ hcreated
    | ok file =>
      rw [good]
      have hempty := Volume.create_empty hr
      have hleft : ∀ t, Volume.Partial (.writeAll file data) (s.create path mode).2 t →
          Volume.Confined secret seen kept t := by
        rintro t (_ | ⟨_, _, _, n⟩)
        · exact hcreated
        · exact hcreated.overwrite hempty fun hin => hdata (hin.trans (List.take_prefix n data).isInfix)
      apply Ensures.call
      · exact later _ _ (hcreated.overwrite hempty hdata)
      · exact fun r u hf => later r u (hleft u hf.left)
      · exact fun t ht => ⟨hleft t ht, by simp⟩
  · rintro r u ⟨⟩
    exact bad _ _ hs
  · rintro t ⟨⟩
    exact ⟨hs, by simp⟩

end Programs
end PosixVolume
