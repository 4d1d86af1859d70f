import DigTls.Effects.Interleaving
import DigTls.Posix.Frame

/-! # What a running program can see

Calls answer from the entries and the files. The earlier values of the entries, which only a
loss of power brings back, are out of their sight.
-/
namespace PosixVolume
open EffectPrograms

namespace Volume
variable {ν : Type} {s t : Volume ν} {path q : ν} {op : Op ν}

/-- The volume without what only a loss of power would show. -/
def visible (s : Volume ν) : Volume ν := { s with past := fun _ => [] }

theorem eq_of_visible (h : visible s = visible t) : t = { s with past := t.past } := by
  obtain ⟨⟩ := s
  obtain ⟨⟩ := t
  simp only [visible, mk.injEq] at h
  simp [h]

theorem contents_visible (h : visible s = visible t) : t.contents = s.contents := by
  rw [eq_of_visible h]
  rfl

theorem shown_present : Shown visible fun s : Volume ν => s.present = true := by
  intro s s' h hs
  rw [eq_of_visible h]
  exact hs

/-- Each listed name leads to a file, or to none, as the list says. -/
def Knows (known : List (ν × Bool)) (s : Volume ν) : Prop :=
  ∀ x ∈ known, (s.contents x.1).isSome = x.2

theorem shown_knows (known : List (ν × Bool)) : Shown visible (Knows known) := by
  intro s s' h hs x hx
  rw [contents_visible h]
  exact hs x hx

variable [DecidableEq ν]

theorem visible_run (op : Op ν) (s : Volume ν) (past : ν → List (Option ℕ)) :
    (run op { s with past := past }).1 = (run op s).1 ∧
      visible (run op { s with past := past }).2 = visible (run op s).2 := by
  have hl : ∀ q, lookup { s with past := past } q = s.lookup q := fun _ => rfl
  have hc : ∀ q, contents { s with past := past } q = s.contents q := fun _ => rfl
  have hp : present { s with past := past } = s.present := rfl
  cases op with
  | pathExists path => exact ⟨rfl, rfl⟩
  | readToString path =>
    simp only [run, hc]
    cases s.contents path with
    | none => exact ⟨rfl, rfl⟩
    | some bytes =>
      dsimp only
      cases fromUtf8 bytes <;> exact ⟨rfl, rfl⟩
  | read path =>
    simp only [run, hc]
    cases s.contents path <;> exact ⟨rfl, rfl⟩
  | create path mode =>
    simp only [run, create, hp]
    split
    · cases s.entry path <;> exact ⟨rfl, rfl⟩
    · exact ⟨rfl, rfl⟩
  | writeAll file data => exact ⟨rfl, rfl⟩
  | setPermissions path mode =>
    simp only [run, hl]
    cases s.lookup path <;> exact ⟨rfl, rfl⟩
  | openWrite path =>
    simp only [run, hl]
    cases s.lookup path <;> exact ⟨rfl, rfl⟩
  | syncAll file => exact ⟨rfl, rfl⟩
  | rename source target =>
    simp only [run, rename, hl]
    cases s.lookup source with
    | none => exact ⟨rfl, rfl⟩
    | some i =>
      by_cases h : source = target
      · simp only [h, if_true]
        trivial
      · simp only [h, if_false]
        trivial
  | removeFile path =>
    simp only [run, removeFile, hl]
    cases s.lookup path <;> exact ⟨rfl, rfl⟩
  | createDirAll => cases hpr : s.present <;> simp [run, makePath, hp, hpr, visible]
  | setDirPermissions mode => cases hpr : s.present <;> simp [run, hp, hpr, visible]
  | syncDir => cases hpr : s.present <;> simp [run, hp, hpr, visible]

theorem faithful_visible : Faithful (posix ν) visible := by
  intro op s s' h
  rw [eq_of_visible h]
  obtain ⟨hans, hstate⟩ := visible_run op s s'.past
  exact ⟨hans.symm, hstate.symm⟩

end Volume

/-- The calls that may make a name lead to a file, or stop it from doing so. -/
def Op.Touches {ν : Type} (q : ν) : Op ν → Prop
  | .create path _ | .removeFile path => path = q
  | .rename source target => source = q ∨ target = q
  | _ => False

namespace Volume
variable {ν : Type} [DecidableEq ν] {s t : Volume ν} {path q : ν} {op : Op ν}

theorem run_lookup_isSome (h : ¬ op.Touches q) :
    ((run op s).2.lookup q).isSome = (s.lookup q).isSome := by
  cases op with
  | pathExists path => rfl
  | readToString path =>
    simp only [run]
    repeat' split
    all_goals rfl
  | read path =>
    simp only [run]
    split <;> rfl
  | create path mode =>
    have hne : q ≠ path := fun he => h he.symm
    simp only [run, create]
    split_ifs
    · cases he : s.entry path with
      | some i => rfl
      | none =>
        change (((s.refile s.next _).relink path _).lookup q).isSome = _
        rw [lookup_relink_of_ne hne, refile_lookup]
    · rfl
  | writeAll file data => rfl
  | setPermissions path mode =>
    simp only [run]
    split <;> rfl
  | openWrite path =>
    simp only [run]
    split <;> rfl
  | syncAll file => rfl
  | rename source target =>
    have hs : q ≠ source := fun he => h (Or.inl he.symm)
    have ht : q ≠ target := fun he => h (Or.inr he.symm)
    simp only [run, rename]
    split
    · rfl
    · split_ifs
      · rfl
      · rw [lookup_relink_of_ne hs, lookup_relink_of_ne ht]
  | removeFile path =>
    have hne : q ≠ path := fun he => h he.symm
    simp only [run, removeFile]
    split
    · rfl
    · rw [lookup_relink_of_ne hne]
  | createDirAll =>
    simp only [run, makePath]
    split_ifs with hp
    · rfl
    · simp [lookup, hp]
  | setDirPermissions mode =>
    simp only [run]
    split_ifs <;> rfl
  | syncDir =>
    simp only [run]
    split_ifs <;> rfl

theorem run_present (op : Op ν) (hp : s.present = true) : (run op s).2.present = true := by
  cases op with
  | pathExists path => exact hp
  | readToString path =>
    simp only [run]
    repeat' split
    all_goals exact hp
  | read path =>
    simp only [run]
    split <;> exact hp
  | create path mode =>
    simp only [run, create, hp, if_true]
    cases s.entry path <;> exact hp
  | writeAll file data => exact hp
  | setPermissions path mode =>
    simp only [run]
    split <;> exact hp
  | openWrite path =>
    simp only [run]
    split <;> exact hp
  | syncAll file => exact hp
  | rename source target =>
    simp only [run, rename]
    split
    · exact hp
    · split_ifs <;> exact hp
  | removeFile path =>
    simp only [run, removeFile]
    split <;> exact hp
  | createDirAll => simp [run, makePath, hp]
  | setDirPermissions mode =>
    simp only [run, hp, if_true]
    exact hp
  | syncDir =>
    simp only [run, hp, if_true]
    exact hp

theorem Knows.run {known : List (ν × Bool)} (h : Knows known s)
    (hop : ∀ x ∈ known, ¬ op.Touches x.1) : Knows known (run op s).2 := by
  intro x hx
  rw [contents_isSome, run_lookup_isSome (hop x hx), ← contents_isSome]
  exact h x hx

end Volume
end PosixVolume
