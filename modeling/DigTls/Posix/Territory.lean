import DigTls.Effects.Crowd
import DigTls.Posix.Staging

/-! # Programs that keep to some names

A program that changes only what some names lead to, and writes only to files it has itself opened under
them, leaves the rest of the directory alone, whatever comes of its calls and whoever else keeps to the
same names meanwhile.
-/
namespace PosixVolume
open EffectPrograms
variable {ν : Type} {ε α β : Type}

def Op.KeepsTo (names : Set ν) (files : Set ℕ) : Op ν → Prop
  | .create path _ | .setPermissions path _ | .openWrite path | .removeFile path => path ∈ names
  | .writeAll file _ | .syncAll file => file ∈ files
  | .rename source target => source ∈ names ∧ target ∈ names
  | _ => True

/-- The file a call has opened. -/
def Op.opened : (op : Op ν) → op.Res → Set ℕ
  | .create _ _, .ok file | .openWrite _, .ok file => {file}
  | _, _ => ∅

/-- Each call keeps to the names and to what has been opened before it. -/
def ProgramKeepsTo (names : Set ν) (A : α → Set ℕ → Prop) : Set ℕ → Program (Op ν) Op.Res ε α → Prop
  | files, .done a => A a files
  | _, .raise _ => True
  | files, .call op next => op.KeepsTo names files ∧ ∀ r, ProgramKeepsTo names A (files ∪ op.opened r) (next r)

theorem ProgramKeepsTo.bind {names : Set ν} {A : α → Set ℕ → Prop} {A' : β → Set ℕ → Prop} {files : Set ℕ}
    {p : Program (Op ν) Op.Res ε α} {f : α → Program (Op ν) Op.Res ε β} (h : ProgramKeepsTo names A files p)
    (next : ∀ a files, A a files → ProgramKeepsTo names A' files (f a)) : ProgramKeepsTo names A' files (p >>= f) := by
  induction p generalizing files with
  | done a => exact next a files h
  | raise e => trivial
  | call op rest ih => exact ⟨h.1, fun r => ih r (h.2 r)⟩

theorem keepsTo_of_forall {names : Set ν} {A : α → Prop} {files : Set ℕ} {p : Program (Op ν) Op.Res ε α}
    (h : p.Forall (fun op => ∀ files, op.KeepsTo names files) A) :
    ProgramKeepsTo names (fun a _ => A a) files p := by
  induction p generalizing files with
  | done a => exact h
  | raise e => trivial
  | call op next ih => exact ⟨h.1 files, fun r => ih r (h.2 r)⟩

namespace Volume
variable {names : Set ν} {files : Set ℕ} {s t u : Volume ν} {path q : ν} {i : ℕ} {op : Op ν}

theorem Tracked.lookup_eq (hs : s.Tracked) (q : ν) : s.lookup q = s.entry q := by
  cases hp : s.present with
  | true => simp [lookup, hp]
  | false => simp [lookup, hp, (hs.absent hp q).1]

/-- Nothing has changed but what the names lead to. -/
structure Spares (names : Set ν) (s t : Volume ν) : Prop where
  entry : ∀ q ∉ names, t.entry q = s.entry q
  inode : ∀ q ∉ names, ∀ i, s.entry q = some i → t.inode i = s.inode i
  next : s.next ≤ t.next

theorem Spares.refl (names : Set ν) (s : Volume ν) : Spares names s s :=
  ⟨fun _ _ => rfl, fun _ _ _ _ => rfl, le_rfl⟩

theorem Spares.trans (h : Spares names s t) (k : Spares names t u) : Spares names s u := by
  refine ⟨fun q hq => (k.entry q hq).trans (h.entry q hq), fun q hq i hi => ?_, h.next.trans k.next⟩
  have ht : t.entry q = some i := (h.entry q hq).trans hi
  exact (k.inode q hq i ht).trans (h.inode q hq i hi)

/-- The files are there, and no other name leads to them. -/
def Owned (names : Set ν) (files : Set ℕ) (s : Volume ν) : Prop :=
  ∀ i ∈ files, i < s.next ∧ ∀ q ∉ names, s.entry q ≠ some i

theorem Owned.spares (h : Owned names files s) (hst : Spares names s t) : Owned names files t := by
  intro i hi
  refine ⟨lt_of_lt_of_le (h i hi).1 hst.next, fun q hq => ?_⟩
  rw [hst.entry q hq]
  exact (h i hi).2 q hq

theorem Owned.union {more : Set ℕ} (h : Owned names files s) (k : Owned names more s) :
    Owned names (files ∪ more) s := by
  rintro i (hi | hi)
  · exact h i hi
  · exact k i hi

theorem owned_empty : Owned names ∅ s := fun _ hi => hi.elim

theorem owned_of_entry (hs : s.Wf) (hpath : path ∈ names) (he : s.entry path = some i) : Owned names {i} s := by
  rintro _ rfl
  refine ⟨hs.fresh path _ he, fun q hq he' => ?_⟩
  obtain rfl := hs.single q path _ he' he
  exact hq hpath

theorem spares_refile (h : Owned names {i} s) (node : Inode) : Spares names s (s.refile i node) := by
  refine ⟨fun _ _ => rfl, fun q hq j hj => Function.update_of_ne ?_ _ _, le_rfl⟩
  rintro rfl
  exact (h j rfl).2 q hq hj

theorem spares_makePath (hs : s.Tracked) (k : ℕ) : Spares names s (s.makePath k) := by
  unfold makePath
  split_ifs with hp
  · exact Spares.refl names s
  · have hnone : ∀ q, s.entry q = none := fun q => (hs.absent (by simpa using hp) q).1
    exact ⟨fun q _ => (hnone q).symm, fun q _ i hi => by simp [hnone] at hi, le_rfl⟩

theorem Partial.spares (h : Partial op s t) (hs : s.Tracked) (hop : op.KeepsTo names files)
    (howned : Owned names files s) : Spares names s t := by
  cases h with
  | unchanged => exact Spares.refl names s
  | wrote file data k =>
    refine spares_refile (fun i hi => ?_) _
    cases hi
    exact howned file hop
  | dug k => exact spares_makePath hs _

/-- A call that fails opens nothing. -/
theorem VeiledFault.opened {hidden : Set ν} {r : op.Res} (h : VeiledFault hidden op s r t) : op.opened r = ∅ := by
  cases h with
  | fault h => cases h <;> rfl
  | unseen => rfl

variable [DecidableEq ν]

theorem spares_relink (hpath : path ∈ names) (target : Option ℕ) : Spares names s (s.relink path target) :=
  ⟨fun _ hq => relink_entry_of_ne (ne_of_mem_of_not_mem hpath hq).symm target, fun _ _ _ _ => rfl, le_rfl⟩

theorem spares_create (hs : s.Wf) (hpath : path ∈ names) (mode : Mode) :
    Spares names s (s.create path mode).2 ∧
      ∀ file, (s.create path mode).1 = .ok file → Owned names {file} (s.create path mode).2 := by
  unfold create
  split_ifs with hp
  · cases he : s.entry path with
    | some j =>
      have howned : Owned names {j} s := owned_of_entry hs hpath he
      have hspares := spares_refile howned { s.inode j with data := [], dirty := true }
      refine ⟨hspares, ?_⟩
      rintro _ ⟨⟩
      exact howned.spares hspares
    | none =>
      have hunused : ∀ q, s.entry q ≠ some s.next := fun q hq => absurd (hs.fresh q _ hq) (lt_irrefl _)
      have hentry : ∀ q ∉ names, Function.update s.entry path (some s.next) q = s.entry q :=
        fun q hq => Function.update_of_ne (ne_of_mem_of_not_mem hpath hq).symm _ _
      refine ⟨⟨hentry, fun q _ i hi => Function.update_of_ne ?_ _ _, Nat.le_succ _⟩, ?_⟩
      · rintro rfl
        exact hunused q hi
      · rintro file hfile
        cases hfile
        rintro _ rfl
        refine ⟨Nat.lt_succ_self _, fun q hq => ?_⟩
        change Function.update s.entry path (some s.next) q ≠ _
        rw [hentry q hq]
        exact hunused q
  · exact ⟨Spares.refl names s, by simp⟩

theorem spares_run (hs : s.Tracked) (hop : op.KeepsTo names files) (howned : Owned names files s) :
    Spares names s (run op s).2 ∧ Owned names (op.opened (run op s).1) (run op s).2 := by
  have hsame : Spares names s s := Spares.refl names s
  cases op with
  | pathExists path => exact ⟨hsame, owned_empty⟩
  | readToString path =>
    simp only [run]
    repeat' split
    all_goals exact ⟨hsame, owned_empty⟩
  | read path =>
    simp only [run]
    split <;> exact ⟨hsame, owned_empty⟩
  | create path mode =>
    obtain ⟨hspares, hopened⟩ := spares_create hs.toWf hop mode
    refine ⟨hspares, ?_⟩
    simp only [run]
    cases hfile : (s.create path mode).1 with
    | error e => exact owned_empty
    | ok file => exact hopened file hfile
  | writeAll file data =>
    refine ⟨spares_refile (fun i hi => ?_) _, owned_empty⟩
    cases hi
    exact howned file hop
  | setPermissions path mode =>
    simp only [run]
    cases hl : s.lookup path with
    | none => exact ⟨hsame, owned_empty⟩
    | some i => exact ⟨spares_refile (owned_of_entry hs.toWf hop (lookup_eq_some_iff.mp hl).2) _, owned_empty⟩
  | openWrite path =>
    simp only [run]
    cases hl : s.lookup path with
    | none => exact ⟨hsame, owned_empty⟩
    | some i => exact ⟨hsame, owned_of_entry hs.toWf hop (lookup_eq_some_iff.mp hl).2⟩
  | syncAll file =>
    refine ⟨spares_refile (fun i hi => ?_) _, owned_empty⟩
    cases hi
    exact howned file hop
  | rename source target =>
    simp only [run, rename]
    cases s.lookup source with
    | none => exact ⟨hsame, owned_empty⟩
    | some i =>
      dsimp only
      split_ifs
      · exact ⟨hsame, owned_empty⟩
      · exact ⟨(spares_relink hop.2 (some i)).trans (spares_relink hop.1 none), owned_empty⟩
  | removeFile path =>
    simp only [run, removeFile]
    cases s.lookup path with
    | none => exact ⟨hsame, owned_empty⟩
    | some i => exact ⟨spares_relink hop none, owned_empty⟩
  | createDirAll => exact ⟨spares_makePath hs _, owned_empty⟩
  | setDirPermissions mode =>
    simp only [run]
    split_ifs
    · exact ⟨⟨fun _ _ => rfl, fun _ _ _ _ => rfl, le_rfl⟩, owned_empty⟩
    · exact ⟨hsame, owned_empty⟩
  | syncDir =>
    simp only [run]
    split_ifs
    · exact ⟨⟨fun _ _ => rfl, fun _ _ _ _ => rfl, le_rfl⟩, owned_empty⟩
    · exact ⟨hsame, owned_empty⟩

theorem spares_does {r : Option op.Res} (hs : s.Tracked) (hop : op.KeepsTo names files)
    (howned : Owned names files s) (h : (blind ν).Does op s r t) :
    t.Tracked ∧ Spares names s t ∧ ∀ x, r = some x → Owned names (op.opened x) t := by
  cases h with
  | works =>
    obtain ⟨hspares, hopened⟩ := spares_run hs hop howned
    refine ⟨hs.run op, hspares, ?_⟩
    rintro _ ⟨⟩
    exact hopened
  | fails failed =>
    refine ⟨failed.left.tracked hs, failed.left.spares hs hop howned, ?_⟩
    rintro _ ⟨⟩
    rw [VeiledFault.opened failed]
    exact owned_empty
  | stops cut => exact ⟨Partial.tracked cut hs, Partial.spares cut hs hop howned, by simp⟩

variable {may : Program (Op ν) Op.Res ε α → Prop}

/-- What the process has left keeps to the names and to files that are its territory's. -/
def AtHome (names : Set ν) (p : Program (Op ν) Op.Res ε α) (s : Volume ν) : Prop :=
  ∃ files, ProgramKeepsTo names (fun _ _ => True) files p ∧ Owned names files s

/-- Processes that keep to the same names spare everything else, all together. -/
theorem relies_atHome (hmay : ∀ p, may p → ProgramKeepsTo names (fun _ _ => True) ∅ p) (s : Volume ν) :
    Crowd.Relies (blind ν) may (fun t => t.Tracked ∧ Spares names s t) (AtHome names) where
  starts p t _ hp := ⟨∅, hmay p hp, owned_empty⟩
  keeps op next t r u := by
    rintro ⟨ht, hspares⟩ ⟨files, ⟨hop, hnext⟩, howned⟩ hdoes
    obtain ⟨hu, hstep, hopened⟩ := spares_does ht hop howned hdoes
    refine ⟨⟨hu, hspares.trans hstep⟩, ?_⟩
    rintro x rfl
    exact ⟨_, hnext x, (howned.spares hstep).union (hopened x rfl)⟩
  stable op next q t r u := by
    rintro ⟨ht, _⟩ ⟨files, ⟨hop, _⟩, howned⟩ ⟨files', hq, howned'⟩ hdoes
    exact ⟨files', hq, howned'.spares (spares_does ht hop howned hdoes).2.1⟩

end Volume

end PosixVolume
