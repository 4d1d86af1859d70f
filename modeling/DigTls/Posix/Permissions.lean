import DigTls.Effects.Logged
import DigTls.Posix.Durable

/-! # Who may read a file

Permissions matter at every moment, so the volume is taken together with the log of the calls
begun. The parameter `sensitive` says of which bytes it matters where they are written: once such
bytes have been written the directory and the files they went into are to be the owner's alone.
-/
namespace PosixVolume
open EffectPrograms

/-- Neither the group nor others have any permission. -/
def OwnerOnly (mode : Mode) : Prop := mode &&& 0o077#12 = 0

instance (mode : Mode) : Decidable (OwnerOnly mode) := inferInstanceAs (Decidable (_ = _))

abbrev LoggedVolume (ν : Type) := Volume ν × List (Volume ν × Op ν)

namespace Volume
variable {ν : Type}

/-- The directory is there, and only its owner gets into it. -/
def Hardened (s : Volume ν) : Prop := s.present = true ∧ s.dirMode = 0o700#12

def createdMode (s : Volume ν) (path : ν) (mode : Mode) : Mode :=
  match s.lookup path with
  | some i => (s.inode i).mode
  | none => mode &&& ~~~s.umask

/-- What a call in a directory that is there does to modes. -/
structure Modes (op : Op ν) (s t : Volume ν) : Prop where
  present : t.present = true
  next : s.next ≤ t.next
  directory : t.dirMode = s.dirMode ∨ op = .setDirPermissions t.dirMode
  files : ∀ i < s.next, (t.inode i).mode = (s.inode i).mode ∨ ∃ path, op = .setPermissions path (t.inode i).mode

theorem Modes.refl {s : Volume ν} (op : Op ν) (hp : s.present = true) : Modes op s s :=
  ⟨hp, le_rfl, Or.inl rfl, fun _ _ => Or.inl rfl⟩

theorem Modes.refile {s : Volume ν} {file : ℕ} {node : Inode} (op : Op ν) (hp : s.present = true)
    (hmode : node.mode = (s.inode file).mode) : Modes op s (s.refile file node) := by
  refine ⟨hp, le_rfl, Or.inl rfl, fun i _ => Or.inl ?_⟩
  by_cases hi : i = file
  · rw [hi, refile_inode_self, hmode]
  · exact congrArg Inode.mode (Function.update_of_ne hi ..)

theorem Modes.hardened {op : Op ν} {s t : Volume ν} (h : Modes op s t) (hs : s.Hardened)
    (hop : op ≠ .setDirPermissions t.dirMode) : t.Hardened :=
  ⟨h.present, (h.directory.resolve_right hop).trans hs.2⟩

theorem Partial.modes {op : Op ν} {s t : Volume ν} (h : Partial op s t) (hp : s.present = true) :
    Modes op s t := by
  cases h with
  | unchanged => exact .refl op hp
  | wrote file data k => exact .refile _ hp rfl
  | dug =>
    have hsame : ∀ k, s.makePath k = s := fun k => by simp [Volume.makePath, hp]
    rw [hsame]
    exact .refl _ hp

theorem createdMode_of_lookup {s : Volume ν} {path : ν} {mode : Mode} {i : ℕ} (h : s.lookup path = some i) :
    s.createdMode path mode = (s.inode i).mode := by
  rw [createdMode, h]

theorem createdMode_of_none {s : Volume ν} {path : ν} {mode : Mode} (h : s.lookup path = none) :
    s.createdMode path mode = mode &&& ~~~s.umask := by
  rw [createdMode, h]

theorem createdMode_congr {s t : Volume ν} {path : ν} (hl : t.lookup path = s.lookup path)
    (hfile : ∀ i, s.lookup path = some i → t.inode i = s.inode i) (humask : t.umask = s.umask) (mode : Mode) :
    t.createdMode path mode = s.createdMode path mode := by
  cases hs : s.lookup path with
  | none => rw [createdMode_of_none hs, createdMode_of_none (hl.trans hs), humask]
  | some i => rw [createdMode_of_lookup hs, createdMode_of_lookup (hl.trans hs), hfile i hs]

theorem Beside.createdMode {s t : Volume ν} {tmp path : ν} (h : Beside tmp s t) (hs : s.Wf) (hne : path ≠ tmp)
    (mode : Mode) : t.createdMode path mode = s.createdMode path mode := by
  refine createdMode_congr (h.lookup hne) (fun i hi => ?_) ?_ mode
  · have hentry := (lookup_eq_some_iff.mp hi).2
    exact h.files i (hs.fresh path i hentry) fun ht => hne (hs.single path tmp i hentry ht)
  · rw [h.frame]

theorem createdMode_makePath (s : Volume ν) (k : ℕ) (path : ν) (mode : Mode) :
    (s.makePath k).createdMode path mode = s.createdMode path mode := by
  unfold makePath
  split_ifs with hp
  · rfl
  · have hnone : s.lookup path = none := by simp [lookup, hp]
    rw [createdMode_of_none hnone]
    exact createdMode_of_none (by simp [lookup])

variable [DecidableEq ν]

theorem createdMode_create {s : Volume ν} {path : ν} {mode : Mode} {file : ℕ}
    (h : (s.create path mode).1 = .ok file) :
    ((s.create path mode).2.inode file).mode = s.createdMode path mode := by
  unfold create at h ⊢
  unfold createdMode lookup
  split_ifs at h ⊢ with hp
  cases he : s.entry path with
  | some i =>
    simp only [he] at h ⊢
    cases h
    simp
  | none =>
    simp only [he] at h ⊢
    cases h
    change ((s.refile s.next _).inode s.next).mode = _
    rw [refile_inode_self]

theorem modes_run {s : Volume ν} (op : Op ν) (hp : s.present = true) : Modes op s (run op s).2 := by
  cases op with
  | pathExists path => exact .refl _ hp
  | readToString path =>
    simp only [run]
    repeat' split
    all_goals exact .refl _ hp
  | read path =>
    simp only [run]
    split <;> exact .refl _ hp
  | create path mode =>
    simp only [run, create, hp, if_true]
    cases s.entry path with
    | some i => exact .refile _ hp rfl
    | none =>
      refine ⟨hp, Nat.le_succ _, Or.inl rfl, fun i hi => Or.inl ?_⟩
      exact congrArg Inode.mode (Function.update_of_ne (Nat.ne_of_lt hi) ..)
  | writeAll file data => exact .refile _ hp rfl
  | setPermissions path mode =>
    simp only [run]
    cases s.lookup path with
    | none => exact .refl _ hp
    | some file =>
      refine ⟨hp, le_rfl, Or.inl rfl, fun i _ => ?_⟩
      by_cases hi : i = file
      · subst hi
        exact Or.inr ⟨path, by simp⟩
      · exact Or.inl (congrArg Inode.mode (Function.update_of_ne hi ..))
  | openWrite path =>
    simp only [run]
    split <;> exact .refl _ hp
  | syncAll file => exact .refile _ hp rfl
  | rename source target =>
    simp only [run, rename]
    split
    · exact .refl _ hp
    · split_ifs
      · exact .refl _ hp
      · exact ⟨hp, le_rfl, Or.inl rfl, fun _ _ => Or.inl rfl⟩
  | removeFile path =>
    simp only [run, removeFile]
    split
    · exact .refl _ hp
    · exact ⟨hp, le_rfl, Or.inl rfl, fun _ _ => Or.inl rfl⟩
  | createDirAll =>
    have hsame : s.makePath s.depth = s := by simp [Volume.makePath, hp]
    change Modes _ s (s.makePath s.depth)
    rw [hsame]
    exact .refl _ hp
  | setDirPermissions mode =>
    simp only [run, hp, if_true]
    exact ⟨hp, le_rfl, Or.inr rfl, fun _ _ => Or.inl rfl⟩
  | syncDir =>
    simp only [run, hp, if_true]
    exact ⟨hp, le_rfl, Or.inl rfl, fun _ _ => Or.inl rfl⟩

theorem createdMode_moved {s : Volume ν} {source target path : ν} {file : ℕ} (hs : path ≠ source)
    (ht : path ≠ target) (mode : Mode) :
    (s.moved source target file).createdMode path mode = s.createdMode path mode := by
  have hl : (s.moved source target file).lookup path = s.lookup path := by
    rw [moved, lookup_relink_of_ne hs, lookup_relink_of_ne ht]
  exact createdMode_congr hl (fun _ _ => rfl) rfl mode

theorem leads_cases {op : Op ν} {s t : Volume ν} (h : (blind ν).Leads op s t) :
    t = (run op s).2 ∨ Partial op s t := by
  rcases h with h | ⟨r, hf⟩ | ht
  · exact Or.inl h
  · exact Or.inr hf.left
  · exact Or.inr ht

theorem modes_leads {op : Op ν} {s t : Volume ν} (h : (blind ν).Leads op s t) (hp : s.present = true) :
    Modes op s t := by
  rcases leads_cases h with rfl | h
  · exact modes_run op hp
  · exact h.modes hp

theorem tracked_leads {op : Op ν} {s t : Volume ν} (hs : s.Tracked) (h : (blind ν).Leads op s t) :
    t.Tracked := by
  rcases leads_cases h with rfl | h
  · exact hs.run op
  · exact h.tracked hs

end Volume

def Op.Reads {ν : Type} : Op ν → Prop
  | .pathExists _ | .readToString _ | .read _ => True
  | _ => False

theorem leads_reads {ν : Type} [DecidableEq ν] {op : Op ν} {s t : Volume ν} (hop : op.Reads)
    (h : (blind ν).Leads op s t) : t = s := by
  have hrun : (Volume.run op s).2 = s := by
    cases op with
    | pathExists path => rfl
    | readToString path =>
      simp only [Volume.run]
      repeat' split
      all_goals rfl
    | read path =>
      simp only [Volume.run]
      split <;> rfl
    | create | writeAll | setPermissions | openWrite | syncAll | rename | removeFile | createDirAll
      | setDirPermissions | syncDir => exact hop.elim
  rcases Volume.leads_cases h with rfl | hpart
  · exact hrun
  · refine hpart.eq_of_whole ?_
    cases op <;> first | exact hop.elim | trivial

section Sensitive
variable {ν : Type} (sensitive : Bytes → Prop)

/-- In the state `u` sensitive bytes were about to be written into the file. -/
def WrittenIn (x : LoggedVolume ν) (u : Volume ν) (file : ℕ) : Prop :=
  ∃ data, (u, .writeAll file data) ∈ x.2 ∧ sensitive data

/-- Each file of the directory with sensitive bytes is its owner's alone, and the directory has
been so since before the first of them was written. -/
structure Guarded (x : LoggedVolume ν) : Prop where
  files : ∀ u file path, WrittenIn sensitive x u file → x.1.lookup path = some file →
    OwnerOnly (x.1.inode file).mode
  directory : ∀ u file, WrittenIn sensitive x u file → u.Hardened ∧ x.1.Hardened

/-- The invariant behind it: it speaks of files without a name as well. -/
structure Sealed (x : LoggedVolume ν) : Prop where
  tracked : x.1.Tracked
  files : ∀ u file, WrittenIn sensitive x u file → file < x.1.next ∧ OwnerOnly (x.1.inode file).mode
  directory : ∀ u file, WrittenIn sensitive x u file → u.Hardened ∧ x.1.Hardened

/-- The call writes sensitive bytes into owner-only files only, and opens nothing to anyone. -/
def Op.Discreet (s : Volume ν) : Op ν → Prop
  | .writeAll file data => sensitive data → s.Hardened ∧ file < s.next ∧ OwnerOnly (s.inode file).mode
  | .setPermissions _ mode => OwnerOnly mode
  | .setDirPermissions mode => mode = 0o700#12
  | _ => True

def Op.Harmless : Op ν → Prop
  | .writeAll _ _ => False
  | .setPermissions _ mode => OwnerOnly mode
  | .setDirPermissions mode => mode = 0o700#12
  | _ => True

variable {sensitive} {x y : LoggedVolume ν}

theorem Op.Harmless.discreet {op : Op ν} (h : op.Harmless) (s : Volume ν) : op.Discreet sensitive s := by
  cases op with
  | writeAll file data => exact h.elim
  | setPermissions path mode => exact h
  | setDirPermissions mode => exact h
  | pathExists | readToString | read | create | openWrite | syncAll | rename | removeFile | createDirAll
    | syncDir => trivial

theorem Sealed.guarded (h : Sealed sensitive x) : Guarded sensitive x :=
  ⟨fun u file _ hw _ => (h.files u file hw).2, h.directory⟩

theorem sealed_start {s : Volume ν} (hs : s.Tracked) : Sealed sensitive ((s, []) : LoggedVolume ν) :=
  ⟨hs, by simp [WrittenIn], by simp [WrittenIn]⟩

variable [DecidableEq ν]

theorem Sealed.leads {op : Op ν} (h : Sealed sensitive x) (hop : op.Discreet sensitive x.1)
    (hl : (blind ν).logged.Leads op x y) : Sealed sensitive y := by
  obtain ⟨hlead, hlog⟩ := leads_logged hl
  have hbefore : ∀ u file, WrittenIn sensitive y u file →
      u.Hardened ∧ x.1.Hardened ∧ file < x.1.next ∧ OwnerOnly (x.1.inode file).mode := by
    rintro u file ⟨data, hmem, hdata⟩
    rw [hlog] at hmem
    rcases List.mem_append.mp hmem with hmem | hmem
    · have hw : WrittenIn sensitive x u file := ⟨data, hmem, hdata⟩
      obtain ⟨hu, hx⟩ := h.directory u file hw
      exact ⟨hu, hx, h.files u file hw⟩
    · simp only [List.mem_singleton, Prod.mk.injEq] at hmem
      obtain ⟨rfl, rfl⟩ := hmem
      obtain ⟨hx, hfile⟩ := hop hdata
      exact ⟨hx, hx, hfile⟩
  refine ⟨Volume.tracked_leads h.tracked hlead, fun u file hw => ?_, fun u file hw => ?_⟩
  · obtain ⟨_, hx, hlt, hmode⟩ := hbefore u file hw
    have hmodes := Volume.modes_leads hlead hx.1
    refine ⟨lt_of_lt_of_le hlt hmodes.next, ?_⟩
    rcases hmodes.files file hlt with hsame | ⟨path, rfl⟩
    · rw [hsame]
      exact hmode
    · exact hop
  · obtain ⟨hu, hx, _⟩ := hbefore u file hw
    have hmodes := Volume.modes_leads hlead hx.1
    refine ⟨hu, hmodes.present, ?_⟩
    rcases hmodes.directory with hsame | rfl
    · exact hsame.trans hx.2
    · exact hop

/-- However the program goes the invariant holds in the end, and a good answer comes with `A`. -/
abbrev Seals (sensitive : Bytes → Prop) {ε α : Type} (x : LoggedVolume ν) (p : Program (Op ν) Op.Res ε α)
    (A : α → LoggedVolume ν → Prop) : Prop :=
  Gives (blind ν).logged (Sealed sensitive) p x A

theorem keeps_sealed {ε α : Type} {p : Program (Op ν) Op.Res ε α} {A : α → Prop}
    (hp : p.Forall Op.Harmless A) : Keeps (blind ν).logged (Sealed sensitive) p A :=
  keeps_of_leads (fun _ s _ hop hl h => h.leads (hop.discreet s.1) hl) hp

theorem gives_looks {ε α : Type} {p : Program (Op ν) Op.Res ε α} {A : α → Prop} (h : Sealed sensitive x)
    (hp : p.Forall Op.Reads A) :
    Seals sensitive x p fun a y => y.1 = x.1 ∧ A a := by
  have hkeeps : Keeps (blind ν).logged (fun y => y.1 = x.1 ∧ Sealed sensitive y) p A := by
    refine keeps_of_leads (fun op y z hop hl hy => ?_) hp
    refine ⟨(leads_reads hop (leads_logged hl).1).trans hy.1, hy.2.leads ?_ hl⟩
    cases op <;> first | exact hop.elim | trivial
  intro trace o y ho
  obtain ⟨⟨hsame, hy⟩, hA⟩ := hkeeps x ⟨rfl, h⟩ trace o y ho
  exact ⟨hy, fun a ha => ⟨hsame, hA a ha⟩⟩

theorem gives_discreet {ε α : Type} {op : Op ν} {next : op.Res → Program (Op ν) Op.Res ε α}
    {A : α → LoggedVolume ν → Prop} (h : Sealed sensitive x) (hop : op.Discreet sensitive x.1)
    (works : ∀ y, y = ((Volume.run op x.1).2, x.2 ++ [(x.1, op)]) → Sealed sensitive y →
      Seals sensitive y (next (Volume.run op x.1).1) A)
    (fails : ∀ r t, (blind ν).fault op x.1 r t → ∃ e, next r = .raise e) :
    Seals sensitive x (.call op next) A := by
  apply Gives.call
  · exact works _ rfl (h.leads hop (Or.inl rfl))
  · intro r y hf
    obtain ⟨e, he⟩ := fails r y.1 hf.1
    rw [he]
    exact Gives.raise (h.leads hop (Or.inr (Or.inl ⟨r, hf⟩)))
  · exact fun y ht => h.leads hop (Or.inr (Or.inr ht))

end Sensitive
end PosixVolume
