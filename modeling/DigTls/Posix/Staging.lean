import DigTls.Posix.PowerLoss

/-! # Work beside a file

A file is replaced by preparing another one next to it. `Beside tmp s t` says that `s` has
become `t` by calls on the file at `tmp`: all other names, what they led to before and the
files they lead to are as they were. It speaks of inodes and earlier entries, not of contents
only, so it also tells what a loss of power may still do.
-/
namespace PosixVolume
open EffectPrograms

namespace Volume
variable {ν : Type} {s t u : Volume ν} {tmp path q : ν} {i file : ℕ}

/-- Nothing but `tmp` and its file has changed, and that file is the one it was or a new one. -/
structure Beside (tmp : ν) (s t : Volume ν) : Prop where
  frame : t = { s with entry := t.entry, past := t.past, inode := t.inode, next := t.next }
  names : ∀ q, q ≠ tmp → t.entry q = s.entry q ∧ t.past q = s.past q
  files : ∀ i, i < s.next → s.entry tmp ≠ some i → t.inode i = s.inode i
  own : ∀ i, t.entry tmp = some i → s.entry tmp = some i ∨ s.next ≤ i
  next : s.next ≤ t.next

theorem Beside.refl (tmp : ν) (s : Volume ν) : Beside tmp s s :=
  ⟨rfl, fun _ _ => ⟨rfl, rfl⟩, fun _ _ _ => rfl, fun _ => Or.inl, le_rfl⟩

theorem Beside.trans (h : Beside tmp s t) (k : Beside tmp t u) : Beside tmp s u := by
  constructor
  · rw [k.frame, h.frame]
  · intro q hq
    exact ⟨(k.names q hq).1.trans (h.names q hq).1, (k.names q hq).2.trans (h.names q hq).2⟩
  · intro i hi hne
    have hown : t.entry tmp ≠ some i := by
      intro ht
      rcases h.own i ht with hs | hs
      · exact hne hs
      · omega
    exact (k.files i (lt_of_lt_of_le hi h.next) hown).trans (h.files i hi hne)
  · intro i hi
    rcases k.own i hi with ht | ht
    · exact h.own i ht
    · exact Or.inr (h.next.trans ht)
  · exact h.next.trans k.next

theorem Beside.present (h : Beside tmp s t) : t.present = s.present := by
  rw [h.frame]
  rfl

theorem Beside.depth (h : Beside tmp s t) : t.depth = s.depth := by rw [h.frame]
theorem Beside.anchored (h : Beside tmp s t) : t.anchored = s.anchored := by rw [h.frame]

theorem Beside.lookup (h : Beside tmp s t) (hq : q ≠ tmp) : t.lookup q = s.lookup q := by
  rw [Volume.lookup, Volume.lookup, h.present, (h.names q hq).1]

theorem Beside.contents (h : Beside tmp s t) (hs : s.Wf) (hq : q ≠ tmp) : t.contents q = s.contents q := by
  unfold Volume.contents
  rw [h.lookup hq]
  cases hl : s.lookup q with
  | none => rfl
  | some i =>
    have he := (lookup_eq_some_iff.mp hl).2
    have hown : s.entry tmp ≠ some i := fun ht => hq (hs.single q tmp i he ht)
    simp only [Option.map_some]
    rw [h.files i (hs.fresh q i he) hown]

theorem Beside.refile (node : Inode) (h : s.entry tmp = some i) : Beside tmp s (s.refile i node) := by
  refine ⟨rfl, fun _ _ => ⟨rfl, rfl⟩, fun j _ hne => ?_, fun _ => Or.inl, le_rfl⟩
  have hji : j ≠ i := by
    rintro rfl
    exact hne h
  exact Function.update_of_ne hji ..

end Volume

/-- The calls by which a file is prepared, when made on `tmp` or on the file it leads to. -/
def Op.Near {ν : Type} (tmp : ν) (s : Volume ν) : Op ν → Prop
  | .create path _ | .setPermissions path _ | .openWrite path => path = tmp
  | .writeAll file _ | .syncAll file => s.entry tmp = some file
  | _ => False

/-- The same calls, on any file. -/
def Op.Stages {ν : Type} : Op ν → Prop
  | .create _ _ | .setPermissions _ _ | .openWrite _ | .writeAll _ _ | .syncAll _ => True
  | _ => False

namespace Volume
variable {ν : Type} {s t : Volume ν} {tmp path : ν} {op : Op ν} {file : ℕ}

theorem near_stages (h : op.Near tmp s) : op.Stages := by
  cases op <;> first | exact h.elim | trivial

theorem Partial.beside (h : Partial op s t) (hop : op.Near tmp s) : Beside tmp s t := by
  cases h with
  | unchanged => exact .refl tmp s
  | wrote file data k => exact .refile _ hop
  | dug => exact hop.elim

theorem VeiledFault.left {hidden : Set ν} {r : op.Res} (h : VeiledFault hidden op s r t) : Partial op s t := by
  cases h with
  | fault h => exact h.left
  | unseen => exact .unchanged _ _

theorem VeiledFault.mono {hidden shown : Set ν} {r : op.Res} (hsub : hidden ⊆ shown)
    (h : VeiledFault hidden op s r t) : VeiledFault shown op s r t := by
  cases h with
  | fault h => exact .fault h
  | unseen h => exact .unseen (hsub h) s

/-- The answer of a call that has failed, whatever the call. -/
def failing : (op : Op ν) → op.Res
  | .pathExists _ => false
  | .readToString _ | .read _ | .create _ _ | .writeAll _ _ | .setPermissions _ _ | .openWrite _ | .syncAll _
    | .rename _ _ | .removeFile _ | .createDirAll | .setDirPermissions _ | .syncDir => .error (.other "")

theorem veiledFault_failing (op : Op ν) (s : Volume ν) : VeiledFault Set.univ op s (failing op) s := by
  cases op with
  | pathExists path => exact .unseen (Set.mem_univ path) s
  | readToString path => exact .fault (.readToString path s _)
  | read path => exact .fault (.read path s _)
  | create path mode => exact .fault (.create path mode s _)
  | writeAll file data => exact .fault (.writeAll file data s s _ (.unchanged _ s))
  | setPermissions path mode => exact .fault (.setPermissions path mode s _)
  | openWrite path => exact .fault (.openWrite path s _)
  | syncAll file => exact .fault (.syncAll file s _)
  | rename source target => exact .fault (.rename source target s _)
  | removeFile path => exact .fault (.removeFile path s _)
  | createDirAll => exact .fault (.createDirAll s s _ (.unchanged _ s))
  | setDirPermissions mode => exact .fault (.setDirPermissions mode s _)
  | syncDir => exact .fault (.syncDir s _)

variable [DecidableEq ν]

theorem beside_create (mode : Mode) : Beside tmp s (s.create tmp mode).2 := by
  unfold create
  split_ifs
  · cases he : s.entry tmp with
    | some i => exact .refile _ he
    | none =>
      refine ⟨rfl, fun q hq => ⟨?_, ?_⟩, fun i hi _ => ?_, fun i hi => Or.inr ?_, Nat.le_succ _⟩
      · exact Function.update_of_ne hq ..
      · exact Function.update_of_ne hq ..
      · exact Function.update_of_ne (ne_of_lt hi) ..
      · have hnext : some s.next = some i := by simpa using hi
        cases hnext
        exact le_rfl
  · exact .refl tmp s

theorem beside_run (hop : op.Near tmp s) : Beside tmp s (run op s).2 := by
  cases op with
  | create path mode =>
    cases hop
    exact beside_create mode
  | writeAll file data => exact .refile _ hop
  | syncAll file => exact .refile _ hop
  | setPermissions path mode =>
    cases hop
    simp only [run]
    cases hl : s.lookup tmp with
    | none => exact .refl tmp s
    | some i => exact .refile _ (lookup_eq_some_iff.mp hl).2
  | openWrite path =>
    cases hop
    simp only [run]
    cases s.lookup tmp <;> exact .refl tmp s
  | pathExists | readToString | read | rename | removeFile | createDirAll | setDirPermissions | syncDir =>
    exact hop.elim

end Volume

section Programs
variable {ν : Type} [DecidableEq ν] {ε α β : Type} {s t : Volume ν} {tmp : ν}
  {p : Program (Op ν) Op.Res ε α}

/-- What may happen while existence tests are truthful may happen while they may fail. -/
theorem veiled_outcome (hidden : Set ν) {trace : List (Op ν)} {o : Option (Except ε α)}
    (h : Outcome (posix ν) p s trace o t) : Outcome (veiled hidden) p s trace o t :=
  h.transfer p.forall_true (veiled hidden) rfl (fun _ _ _ _ _ hf => .fault hf) fun _ _ _ _ => id

theorem veiled_mono {hidden shown : Set ν} {trace : List (Op ν)} {o : Option (Except ε α)}
    (hsub : hidden ⊆ shown) (h : Outcome (veiled hidden) p s trace o t) :
    Outcome (veiled shown) p s trace o t :=
  h.transfer p.forall_true (veiled shown) rfl (fun _ _ _ _ _ hf => hf.mono hsub) fun _ _ _ _ => id

/-- A program that tests no hidden name sees the volume as it is. -/
theorem truthful_outcome {hidden : Set ν} {trace : List (Op ν)} {o : Option (Except ε α)} {A : α → Prop}
    (h : Outcome (veiled hidden) p s trace o t)
    (hp : p.Forall (fun op => ∀ path ∈ hidden, op ≠ .pathExists path) A) :
    Outcome (posix ν) p s trace o t := by
  refine h.transfer hp (posix ν) rfl (fun op s r t hop hf => ?_) fun _ _ _ _ => id
  cases hf with
  | fault hf => exact hf
  | unseen hpath => exact absurd rfl (hop _ hpath)

/-- The volume whose tests are truthful is the one that hides nothing. -/
theorem veiled_none {trace : List (Op ν)} {o : Option (Except ε α)} :
    Outcome (veiled (∅ : Set ν)) p s trace o t ↔ Outcome (posix ν) p s trace o t :=
  ⟨fun h => truthful_outcome h (p.forall_true.mono fun _ _ _ => False.elim), veiled_outcome ∅⟩

theorem wf_veiled {hidden : Set ν} {trace : List (Op ν)} {o : Option (Except ε α)} (hs : s.Wf)
    (h : Outcome (veiled hidden) p s trace o t) : t.Wf := by
  have hkeeps := keeps_all (M := veiled hidden) (I := Volume.Wf) (fun op _ h => h.run op)
    (fun _ _ _ _ hf => hf.left.wf) (fun _ _ _ ht => ht.wf) p
  exact (hkeeps s hs trace o t h).1

theorem tracked_veiled {hidden : Set ν} {trace : List (Op ν)} {o : Option (Except ε α)} (hs : s.Tracked)
    (h : Outcome (veiled hidden) p s trace o t) : t.Tracked := by
  have hkeeps := keeps_all (M := veiled hidden) (I := Volume.Tracked) (fun op _ h => h.run op)
    (fun _ _ _ _ hf => hf.left.tracked) (fun _ _ _ ht => ht.tracked) p
  exact (hkeeps s hs trace o t h).1

theorem ensures_tracked {hidden : Set ν} (hs : s.Tracked) : Ensures (veiled hidden) p s fun _ _ t => t.Tracked :=
  fun _ _ _ h => tracked_veiled hs h

/-- What holds whatever the existence tests answer holds of every volume. -/
theorem ensures_veiled {Q : List (Op ν) → Option (Except ε α) → Volume ν → Prop} (hidden : Set ν)
    (h : Ensures (blind ν) p s Q) : Ensures (veiled hidden) p s Q :=
  fun trace o t ho => h trace o t (veiled_mono (Set.subset_univ hidden) ho)

theorem ensures_truthful {Q : List (Op ν) → Option (Except ε α) → Volume ν → Prop}
    (h : Ensures (blind ν) p s Q) : Ensures (posix ν) p s Q :=
  fun trace o t ho => h trace o t (veiled_outcome Set.univ ho)

/-- The program works beside the other files, and a good answer comes with `A`. -/
def Prepares (tmp : ν) (s : Volume ν) (p : Program (Op ν) Op.Res ε α) (A : α → Volume ν → Prop) : Prop :=
  Ensures (blind ν) p s fun trace o t =>
    (∀ op ∈ trace, op.Stages) ∧ Volume.Beside tmp s t ∧ ∀ a, o = some (.ok a) → A a t

theorem Prepares.mono {A A' : α → Volume ν → Prop} (h : Prepares tmp s p A)
    (haa : ∀ a t, Volume.Beside tmp s t → A a t → A' a t) : Prepares tmp s p A' :=
  Ensures.mono h fun _ _ t ⟨hops, hb, hA⟩ => ⟨hops, hb, fun a ha => haa a t hb (hA a ha)⟩

theorem Prepares.done {a : α} {A : α → Volume ν → Prop} (h : A a s) :
    Prepares tmp s (.done a : Program (Op ν) Op.Res ε α) A :=
  Ensures.done ⟨by simp, .refl tmp s, by rintro _ ⟨⟩; exact h⟩

theorem Prepares.raise {e : ε} {A : α → Volume ν → Prop} :
    Prepares tmp s (.raise e : Program (Op ν) Op.Res ε α) A :=
  Ensures.raise ⟨by simp, .refl tmp s, by simp⟩

theorem Prepares.bind {f : α → Program (Op ν) Op.Res ε β} {A : α → Volume ν → Prop}
    {A' : β → Volume ν → Prop} (h : Prepares tmp s p A)
    (next : ∀ a t, Volume.Beside tmp s t → A a t → Prepares tmp t (f a) A') :
    Prepares tmp s (p >>= f) A' := by
  refine Ensures.bind (Ensures.mono h ?_)
  rintro trace o t ⟨hops, hb, hA⟩
  rcases o with _ | e | a
  · exact ⟨hops, hb, by simp⟩
  · exact ⟨hops, hb, by simp⟩
  · refine Ensures.mono (next a t hb (hA a rfl)) ?_
    rintro trace' o' u ⟨hops', hb', hA'⟩
    exact ⟨List.forall_mem_append.mpr ⟨hops, hops'⟩, hb.trans hb', hA'⟩

theorem Prepares.call {op : Op ν} {next : op.Res → Program (Op ν) Op.Res ε α} {A : α → Volume ν → Prop}
    (hop : op.Near tmp s)
    (works : Prepares tmp (Volume.run op s).2 (next (Volume.run op s).1) A)
    (fails : ∀ r u, Volume.VeiledFault Set.univ op s r u → ∃ e, next r = .raise e) :
    Prepares tmp s (.call op next) A := by
  apply Ensures.call
  · change Ensures _ (next (Volume.run op s).1) (Volume.run op s).2 _
    refine Ensures.mono works ?_
    rintro trace o t ⟨hops, hb, hA⟩
    exact ⟨List.forall_mem_cons.mpr ⟨Volume.near_stages hop, hops⟩, (Volume.beside_run hop).trans hb, hA⟩
  · intro r u hf
    obtain ⟨e, he⟩ := fails r u hf
    rw [he]
    exact Ensures.raise ⟨by simp, hf.left.beside hop, by simp⟩
  · intro t ht
    exact ⟨by simp, ht.beside hop, by simp⟩

end Programs
end PosixVolume
