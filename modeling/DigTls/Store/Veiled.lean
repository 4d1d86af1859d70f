import DigTls.Posix.Staging
import DigTls.Store.Outcomes

/-! # Calls whose existence tests may fail

A load and a rotation test for files first and choose by the answers. What they then go on to do tests
for nothing on Unix, so a failing test spoils the choice and nothing after it.
-/
namespace DigTls
open EffectPrograms PosixVolume
variable {B : Backend} {α β : Type} {hidden : Set String} {s t : Volume String} {p : Task α} {f : α → Task β}

abbrev Untested (p : Task α) : Prop := p.Forall (fun op => ∀ path, op ≠ .pathExists path) fun _ => True

theorem Untested.truthful (hp : Untested p) {trace : List (Op String)} {o : Option (Except DigTlsError α)}
    (h : Outcome (veiled hidden) p s trace o t) : Outcome (posix String) p s trace o t :=
  truthful_outcome h (hp.mono fun _ hop path _ => hop path)

theorem Untested.ensures (hp : Untested p) (hidden : Set String)
    {Q : List (Op String) → Option (Except DigTlsError α) → Volume String → Prop}
    (h : Ensures (posix String) p s Q) : Ensures (veiled hidden) p s Q :=
  fun trace o t ho => h trace o t (hp.truthful ho)

theorem Untested.bind (hp : Untested p) (hf : ∀ a, Untested (f a)) : Untested (p >>= f) :=
  Program.Forall.bind hp fun a _ => hf a

theorem untested_call {op : Op String} {back : op.Res → Except IoError α} (hop : ∀ path, op ≠ .pathExists path) :
    Untested (.call op fun r => orFail (back r)) := ⟨hop, fun _ => orFail_forall _⟩

theorem untested_atomicWrite (dest : String) (contents : Bytes) (secret : Secret) :
    Untested (atomicWrite .unix dest contents secret) := by
  have hwrite : ∀ mode, Untested (fsCreate (tmpPath dest) mode >>= fun file => writeAll file contents) :=
    fun mode => Untested.bind (untested_call (by simp)) fun _ => untested_call (by simp)
  have hstage : Untested (stage .unix (tmpPath dest) contents secret) := by
    cases secret with
    | no => exact hwrite _
    | yes =>
      refine Untested.bind (untested_call (by simp)) fun _ => ?_
      exact Untested.bind (untested_call (by simp)) fun _ => untested_call (by simp)
  refine hstage.bind fun _ => Untested.bind (untested_call (by simp)) fun _ => ?_
  refine Untested.bind (untested_call (by simp)) fun _ => ?_
  exact Untested.bind (untested_call (by simp)) fun _ => untested_call (by simp)

theorem untested_ofExcept (x : Except DigTlsError α) : Untested (.ofExcept x) :=
  Program.Forall.ofExcept fun _ _ => trivial

theorem untested_persistFresh (x : NodeCert) : Untested (persistFresh .unix x) := by
  refine Untested.bind (untested_call (by simp)) fun _ => Untested.bind (untested_call (by simp)) fun _ => ?_
  refine (untested_atomicWrite _ _ _).bind fun _ => (untested_atomicWrite _ _ _).bind fun _ => trivial

theorem untested_persistRotation (p x : NodeCert) : Untested (persistRotation .unix p x) := by
  refine Untested.bind (untested_call (by simp)) fun _ => (untested_atomicWrite _ _ _).bind fun _ => ?_
  refine (untested_atomicWrite _ _ _).bind fun _ => (untested_atomicWrite _ _ _).bind fun _ => ?_
  exact (untested_atomicWrite _ _ _).bind fun _ => trivial

theorem untested_loadSlot (slot : Slot) : Untested (loadSlot B slot) := loadSlot_forall (by simp) slot

/-- What is read is what is there, whichever tests fail, and a good answer satisfies `A`. -/
abbrev Looking (hidden : Set String) (s : Volume String) (p : Task α) (A : α → Prop) : Prop :=
  Gives (veiled hidden) (· = s) p s fun a _ => A a

theorem Looking.bind {A : α → Prop} {A' : β → Prop} (h : Looking hidden s p A)
    (next : ∀ a, A a → Looking hidden s (f a) A') : Looking hidden s (p >>= f) A' := by
  refine Gives.bind h ?_
  rintro a _ rfl ha
  exact next a ha

theorem Looking.keeps {I : Volume String → Prop} {A : α → Prop} (h : Looking hidden s p A) (hs : I s) :
    Gives (veiled hidden) I p s fun a t => t = s ∧ A a := by
  refine Ensures.mono h ?_
  rintro trace o t ⟨rfl, hA⟩
  exact ⟨hs, fun a ha => ⟨rfl, hA a ha⟩⟩

/-- A program goes on after a look in the state it was begun in. -/
theorem Looking.gives {I : Volume String → Prop} {A : α → Prop} {A' : β → Volume String → Prop}
    (h : Looking hidden s p A) (hs : I s) (next : ∀ a, A a → Gives (veiled hidden) I (f a) s A') :
    Gives (veiled hidden) I (p >>= f) s A' := by
  refine (h.keeps hs).bind ?_
  rintro a _ _ ⟨rfl, ha⟩
  exact next a ha

/-- The file is not there, or the test for it may fail. -/
def Missed (hidden : Set String) (s : Volume String) (path : String) : Prop :=
  s.contents path = none ∨ path ∈ hidden

/-- A file that is seen is there. -/
def Seen (hidden : Set String) (s : Volume String) (path : String) : Bool → Prop
  | true => s.contents path ≠ none
  | false => Missed hidden s path

theorem looking_pathExists (path : String) : Looking hidden s (pathExists path) (Seen hidden s path) := by
  refine Gives.call ?_ ?_ ?_
  · change Gives _ _ (.done (s.lookup path).isSome) s _
    refine Gives.done rfl ?_
    rw [← Volume.contents_isSome]
    cases hc : s.contents path with
    | none => exact Or.inl hc
    | some bytes => exact Option.ne_none_iff_exists'.mpr ⟨bytes, hc⟩
  · rintro _ _ (⟨⟨⟩⟩ | hpath)
    exact Gives.done rfl (Or.inr hpath)
  · rintro _ ⟨⟩
    rfl

theorem looking_bothExist (slot : Slot) : Looking hidden s (bothExist slot) fun
    | true => s.contents slot.cert ≠ none ∧ s.contents slot.key ≠ none
    | false => Missed hidden s slot.cert ∨ Missed hidden s slot.key := by
  refine (looking_pathExists slot.cert).bind fun b hcert => ?_
  cases b with
  | false => exact Gives.done rfl (Or.inl hcert)
  | true =>
    refine (looking_pathExists slot.key).mono fun b _ _ hkey => ?_
    cases b with
    | false => exact Or.inr hkey
    | true => exact ⟨hcert, hkey⟩

theorem looking_eitherExists (slot : Slot) : Looking hidden s (eitherExists slot) fun
    | true => s.contents slot.cert ≠ none ∨ s.contents slot.key ≠ none
    | false => Missed hidden s slot.cert ∧ Missed hidden s slot.key := by
  refine (looking_pathExists slot.cert).bind fun b hcert => ?_
  cases b with
  | true => exact Gives.done rfl (Or.inl hcert)
  | false =>
    refine (looking_pathExists slot.key).mono fun b _ _ hkey => ?_
    cases b with
    | false => exact ⟨hcert, hkey⟩
    | true => exact Or.inr hkey

theorem looking_loadSlot (slot : Slot) : Looking hidden s (loadSlot B slot) (Holds B s slot) :=
  ((untested_loadSlot slot).ensures hidden reads_loadSlot).mono fun _ _ _ h => h.2

end DigTls
