import DigTls.Effects.Births
import DigTls.Store.Confinement
import DigTls.Store.Recovery

/-! # Identities in the order they were minted

What is in a slot file has been minted by some call of the directory's history, and the retiring slot is
copied from the current one. Neither failures nor cuts bring back an identity once it is superseded.
-/
namespace DigTls
open EffectPrograms PosixVolume
variable {B : Backend} {os : Platform} {hidden : Set String} {a b : Slots} {c k f g : SlotFile} {s t : Volume String}

/-- The current file that a file is a copy of. -/
def SlotFile.root : SlotFile → SlotFile
  | .cert | .certPrev => .cert
  | .key | .keyPrev => .key

def SlotFile.text (f : SlotFile) (x : NodeCert) : String :=
  match f with
  | .cert | .certPrev => x.certPem
  | .key | .keyPrev => x.keyPem

theorem SlotFile.root_root (f : SlotFile) : f.root.root = f.root := by cases f <;> rfl
theorem SlotFile.text_root (f : SlotFile) (x : NodeCert) : f.root.text x = f.text x := by cases f <;> rfl

def Reply.former : Reply → Option NodeCert
  | .rotated r => some r.previous
  | .previous x => x
  | .node _ | .retired => none

/-- What the call mints, if it comes to that. -/
def Call.Mints (c : Call B) (x : NodeCert) : Prop := ∃ m, c.minting = some m ∧ NodeCert.generateSigned B m = .ok x

def Call.Makes (c : Call B) (f : SlotFile) (bytes : Bytes) : Prop := ∃ x, c.Mints x ∧ bytes = asBytes (f.text x)

abbrev CallMade (B : Backend) : Type := Call B × Option (Except DigTlsError Reply)

def MintedAt (calls : List (CallMade B)) (k : ℕ) (x : NodeCert) : Prop := ∃ l, calls[k]? = some l ∧ l.1.Mints x

def FreshKeys (calls : List (CallMade B)) : Prop :=
  ∀ k n x y, MintedAt calls k x → MintedAt calls n y → x.spkiDer = y.spkiDer → k = n

def TellsCurrent (calls : List (CallMade B)) (i : ℕ) (x : NodeCert) : Prop :=
  ∃ c r, calls[i]? = some (c, some (.ok r)) ∧ r.current = some x

def TellsFormer (calls : List (CallMade B)) (i : ℕ) (x : NodeCert) : Prop :=
  ∃ c r, calls[i]? = some (c, some (.ok r)) ∧ r.former = some x

def Tells (calls : List (CallMade B)) (i : ℕ) (x : NodeCert) : Prop := TellsCurrent calls i x ∨ TellsFormer calls i x

def Call.MayPut (c : Call B) (a : Slots) (f : SlotFile) (bytes : Bytes) : Prop :=
  a.contents f = some bytes ∨ a.contents f.root = some bytes ∨ f.root = f ∧ c.Makes f bytes

def SlotOp.Within (c : Call B) (a : Slots) : SlotOp → Prop
  | .put f contents => c.MayPut a f contents
  | _ => True

/-- Each file holds something the call may have put there. -/
abbrev Turned (c : Call B) (a b : Slots) : Prop := ∀ f bytes, b.contents f = some bytes → c.MayPut a f bytes

namespace Slots

theorem contents_set_cases {contents : Option Bytes} {bytes : Bytes} (h : (a.set f contents).contents g = some bytes) :
    g = f ∧ contents = some bytes ∨ a.contents g = some bytes := by
  by_cases hg : g = f
  · subst hg
    cases hfiles : a.files with
    | none =>
      rw [set_eq_self hfiles] at h
      exact Or.inr h
    | some files =>
      rw [contents_set_self (by simp [hfiles])] at h
      exact Or.inl ⟨rfl, h⟩
  · rw [contents_set_of_ne hg] at h
    exact Or.inr h

end Slots

theorem Turned.set {call : Call B} (h : Turned call a b) {contents : Option Bytes}
    (hput : ∀ bytes, contents = some bytes → call.MayPut a f bytes) : Turned call a (b.set f contents) := by
  intro g bytes hg
  rcases Slots.contents_set_cases hg with ⟨rfl, hbytes⟩ | hold
  · exact hput bytes hbytes
  · exact h g bytes hold

theorem keeps_turned {call : Call B} {α : Type} {p : SlotTask α} {A : α → Prop}
    (hp : p.Forall (SlotOp.Within call a) A) : Keeps (slots os hidden) (Turned call a ·) p A := by
  refine keeps_slots (fun f contents b hop hb => ?_) (fun f b _ hb => ?_) (fun b hb => ?_) hp
  · exact ⟨Turned.set hb fun _ h => Option.some.inj h ▸ hop, Turned.set hb (by simp)⟩
  · exact Turned.set hb (by simp)
  · intro g bytes hg
    rw [Slots.contents_made] at hg
    exact hb g bytes hg

theorem gives_turned {call : Call B} {α : Type} {p : SlotTask α} {A : α → Prop}
    (hp : p.Forall (SlotOp.Within call a) A) (h : Turned call a b) :
    Gives (slots os hidden) (Turned call a ·) p b fun x _ => A x := keeps_turned hp b h

theorem Slots.contents_of_text {text : String} (h : textOf (a.contents f) = .ok text) :
    a.contents f = some (asBytes text) := by
  cases hf : a.contents f with
  | none => simp [hf, textOf] at h
  | some bytes =>
    cases htext : fromUtf8 bytes with
    | none => simp [hf, textOf, htext] at h
    | some text' =>
      simp only [hf, textOf, htext, Except.ok.injEq] at h
      rw [← h, fromUtf8_eq_some htext]

theorem Slots.pair_eq_ok {x : NodeCert} (h : a.pair B c k = .ok x) :
    a.contents c = some (asBytes x.certPem) ∧ a.contents k = some (asBytes x.keyPem) ∧
      NodeCert.fromPem B x.certPem x.keyPem = .ok x := by
  obtain ⟨certPem, hcert, h⟩ := bind_eq_ok.mp h
  obtain ⟨keyPem, hkey, h⟩ := bind_eq_ok.mp h
  obtain ⟨rfl, rfl⟩ := NodeCert.fromPem_ok h
  exact ⟨contents_of_text hcert, contents_of_text hkey, h⟩

/-- Where the answered identities come from, and where their certificates then are. -/
structure Told (call : Call B) (a : Slots) (r : Reply) (b : Slots) : Prop where
  current : ∀ x, r.current = some x → b.contents .cert = some (asBytes x.certPem) ∧
    (a.pair B .cert .key = .ok x ∨ call.Mints x)
  former : ∀ x, r.former = some x → b.contents .certPrev = some (asBytes x.certPem) ∧
    (a.pair B .cert .key = .ok x ∨ a.pair B .certPrev .keyPrev = .ok x)

section Puts
open SlotTask
variable {call : Call B} {α : Type} {A : α → Slots → Prop}

theorem put_turned {contents : Bytes} {q : SlotTask α} (h : Turned call a b) (hput : call.MayPut a f contents)
    (next : b.files.isSome → Turned call a (b.set f (some contents)) →
      Gives (slots os hidden) (Turned call a ·) q (b.set f (some contents)) A) :
    Gives (slots os hidden) (Turned call a ·) (put f contents >>= fun _ => q) b A := by
  have hset : ∀ v : Option Bytes, (∀ bytes, v = some bytes → contents = bytes) → Turned call a (b.set f v) :=
    fun v hv => h.set fun bytes hbytes => hv bytes hbytes ▸ hput
  have hfalls : ∀ d, Falls os (.put f contents) b d → Turned call a d := by
    intro d hleft
    cases hleft with
    | kept => exact h
    | replaced => exact hset _ fun _ => Option.some.inj
    | removed => exact hset none (by simp)
  refine Gives.bind (A := fun _ d => b.files.isSome ∧ d = b.set f (some contents)) ?_ ?_
  · refine Gives.call ?_ ?_ hfalls
    · change Gives (slots os hidden) (Turned call a ·) (.ofExcept b.answer) (b.set f (some contents)) _
      rw [Slots.answer]
      split_ifs with hfiles
      · exact Gives.done (hset _ fun _ => Option.some.inj) ⟨hfiles, rfl⟩
      · exact Gives.raise (hset _ fun _ => Option.some.inj)
    · intro r d hfault
      cases hfault with
      | put e left => exact Gives.raise (hfalls d left)
  · rintro _ d hd ⟨hfiles, rfl⟩
    exact next hfiles hd

theorem Call.Mints.mayPut {x : NodeCert} (h : call.Mints x) (hf : f.root = f) :
    call.MayPut a f (asBytes (f.text x)) := Or.inr (Or.inr ⟨hf, x, h, rfl⟩)

theorem persistFresh_turned {x : NodeCert} (h : Turned call a b) (hx : call.Mints x) :
    Gives (slots os hidden) (Turned call a ·) (SlotTask.persistFresh x) b fun y d =>
      y = x ∧ d.contents .cert = some (asBytes x.certPem) := by
  have hfirst : ∀ op : SlotOp, op.Within call a → ∀ back : op.Res → Except DigTlsError Unit,
      (.call op fun r => .ofExcept (back r) : SlotTask Unit).Forall (SlotOp.Within call a) fun _ => True :=
    fun op hop back => ⟨hop, fun _ => Program.Forall.ofExcept fun _ _ => trivial⟩
  refine (gives_turned (hfirst .makeDir trivial id) h).bind fun _ b₁ h₁ _ => ?_
  refine (gives_turned (hfirst .harden trivial id) h₁).bind fun _ b₂ h₂ _ => ?_
  refine put_turned h₂ (hx.mayPut rfl) fun hfiles h₃ => put_turned h₃ (hx.mayPut rfl) fun _ h₄ => ?_
  refine Gives.done h₄ ⟨rfl, ?_⟩
  rw [Slots.contents_set_of_ne (by decide), Slots.contents_set_self hfiles]

theorem persistRotation_turned {p x : NodeCert} (h : Turned call a b) (hp : a.pair B .cert .key = .ok p)
    (hx : call.Mints x) : Gives (slots os hidden) (Turned call a ·) (SlotTask.persistRotation p x) b fun y d =>
      y = ⟨p, x⟩ ∧ d.contents .cert = some (asBytes x.certPem) ∧ d.contents .certPrev = some (asBytes p.certPem) := by
  obtain ⟨hcert, hkey, _⟩ := Slots.pair_eq_ok hp
  have hharden : SlotTask.harden.Forall (SlotOp.Within call a) fun _ => True :=
    ⟨trivial, fun _ => Program.Forall.ofExcept fun _ _ => trivial⟩
  refine (gives_turned hharden h).bind fun _ b₁ h₁ _ => ?_
  refine put_turned h₁ (Or.inr (Or.inl hcert)) fun hfiles h₂ => ?_
  refine put_turned h₂ (Or.inr (Or.inl hkey)) fun _ h₃ => ?_
  refine put_turned h₃ (hx.mayPut rfl) fun hfiles' h₄ => put_turned h₄ (hx.mayPut rfl) fun _ h₅ => ?_
  refine Gives.done h₅ ⟨rfl, ?_, ?_⟩
  · rw [Slots.contents_set_of_ne (by decide), Slots.contents_set_self hfiles']
  · rw [Slots.contents_set_of_ne (by decide), Slots.contents_set_of_ne (by decide),
      Slots.contents_set_of_ne (by decide), Slots.contents_set_self hfiles]

end Puts

theorem Reading.turned {call : Call B} {α : Type} {p : SlotTask α} {A : α → Prop} (h : Reading os hidden a p A) :
    Gives (slots os hidden) (Turned call a ·) p a fun x b => A x ∧ b = a := by
  refine Ensures.mono h ?_
  rintro trace o b ⟨rfl, hA⟩
  exact ⟨fun f bytes hf => Or.inl hf, fun x hx => ⟨hA x hx, rfl⟩⟩

/-- Whatever comes of a call, each file holds what the call may have put there, and an answer tells where
its identities come from. -/
theorem gives_told (call : Call B) (a : Slots) :
    Gives (slots os hidden) (Turned call a ·) call.onSlots a fun r b => Told call a r b := by
  have hminted : ∀ m, call.minting = some m →
      Reading os hidden a (.ofExcept (NodeCert.generateSigned B m)) fun x => call.Mints x :=
    fun m hm => gives_ofExcept fun x hx => ⟨m, hm, hx⟩
  cases call with
  | loadOrGenerate m =>
    refine Gives.bind (A := fun x b => b.contents .cert = some (asBytes x.certPem) ∧
      (a.pair B .cert .key = .ok x ∨ (Call.loadOrGenerate m).Mints x)) ?_ ?_
    · refine (Reading.turned gives_bothThere).bind ?_
      rintro x _ h ⟨-, rfl⟩
      cases x with
      | true =>
        refine (Reading.turned gives_load).mono ?_
        rintro node _ - ⟨hnode, rfl⟩
        exact ⟨(Slots.pair_eq_ok hnode).1, Or.inl hnode⟩
      | false =>
        refine (Reading.turned (hminted m rfl)).bind ?_
        rintro x _ h ⟨hx, rfl⟩
        refine (persistFresh_turned h hx).mono ?_
        rintro _ d - ⟨rfl, hcert⟩
        exact ⟨hcert, Or.inr hx⟩
    · rintro x b h ⟨hcert, hfrom⟩
      refine Gives.done h ⟨?_, ?_⟩
      · rintro _ ⟨⟩
        exact ⟨hcert, hfrom⟩
      · rintro _ ⟨⟩
  | rotate m =>
    refine Gives.bind (A := fun r b => b.contents .cert = some (asBytes r.current.certPem) ∧
      b.contents .certPrev = some (asBytes r.previous.certPem) ∧ a.pair B .cert .key = .ok r.previous ∧
      (Call.rotate m).Mints r.current) ?_ ?_
    · refine (Reading.turned gives_bothThere).bind ?_
      rintro x _ h ⟨-, rfl⟩
      cases x with
      | false => exact Gives.raise h
      | true =>
        refine (Reading.turned gives_eitherThere).bind ?_
        rintro x _ h ⟨-, rfl⟩
        cases x with
        | true => exact Gives.raise h
        | false =>
          refine (Reading.turned gives_load).bind ?_
          rintro p _ h ⟨hp, rfl⟩
          refine (Reading.turned (hminted m rfl)).bind ?_
          rintro x _ h ⟨hx, rfl⟩
          refine (persistRotation_turned h hp hx).mono ?_
          rintro _ d - ⟨rfl, hcert, hprev⟩
          exact ⟨hcert, hprev, hp, hx⟩
    · rintro r b h ⟨hcert, hprev, hp, hx⟩
      refine Gives.done h ⟨?_, ?_⟩
      · rintro _ ⟨⟩
        exact ⟨hcert, Or.inr hx⟩
      · rintro _ ⟨⟩
        exact ⟨hprev, Or.inl hp⟩
  | loadPrevious =>
    have hread : Reading os hidden a (SlotTask.loadPrevious B) fun x =>
        ∀ node, x = some node → a.pair B .certPrev .keyPrev = .ok node := by
      refine Reading.bind gives_bothThere fun x _ => ?_
      cases x with
      | true =>
        refine Reading.bind gives_load fun node hnode => Gives.done rfl ?_
        rintro _ ⟨⟩
        exact hnode
      | false => exact Gives.done rfl (by simp)
    refine (Reading.turned hread).bind ?_
    rintro x _ h ⟨hx, rfl⟩
    refine Gives.done h ⟨by simp [Reply.current], ?_⟩
    rintro node hnode
    exact ⟨(Slots.pair_eq_ok (hx node hnode)).1, Or.inr (hx node hnode)⟩
  | retirePrevious =>
    have hretire : SlotTask.retirePrevious.Forall (SlotOp.Within (B := B) .retirePrevious a) fun _ => True :=
      retirePrevious_slots (fun _ => trivial) (fun _ => trivial) trivial trivial
    refine (gives_turned hretire fun f bytes hf => Or.inl hf).bind fun _ b h _ => ?_
    exact Gives.done h ⟨by simp [Reply.current], by simp [Reply.former]⟩

section Histories
variable {calls : List (CallMade B)} {ks : List (Slots × CallMade B)} {i j n m : ℕ} {x y z : NodeCert}

abbrev MadeBy (l : CallMade B) (f : SlotFile) (bytes : Bytes) : Prop := l.1.Makes f bytes

theorem SlotsStep.turns {l : CallMade B} (h : SlotsStep os hidden a l b) :
    Turns Slots.contents SlotFile.root MadeBy a l b := by
  obtain ⟨trace, h⟩ := h
  exact (gives_told l.1 a trace l.2 b h).1

theorem SlotsStep.told {l : CallMade B} {r : Reply} (h : SlotsStep os hidden a l b) (hr : l.2 = some (.ok r)) :
    Told l.1 a r b := by
  obtain ⟨trace, h⟩ := h
  exact (gives_told l.1 a trace l.2 b h).2 r hr

theorem MintedAt.unique (hx : MintedAt calls m x) (hy : MintedAt calls m y) : x = y := by
  obtain ⟨l, hl, m₁, hm₁, hx⟩ := hx
  obtain ⟨l', hl', m₂, hm₂, hy⟩ := hy
  cases hl.symm.trans hl'
  cases hm₁.symm.trans hm₂
  cases hx.symm.trans hy
  rfl

theorem MintedAt.of_append {more : List (CallMade B)} (h : MintedAt calls n x) : MintedAt (calls ++ more) n x := by
  obtain ⟨l, hl, hx⟩ := h
  refine ⟨l, ?_, hx⟩
  rw [List.getElem?_append_left (List.getElem?_eq_some_iff.mp hl).1]
  exact hl

theorem FreshKeys.of_append {more : List (CallMade B)} (h : FreshKeys (calls ++ more)) : FreshKeys calls :=
  fun k n x y hx hy => h k n x y hx.of_append hy.of_append

theorem born_iff {bytes : Bytes} : Born SlotFile.root MadeBy ks f bytes n ↔
    ∃ x, MintedAt (ks.map Prod.snd) n x ∧ bytes = asBytes (f.text x) := by
  constructor
  · rintro ⟨l, hl, x, hx, rfl⟩
    exact ⟨x, ⟨l.2, by simp [hl], hx⟩, by rw [SlotFile.text_root]⟩
  · rintro ⟨x, ⟨l, hl, hx⟩, rfl⟩
    rw [List.getElem?_map, Option.map_eq_some_iff] at hl
    obtain ⟨l', hl', rfl⟩ := hl
    exact ⟨l', hl', x, hx, by rw [SlotFile.text_root]⟩

theorem Tells.answer (h : Tells (ks.map Prod.snd) i x) : ∃ u call r, ks[i]? = some (u, call, some (.ok r)) ∧
    (r.current = some x ∨ r.former = some x) := by
  have hplace : ∀ {call : Call B} {r : Reply}, (ks.map Prod.snd)[i]? = some (call, some (.ok r)) →
      ∃ u, ks[i]? = some (u, call, some (.ok r)) := by
    intro call r hi
    rw [List.getElem?_map, Option.map_eq_some_iff] at hi
    obtain ⟨⟨u, l⟩, hi, rfl⟩ := hi
    exact ⟨u, hi⟩
  rcases h with ⟨call, r, hi, hr⟩ | ⟨call, r, hi, hr⟩
  · obtain ⟨u, hi⟩ := hplace hi
    exact ⟨u, call, r, hi, Or.inl hr⟩
  · obtain ⟨u, hi⟩ := hplace hi
    exact ⟨u, call, r, hi, Or.inr hr⟩

theorem born_of_minted (h : MintedAt (ks.map Prod.snd) n x) (f : SlotFile) :
    Born SlotFile.root MadeBy ks f (asBytes (f.text x)) n := born_iff.mpr ⟨x, h, rfl⟩

theorem spki_of_text (hx : NodeCert.fromPem B x.certPem x.keyPem = .ok x)
    (hy : NodeCert.fromPem B y.certPem y.keyPem = .ok y) (hsame : f.text x = f.text y) : x.spkiDer = y.spkiDer := by
  by_contra hne
  have hmixed := NodeCert.fromPem_mixed hx hy hne
  have hmixed' := NodeCert.fromPem_mixed hy hx (Ne.symm hne)
  have hcases : x.certPem = y.certPem ∨ x.keyPem = y.keyPem := by
    cases f with
    | cert | certPrev => exact Or.inl hsame
    | key | keyPrev => exact Or.inr hsame
  rcases hcases with hcert | hkey
  · rw [hcert, hy] at hmixed
    cases hmixed
  · rw [← hkey, hx] at hmixed
    cases hmixed

variable (hread : KeysReadBack B)
include hread

theorem MintedAt.reads (h : MintedAt calls n x) : NodeCert.fromPem B x.certPem x.keyPem = .ok x := by
  obtain ⟨l, _, m, _, hx⟩ := h
  exact NodeCert.fromPem_generated hread hx

theorem madeOnce_of_fresh (hfresh : FreshKeys (ks.map Prod.snd)) : MadeOnce SlotFile.root MadeBy ks := by
  intro f bytes k n hk hn
  obtain ⟨x, hx, rfl⟩ := born_iff.mp hk
  obtain ⟨y, hy, htext⟩ := born_iff.mp hn
  exact hfresh k n x y hx hy (spki_of_text (hx.reads hread) (hy.reads hread) (asBytes_injective htext))

/-- A pair that is loaded has been minted as it is. -/
theorem loaded_minted (h : Aged Slots.contents SlotFile.root MadeBy ks a) (hfresh : FreshKeys (ks.map Prod.snd))
    (hc : c.root = .cert) (hk : k.root = .key) (hx : a.pair B c k = .ok x) :
    ∃ n < ks.length, MintedAt (ks.map Prod.snd) n x := by
  obtain ⟨hcert, hkey, hpem⟩ := Slots.pair_eq_ok hx
  obtain ⟨n, hn⟩ := h.born c _ hcert
  obtain ⟨m, hm⟩ := h.born k _ hkey
  obtain ⟨y, hy, hcertText⟩ := born_iff.mp hn
  obtain ⟨z, hz, hkeyText⟩ := born_iff.mp hm
  have hcertPem : x.certPem = y.certPem := by
    rw [← SlotFile.text_root, hc] at hcertText
    exact asBytes_injective hcertText
  have hkeyPem : x.keyPem = z.keyPem := by
    rw [← SlotFile.text_root, hk] at hkeyText
    exact asBytes_injective hkeyText
  have hsame : y.spkiDer = z.spkiDer := by
    by_contra hne
    have hmixed := NodeCert.fromPem_mixed (hy.reads hread) (hz.reads hread) hne
    rw [← hcertPem, ← hkeyPem, hpem] at hmixed
    cases hmixed
  obtain rfl := hfresh n m y z hy hz hsame
  obtain rfl := hy.unique hz
  have hxy : x = y := by
    rw [hcertPem, hkeyPem, hy.reads hread] at hpem
    exact (Except.ok.inj hpem).symm
  exact ⟨n, hn.lt_length, hxy ▸ hy⟩

variable (hempty : ∀ f, a.contents f = none) (hfresh : FreshKeys (ks.map Prod.snd))
include hempty hfresh

theorem minted_by_then (hrun : History (SlotsStep os hidden) a ks b)
    (hx : Tells (ks.map Prod.snd) i x) : ∃ n ≤ i, MintedAt (ks.map Prod.snd) n x := by
  obtain ⟨u, call, r, hi, hr⟩ := hx.answer
  obtain ⟨v, hbefore, hstep, _⟩ := hrun.at_place hi
  have hcalls : ks.map Prod.snd = (ks.take i).map Prod.snd ++ (ks.drop i).map Prod.snd := by
    rw [← List.map_append, List.take_append_drop]
  rw [hcalls] at hfresh ⊢
  have haged : Aged Slots.contents SlotFile.root MadeBy (ks.take i) u :=
    aged_run SlotFile.root_root hbefore (fun _ _ _ h => h.turns) hempty (madeOnce_of_fresh hread hfresh.of_append)
  have hloaded : ∀ c k : SlotFile, c.root = .cert → k.root = .key → u.pair B c k = .ok x →
      ∃ n ≤ i, MintedAt ((ks.take i).map Prod.snd ++ (ks.drop i).map Prod.snd) n x := by
    intro c k hc hk hpair
    obtain ⟨n, hn, hminted⟩ := loaded_minted hread haged hfresh.of_append hc hk hpair
    rw [List.length_take] at hn
    exact ⟨n, by omega, hminted.of_append⟩
  have htold := hstep.told rfl
  rcases hr with hr | hr
  · rcases (htold.current x hr).2 with hpair | hmints
    · exact hloaded .cert .key rfl rfl hpair
    · exact ⟨i, le_rfl, _, hcalls ▸ by simp [hi], hmints⟩
  · rcases (htold.former x hr).2 with hpair | hpair
    · exact hloaded .cert .key rfl rfl hpair
    · exact hloaded .certPrev .keyPrev rfl rfl hpair

theorem minted_in_order (hrun : History (SlotsStep os hidden) a ks b) (hij : i < j)
    (hx : Tells (ks.map Prod.snd) i x) (hy : TellsCurrent (ks.map Prod.snd) j y) (hm : MintedAt (ks.map Prod.snd) m x)
    (hn : MintedAt (ks.map Prod.snd) n y) : m ≤ n := by
  have hmi : m ≤ i := by
    obtain ⟨k, hk, hminted⟩ := minted_by_then hread hempty hfresh hrun hx
    rw [hfresh m k x x hm hminted rfl]
    exact hk
  obtain ⟨call, r, hj, hr⟩ := hy
  have hplace := hj
  rw [List.getElem?_map, Option.map_eq_some_iff] at hj
  obtain ⟨⟨w, l⟩, hj, rfl⟩ := hj
  obtain ⟨_, _, hlast, _⟩ := hrun.at_place hj
  rcases ((hlast.told rfl).current y hr).2 with hpair | hmints
  · obtain ⟨hcert, _, _⟩ := Slots.pair_eq_ok hpair
    have hbound : j < ks.length := (List.getElem?_eq_some_iff.mp hj).1
    obtain ⟨v, l', hnext⟩ : ∃ v l', ks[i + 1]? = some (v, l') :=
      ⟨_, _, List.getElem?_eq_getElem (by omega)⟩
    have hheld : ∃ f : SlotFile, f.root = .cert ∧ v.contents f = some (asBytes (f.text x)) := by
      obtain ⟨u, call, r, hi, hr⟩ := hx.answer
      have htold := (hrun.follows hi hnext).told rfl
      rcases hr with hr | hr
      · exact ⟨.cert, rfl, (htold.current x hr).1⟩
      · exact ⟨.certPrev, rfl, (htold.former x hr).1⟩
    obtain ⟨f, hroot, hf⟩ := hheld
    have hfile : w.contents f.root = some (asBytes (f.text y)) := by
      rw [← SlotFile.text_root, hroot]
      exact hcert
    exact root_never_behind SlotFile.root_root hrun (fun _ _ _ h => h.turns) hempty
      (madeOnce_of_fresh hread hfresh) hnext hij hj hf hfile (born_of_minted hm f) (born_of_minted hn f)
  · have hnow : n = j := hfresh n j y y hn ⟨_, hplace, hmints⟩ rfl
    omega

omit hempty hfresh in
theorem answered_minted {ls : List (Volume String × CallMade B)} (hs : s.Tracked)
    (hvacant : ∀ f : SlotFile, s.contents f.path = none) (hrun : History (DirectoryStep os hidden) s ls t)
    (hfresh : FreshKeys (ls.map Prod.snd)) (hx : Tells (ls.map Prod.snd) i x) :
    ∃ n ≤ i, MintedAt (ls.map Prod.snd) n x := by
  obtain ⟨ks, hks, hcalls⟩ := run_onSlots hs hrun
  rw [← hcalls] at hfresh hx ⊢
  exact minted_by_then hread (fun f => by simpa using hvacant f) hfresh hks hx

omit hempty hfresh in
/-- From a directory without slot files, on either platform, whatever fails or is cut: every identity that a
call answers with has been minted, as it is, by that call or one before it; a current identity answered
after another has been minted later; and what another has taken the place of is never current again. -/
theorem identities_in_minting_order {ls : List (Volume String × CallMade B)} (hs : s.Tracked)
    (hvacant : ∀ f : SlotFile, s.contents f.path = none) (hrun : History (DirectoryStep os hidden) s ls t)
    (hfresh : FreshKeys (ls.map Prod.snd)) :
    (∀ i x, Tells (ls.map Prod.snd) i x → ∃ n ≤ i, MintedAt (ls.map Prod.snd) n x) ∧
      (∀ i j m n x y, i < j → Tells (ls.map Prod.snd) i x → TellsCurrent (ls.map Prod.snd) j y →
        MintedAt (ls.map Prod.snd) m x → MintedAt (ls.map Prod.snd) n y → m ≤ n) ∧
      ∀ i j k x y, i < j → j < k → Tells (ls.map Prod.snd) i x → TellsCurrent (ls.map Prod.snd) j y → x ≠ y →
        ¬ TellsCurrent (ls.map Prod.snd) k x := by
  refine ⟨fun i x hx => answered_minted hread hs hvacant hrun hfresh hx, ?_⟩
  obtain ⟨ks, hks, hcalls⟩ := run_onSlots hs hrun
  have hempty : ∀ f, (slotsOf s).contents f = none := fun f => by simpa using hvacant f
  rw [← hcalls] at hfresh ⊢
  refine ⟨?_, ?_⟩
  · intro i j m n x y hij hx hy hm hn
    exact minted_in_order hread hempty hfresh hks hij hx hy hm hn
  · intro i j k x y hij hjk hx hy hne hagain
    obtain ⟨m, _, hm⟩ := minted_by_then hread hempty hfresh hks hx
    obtain ⟨n, _, hn⟩ := minted_by_then hread hempty hfresh hks (Or.inl hy)
    have hmn : m ≤ n := minted_in_order hread hempty hfresh hks hij hx hy hm hn
    have hnm : n ≤ m := minted_in_order hread hempty hfresh hks hjk (Or.inl hy) hagain hn hm
    obtain rfl : m = n := Nat.le_antisymm hmn hnm
    exact hne (hm.unique hn)

end Histories

def toySuccession : List (Volume String × CallMade toyBackend) :=
  [(emptyDir, .loadOrGenerate (toyMint 1 7), some (.ok (.node toyNodeOne))),
    (settledDir, .rotate (toyMint 2 8), some (.ok (.rotated ⟨toyNodeOne, toyNodeTwo⟩))),
    (rotatedDir, .loadOrGenerate (toyMint 3 9), some (complete (.loadOrGenerate (toyMint 3 9)) rotatedDir).1)]

theorem toySuccession_runs :
    ∃ t, History (DirectoryStep (B := toyBackend) .unix Set.univ) emptyDir toySuccession t := by
  have hstep : ∀ c u, DirectoryStep .unix Set.univ u (c, some (complete c u).1) (complete c u).2 :=
    fun c u => can_veiled Set.univ (can_exec _ u)
  have hfirst := hstep (.loadOrGenerate (toyMint 1 7)) emptyDir
  have hanswer : (complete (.loadOrGenerate (toyMint 1 7)) emptyDir).1 = .ok (.node toyNodeOne) := by decide +kernel
  have hsecond := hstep (.rotate (toyMint 2 8)) settledDir
  rw [hanswer] at hfirst
  rw [rotatedDir_answer] at hsecond
  exact ⟨_, (History.single hfirst).append ((History.single hsecond).append (.single (hstep _ rotatedDir)))⟩

theorem toySuccession_spki {k : ℕ} {x : NodeCert} (h : MintedAt (toySuccession.map Prod.snd) k x) :
    k < 3 ∧ x.spkiDer = [UInt8.ofNat (k + 1)] := by
  obtain ⟨l, hl, m, hm, hx⟩ := h
  obtain ⟨key, hkey, _, hparts⟩ := NodeCert.generateSigned_ok hx
  have hspki : x.spkiDer = [key] := (NodeCert.fromParts_ok hparts).2.2
  have hbound : k < 3 := (List.getElem?_eq_some_iff.mp hl).1
  refine ⟨hbound, ?_⟩
  rcases k with _ | _ | _ | k
  all_goals first | omega | skip
  all_goals
    cases hl
    cases hm
    cases hkey
    exact hspki

theorem toySuccession_fresh : FreshKeys (toySuccession.map Prod.snd) := by
  intro k n x y hx hy hsame
  obtain ⟨hk, hkey⟩ := toySuccession_spki hx
  obtain ⟨hn, hkey'⟩ := toySuccession_spki hy
  rw [hkey, hkey', List.cons.injEq] at hsame
  have htoNat := congrArg UInt8.toNat hsame.1
  simp only [UInt8.toNat_ofNat'] at htoNat
  omega

theorem identities_in_minting_order_toy : ∃ t,
    History (DirectoryStep (B := toyBackend) .unix Set.univ) emptyDir toySuccession t ∧
    TellsCurrent (toySuccession.map Prod.snd) 0 toyNodeOne ∧ TellsCurrent (toySuccession.map Prod.snd) 1 toyNodeTwo ∧
    ¬ TellsCurrent (toySuccession.map Prod.snd) 2 toyNodeOne := by
  obtain ⟨t, hrun⟩ := toySuccession_runs
  have hfirst : TellsCurrent (toySuccession.map Prod.snd) 0 toyNodeOne :=
    ⟨.loadOrGenerate (toyMint 1 7), .node toyNodeOne, rfl, rfl⟩
  have hsecond : TellsCurrent (toySuccession.map Prod.snd) 1 toyNodeTwo :=
    ⟨.rotate (toyMint 2 8), .rotated ⟨toyNodeOne, toyNodeTwo⟩, rfl, rfl⟩
  refine ⟨t, hrun, hfirst, hsecond, ?_⟩
  have horder := identities_in_minting_order toy_keysReadBack emptyDir_tracked
    (fun f => emptyDir_vacant.contents f.path) hrun toySuccession_fresh
  exact horder.2.2 0 1 2 toyNodeOne toyNodeTwo Nat.zero_lt_one (Nat.lt_succ_self 1) (Or.inl hfirst) hsecond (by decide)

end DigTls
