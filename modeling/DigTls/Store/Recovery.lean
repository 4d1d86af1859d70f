import DigTls.Store.SlotRefinement

/-! # Which directories can be brought back

A pair of current files that are there but do not read back is never written again: a load reads it and
fails, a rotation reads it before it writes. Every other directory comes back to an identity, and so
does this one when a load misses one of the two files and mints over both.
-/
namespace DigTls
open EffectPrograms PosixVolume
variable {B : Backend} {os : Platform} {hidden : Set String} {a b : Slots} {c k f : SlotFile} {s t : Volume String}

namespace Slots

def pair (B : Backend) (a : Slots) (c k : SlotFile) : Except DigTlsError NodeCert := do
  let certPem ← textOf (a.contents c)
  let keyPem ← textOf (a.contents k)
  NodeCert.fromPem B certPem keyPem

def BothThere (a : Slots) : Prop := (a.contents .cert).isSome ∧ (a.contents .key).isSome

/-- Both current files are there, and they do not make an identity. -/
def Stuck (B : Backend) (a : Slots) : Prop := a.BothThere ∧ ∀ node, a.pair B .cert .key ≠ .ok node

def SameCurrent (a b : Slots) : Prop := b.contents .cert = a.contents .cert ∧ b.contents .key = a.contents .key

theorem SameCurrent.trans {a b d : Slots} (h : a.SameCurrent b) (h' : b.SameCurrent d) : a.SameCurrent d :=
  ⟨h'.1.trans h.1, h'.2.trans h.2⟩

theorem SameCurrent.stuck (h : a.SameCurrent b) (ha : a.Stuck B) : b.Stuck B := by
  have hpair : b.pair B .cert .key = a.pair B .cert .key := by simp [pair, h.1, h.2]
  refine ⟨⟨?_, ?_⟩, fun node hnode => ha.2 node (hpair ▸ hnode)⟩
  · rw [h.1]
    exact ha.1.1
  · rw [h.2]
    exact ha.1.2

end Slots

section Looking
open SlotTask

/-- The slots are only read, and a good answer satisfies `A`. -/
abbrev Reading (os : Platform) (hidden : Set String) (a : Slots) {α : Type} (p : SlotTask α) (A : α → Prop) : Prop :=
  Gives (slots os hidden) (· = a) p a fun x _ => A x

theorem gives_there : Reading os hidden a (there f) fun x => f.path ∉ hidden → x = (a.contents f).isSome := by
  refine Gives.call (Gives.done rfl fun _ => rfl) ?_ (by rintro _ ⟨⟩; rfl)
  rintro _ _ ⟨hpath⟩
  exact Gives.done rfl fun hshown => absurd hpath hshown

theorem gives_ofExcept {α : Type} {x : Except DigTlsError α} {A : α → Prop} (h : ∀ y, x = .ok y → A y) :
    Reading os hidden a (.ofExcept x) A := by
  cases x with
  | ok y => exact Gives.done rfl (h y rfl)
  | error e => exact Gives.raise rfl

theorem gives_text : Reading os hidden a (text f) fun x => textOf (a.contents f) = .ok x := by
  refine Gives.call (gives_ofExcept fun _ => id) ?_ (by rintro _ ⟨⟩; rfl)
  intro r b hf
  cases hf with
  | text e left =>
    cases left
    exact Gives.raise rfl

theorem Reading.bind {α β : Type} {p : SlotTask α} {q : α → SlotTask β} {A : α → Prop} {A' : β → Prop}
    (h : Reading os hidden a p A) (next : ∀ x, A x → Reading os hidden a (q x) A') :
    Reading os hidden a (p >>= q) A' := by
  refine Gives.bind h ?_
  rintro x _ rfl hx
  exact next x hx

theorem gives_bothThere : Reading os hidden a (bothThere c k) fun x =>
    c.path ∉ hidden → k.path ∉ hidden → x = ((a.contents c).isSome && (a.contents k).isSome) := by
  refine Reading.bind gives_there fun x hx => ?_
  cases x with
  | false => exact Gives.done rfl fun hc _ => by rw [← hx hc, Bool.false_and]
  | true => exact gives_there.mono fun y _ _ hy hc hk => by rw [← hx hc, Bool.true_and, hy hk]

theorem gives_eitherThere : Reading os hidden a (eitherThere c k) fun _ => True := by
  refine Reading.bind gives_there fun x _ => ?_
  cases x with
  | true => exact Gives.done rfl trivial
  | false => exact gives_there.mono fun _ _ _ _ => trivial

theorem gives_load : Reading os hidden a (load B c k) fun node => a.pair B c k = .ok node := by
  refine Reading.bind gives_text fun certPem hcert => ?_
  refine Reading.bind gives_text fun keyPem hkey => ?_
  refine gives_ofExcept fun node hnode => ?_
  simp [Slots.pair, hcert, hkey, hnode, bind, Except.bind]

end Looking

def SlotOp.SparesCurrent : SlotOp → Prop
  | .put f _ | .delete f => f ≠ .cert ∧ f ≠ .key
  | _ => True

theorem sameCurrent_set (h : a.SameCurrent b) (hf : f ≠ .cert ∧ f ≠ .key) (contents : Option Bytes) :
    a.SameCurrent (b.set f contents) :=
  ⟨(Slots.contents_set_of_ne hf.1.symm).trans h.1, (Slots.contents_set_of_ne hf.2.symm).trans h.2⟩

/-- A property of the slots is kept by programs whose writes and deletions keep it, whether or not their
calls go through. -/
theorem keeps_slots {α : Type} {I : Slots → Prop} {C : SlotOp → Prop} {p : SlotTask α} {A : α → Prop}
    (hput : ∀ f contents b, C (.put f contents) → I b → I (b.set f (some contents)) ∧ I (b.set f none))
    (hdelete : ∀ f b, C (.delete f) → I b → I (b.set f none)) (hmade : ∀ b, I b → I b.made) (hp : p.Forall C A) :
    Keeps (slots os hidden) I p A := by
  have hfalls : ∀ {op : SlotOp} {b d : Slots}, C op → Falls os op b d → I b → I d := by
    intro op b d hop hleft hb
    cases hleft with
    | replaced => exact (hput _ _ b hop hb).1
    | removed => exact (hput _ _ b hop hb).2
    | made => exact hmade b hb
    | _ => exact hb
  refine keeps_forall (fun op b hop hb => ?_) (fun op b r d hop hf hb => ?_) (fun op b d => hfalls) hp
  · cases op with
    | put f contents => exact (hput f contents b hop hb).1
    | delete f =>
      change I (if (b.contents f).isSome = true then _ else _ : _ × Slots).2
      split_ifs
      · exact hdelete f b hop hb
      · exact hb
    | makeDir => exact hmade b hb
    | there | text | bytes | harden => exact hb
  · cases hf with
    | unseen => exact hb
    | text _ left | bytes _ left | put _ left | delete _ left | makeDir _ left | harden _ left =>
      exact hfalls hop left hb

theorem keeps_sameCurrent {α : Type} {p : SlotTask α} {A : α → Prop} (hp : p.Forall SlotOp.SparesCurrent A) :
    Keeps (slots os hidden) (a.SameCurrent ·) p A := by
  have hset : ∀ {f : SlotFile} {b : Slots} (contents : Option Bytes), f ≠ .cert ∧ f ≠ .key → a.SameCurrent b →
      a.SameCurrent (b.set f contents) := fun contents hf hb => sameCurrent_set hb hf contents
  refine keeps_slots (fun f contents b hop hb => ?_) (fun f b hop hb => hset none hop hb) (fun b hb => ?_) hp
  · exact ⟨hset (some contents) hop hb, hset none hop hb⟩
  · exact ⟨Slots.contents_made.trans hb.1, Slots.contents_made.trans hb.2⟩

theorem retirePrevious_slots {C : SlotOp → Prop} (hthere : ∀ f, C (.there f)) (hbytes : ∀ f, C (.bytes f))
    (hkey : C (.delete .keyPrev)) (hcert : C (.delete .certPrev)) :
    SlotTask.retirePrevious.Forall C fun _ => True := by
  have hanswer : ∀ {α : Type} (r : Except DigTlsError α), (.ofExcept r : SlotTask α).Forall C fun _ => True :=
    fun r => Program.Forall.ofExcept fun _ _ => trivial
  have hfirst : SlotTask.retireKey.Forall C fun _ => True := by
    refine ⟨hthere _, fun x => ?_⟩
    cases x with
    | false => trivial
    | true => exact ⟨hbytes _, fun r => (hanswer r).bind fun _ _ => ⟨hkey, hanswer⟩⟩
  refine hfirst.bind fun _ _ => ⟨hthere _, fun x => ?_⟩
  cases x with
  | false => trivial
  | true => exact ⟨hcert, hanswer⟩

theorem retirePrevious_spares : SlotTask.retirePrevious.Forall SlotOp.SparesCurrent fun _ => True :=
  retirePrevious_slots (fun _ => trivial) (fun _ => trivial) ⟨by decide, by decide⟩ ⟨by decide, by decide⟩

/-- No call that sees the two files of a stuck directory touches them or answers with a current identity. -/
theorem gives_stuck (ha : a.Stuck B) (hcert : certFile ∉ hidden) (hkey : keyFile ∉ hidden) (c : Call B) :
    Gives (slots os hidden) (a.SameCurrent ·) c.onSlots a fun r _ => r.current = none := by
  have hboth : ((a.contents .cert).isSome && (a.contents .key).isSome) = true := by simp [ha.1.1, ha.1.2]
  have hread : ∀ {α : Type} {p : SlotTask α} {A : α → Prop}, Reading os hidden a p A →
      Gives (slots os hidden) (a.SameCurrent ·) p a fun x _ => A x := by
    intro α p A h
    refine Ensures.mono h ?_
    rintro trace o b ⟨rfl, hA⟩
    exact ⟨⟨rfl, rfl⟩, hA⟩
  cases c with
  | loadOrGenerate m =>
    have hload : Reading os hidden a (SlotTask.loadOrGenerate m) fun _ => False := by
      refine Reading.bind gives_bothThere fun x hx => ?_
      obtain rfl := (hx hcert hkey).trans hboth
      exact gives_load.mono fun node _ _ hnode => ha.2 node hnode
    exact hread (hload.bind fun _ hx => hx.elim)
  | rotate m =>
    have hrotate : Reading os hidden a (SlotTask.rotate m) fun _ => False := by
      refine Reading.bind gives_bothThere fun x hx => ?_
      obtain rfl := (hx hcert hkey).trans hboth
      refine Reading.bind gives_eitherThere fun x _ => ?_
      cases x with
      | true => exact Gives.raise rfl
      | false => exact Reading.bind gives_load fun node hnode => (ha.2 node hnode).elim
    exact hread (hrotate.bind fun _ hx => hx.elim)
  | loadPrevious =>
    have hprevious : Reading os hidden a (SlotTask.loadPrevious B) fun _ => True := by
      refine Reading.bind gives_bothThere fun x _ => ?_
      cases x with
      | true => exact Reading.bind gives_load fun _ _ => Gives.done rfl trivial
      | false => exact Gives.done rfl trivial
    exact hread (hprevious.bind fun _ _ => Gives.done rfl rfl)
  | retirePrevious =>
    have hretire : Gives (slots os hidden) (a.SameCurrent ·) SlotTask.retirePrevious a fun _ _ => True :=
      Ensures.mono (keeps_sameCurrent retirePrevious_spares a ⟨rfl, rfl⟩) fun _ _ _ h => ⟨h.1, fun _ _ => trivial⟩
    exact hretire.bind fun _ _ hb _ => Gives.done hb rfl

theorem SlotsStep.stuck {l : Call B × Option (Except DigTlsError Reply)} (ha : a.Stuck B)
    (hcert : certFile ∉ hidden) (hkey : keyFile ∉ hidden) (h : SlotsStep os hidden a l b) :
    a.SameCurrent b ∧ ∀ r, l.2 = some (.ok r) → r.current = none := by
  obtain ⟨trace, h⟩ := h
  exact gives_stuck ha hcert hkey l.1 trace l.2 b h

/-- Whatever is called on a stuck directory, and wherever it is cut, the current files stay as they are
and no answer tells of a current identity, if the tests for these two files do not fail. -/
theorem stuck_forever {ls : List (Volume String × Call B × Option (Except DigTlsError Reply))} (hs : s.Tracked)
    (hstuck : (slotsOf s).Stuck B) (hcert : certFile ∉ hidden) (hkey : keyFile ∉ hidden)
    (h : History (DirectoryStep os hidden) s ls t) :
    (slotsOf s).SameCurrent (slotsOf t) ∧
      ∀ u c r, (u, c, some (.ok r)) ∈ ls → r.current = none := by
  have hkeep : ∀ u (l : Call B × Option (Except DigTlsError Reply)) v, True →
      u.Tracked ∧ (slotsOf s).SameCurrent (slotsOf u) → DirectoryStep os hidden u l v →
      v.Tracked ∧ (slotsOf s).SameCurrent (slotsOf v) := by
    rintro u l v - ⟨hu, hsame⟩ hstep
    obtain ⟨hv, hslots⟩ := hstep.onSlots hu
    exact ⟨hv, hsame.trans (hslots.stuck (hsame.stuck hstuck) hcert hkey).1⟩
  refine ⟨(h.invariant (C := fun _ _ => True) ⟨hs, rfl, rfl⟩ (fun _ _ => trivial) hkeep).2, ?_⟩
  intro u c r hmem
  obtain ⟨ks, v, ms, hbefore, hstep, _⟩ := h.split hmem
  obtain ⟨hu, hsame⟩ := hbefore.invariant (C := fun _ _ => True) ⟨hs, rfl, rfl⟩ (fun _ _ => trivial) hkeep
  exact ((hstep.onSlots hu).2.stuck (hsame.stuck hstuck) hcert hkey).2 r rfl

section Back
open SlotTask

theorem exec_text (f : SlotFile) (a : Slots) : exec (slots os hidden) (text f) a = (textOf (a.contents f), a) := by
  change exec (slots os hidden) (.ofExcept (textOf (a.contents f))) a = _
  cases textOf (a.contents f) <;> rfl

theorem exec_bothThere (c k : SlotFile) (a : Slots) :
    exec (slots os hidden) (bothThere c k) a = (.ok ((a.contents c).isSome && (a.contents k).isSome), a) := by
  change exec (slots os hidden) (if (a.contents c).isSome = true then there k else .done false) a = _
  cases (a.contents c).isSome <;> rfl

theorem exec_load (c k : SlotFile) (a : Slots) : exec (slots os hidden) (load B c k) a = (a.pair B c k, a) := by
  rw [load, exec_bind, exec_text, Slots.pair]
  cases textOf (a.contents c) with
  | error e => rfl
  | ok certPem =>
    change exec (slots os hidden) (text k >>= fun keyPem => .ofExcept (NodeCert.fromPem B certPem keyPem)) a = _
    rw [exec_bind, exec_text]
    cases textOf (a.contents k) with
    | error e => rfl
    | ok keyPem =>
      change exec (slots os hidden) (.ofExcept (NodeCert.fromPem B certPem keyPem)) a = _
      cases hnode : NodeCert.fromPem B certPem keyPem <;> simp [exec, Program.ofExcept, bind, Except.bind, hnode]

theorem exec_persistFresh (x : NodeCert) (a : Slots) : exec (slots os hidden) (SlotTask.persistFresh x) a =
    (.ok x, (a.made.set .cert (some (asBytes x.certPem))).set .key (some (asBytes x.keyPem))) := by
  cases os <;> rfl

theorem exec_load_there (m : NodeCert.Minting B) (h : a.BothThere) :
    exec (slots os hidden) (SlotTask.loadOrGenerate m) a = (a.pair B .cert .key, a) := by
  rw [SlotTask.loadOrGenerate, exec_bind, exec_bothThere, h.1, h.2]
  exact exec_load .cert .key a

theorem exec_load_missing {m : NodeCert.Minting B} {x : NodeCert} (hmint : NodeCert.generateSigned B m = .ok x)
    (h : ¬ a.BothThere) : (exec (slots os hidden) (SlotTask.loadOrGenerate m) a).1 = .ok x := by
  have hboth : ((a.contents .cert).isSome && (a.contents .key).isSome) = false := by
    rw [Slots.BothThere] at h
    rw [Bool.eq_false_iff, ne_eq, Bool.and_eq_true]
    exact h
  rw [SlotTask.loadOrGenerate, exec_bind, exec_bothThere, hboth]
  change (exec (slots os hidden) (.ofExcept (NodeCert.generateSigned B m) >>= fun node =>
    SlotTask.persistFresh node) a).1 = _
  rw [hmint]
  exact congrArg Prod.fst (exec_persistFresh x a)

end Back

theorem load_unstuck {m : NodeCert.Minting B} {x : NodeCert} (hmint : NodeCert.generateSigned B m = .ok x)
    (h : ¬ a.Stuck B) : ∃ node, (exec (slots os hidden) (SlotTask.loadOrGenerate m) a).1 = .ok node := by
  by_cases hthere : a.BothThere
  · have hloads : ∃ node, a.pair B .cert .key = .ok node := by
      by_contra hno
      exact h ⟨hthere, fun node hnode => hno ⟨node, hnode⟩⟩
    obtain ⟨node, hnode⟩ := hloads
    exact ⟨node, by rw [exec_load_there m hthere, hnode]⟩
  · exact ⟨x, exec_load_missing hmint hthere⟩

/-- The first of the two tests that may fail does, and the load mints over both files. -/
theorem load_missed {m : NodeCert.Minting B} {x : NodeCert} (hmint : NodeCert.generateSigned B m = .ok x)
    (hthere : a.BothThere) (hmissed : certFile ∈ hidden ∨ keyFile ∈ hidden) :
    ∃ b, Can (slots os hidden) (SlotTask.loadOrGenerate m) a (some (.ok x)) b := by
  have hboth : Can (slots os hidden) (SlotTask.bothThere .cert .key) a (some (.ok false)) a := by
    rcases hmissed with hcert | hkey
    · exact can_bothThere_missed hcert .key a
    · have hsees : (slots os hidden).Does (.there .cert) a (some true) a := does_works (Prod.ext hthere.1 rfl)
      have hmisses : Can (slots os hidden) (SlotTask.there .key) a (some (.ok false)) a :=
        can_call_iff.mpr (Or.inl ⟨false, a, .fails (.unseen hkey a), can_done_iff.mpr ⟨rfl, rfl⟩⟩)
      exact can_call_iff.mpr (Or.inl ⟨true, a, hsees, hmisses⟩)
  have hfresh := can_exec (M := slots os hidden) (SlotTask.persistFresh x) a
  rw [exec_persistFresh] at hfresh
  obtain ⟨b, hb⟩ : ∃ b, Can (slots os hidden) (.ofExcept (NodeCert.generateSigned B m) >>= fun node =>
      SlotTask.persistFresh node) a (some (.ok x)) b := by
    rw [hmint]
    exact ⟨_, hfresh⟩
  exact ⟨b, hboth.bind hb⟩

/-- Some run of calls on the directory, in which the existence tests of the hidden names may fail, is
answered with a current identity exactly if the directory is not stuck or one of the two current files
may be missed; and then a single load is such a run. -/
theorem recoverable_iff_unstuck (hs : s.Tracked) (hidden : Set String) {m : NodeCert.Minting B} {x : NodeCert}
    (hmint : NodeCert.generateSigned B m = .ok x) :
    (∃ ls t u c r, History (DirectoryStep (B := B) os hidden) s ls t ∧ (u, c, some (.ok r)) ∈ ls ∧ r.current ≠ none) ↔
      ¬ (slotsOf s).Stuck B ∨ certFile ∈ hidden ∨ keyFile ∈ hidden := by
  constructor
  · rintro ⟨ls, t, u, c, r, hrun, hmem, hcurrent⟩
    by_contra hno
    obtain ⟨hstuck, hseen⟩ := not_or.mp hno
    obtain ⟨hcert, hkey⟩ := not_or.mp hseen
    exact hcurrent ((stuck_forever hs (not_not.mp hstuck) hcert hkey hrun).2 u c r hmem)
  · intro hfree
    have hload : ∃ node b, Can (slots os hidden) (SlotTask.loadOrGenerate m) (slotsOf s) (some (.ok node)) b := by
      by_cases hstuck : (slotsOf s).Stuck B
      · obtain ⟨b, hcan⟩ := load_missed hmint hstuck.1 (hfree.resolve_left (not_not.mpr hstuck))
        exact ⟨x, b, hcan⟩
      · obtain ⟨node, hnode⟩ : ∃ node, (exec (slots os hidden) (SlotTask.loadOrGenerate m) (slotsOf s)).1 = .ok node :=
          load_unstuck hmint hstuck
        have hcan := can_exec (M := slots os hidden) (SlotTask.loadOrGenerate m) (slotsOf s)
        rw [hnode] at hcan
        exact ⟨node, _, hcan⟩
    obtain ⟨node, b, hcan⟩ := hload
    have hstep : SlotsStep os hidden (slotsOf s) (.loadOrGenerate m, some (.ok (.node node))) b :=
      hcan.bind (can_done_iff.mpr ⟨rfl, rfl⟩)
    obtain ⟨t, _, hanswered⟩ := hstep.inDirectory hs
    exact ⟨_, t, s, .loadOrGenerate m, .node node, .single hanswered, by simp, by simp [Reply.current]⟩

/-- The current pair of a torn rotation does not read back, and a load that misses the key replaces it. -/
theorem recoverable_iff_unstuck_torn : ∃ s : Volume String, s.Tracked ∧
    (exec (posix String) (loadOrGenerate .unix (toyMint 3 9)) s).1 =
      .error (.parse "cert/key mismatch: the certificate does not certify the supplied private key") ∧
    ∃ ls t u c r, History (DirectoryStep (B := toyBackend) .unix {keyFile}) s ls t ∧
      (u, c, some (.ok r)) ∈ ls ∧ Reply.current r ≠ none := by
  have hmint : NodeCert.generateSigned toyBackend (toyMint 2 8) = .ok toyNodeTwo := by decide +kernel
  obtain ⟨⟨trace, s⟩, hcut, hobs⟩ := Option.map_eq_some_iff.mp torn_rotation_state
  simp only [Prod.mk.injEq] at hobs
  have htorn : s.Tracked := settledDir_tracked.outcome (outcome_cutAfter Volume.Partial.unchanged hcut)
  exact ⟨s, htorn, hobs.2.1, (recoverable_iff_unstuck htorn {keyFile} hmint).mpr (Or.inr (Or.inr rfl))⟩

end DigTls
