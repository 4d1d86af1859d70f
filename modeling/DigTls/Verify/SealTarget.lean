import DigTls.Effects.Pool
import DigTls.Verify.CapturedPair

/-! # Where a captured key comes from

Verifiers may share a capture cell, and their calls may overlap in any order. A key is stored as
the last act of a call that has passed all its checks, so a captured key has a leaf behind it that
some verifier checked in full, and a call that rejects its leaf has not touched the cell.
-/
namespace DigTls
open EffectPrograms
variable {B : Backend}

abbrev VerifyJob := PeerVerifier × Presentation

def verifyJob (B : Backend) (job : VerifyJob) : Verification Unit := job.1.verify B job.2

abbrev Calls := Pool CellOp CellOp.Res TlsError Unit Heap VerifyJob

abbrev Calls.Run (B : Backend) : Calls → List (Calls × Turn VerifyJob) → Calls → Prop :=
  Pool.Run cells (verifyJob B)

/-- Every check of the verifier passed on the leaf, and its binding verifies to `b`. -/
structure FullyChecked (B : Backend) (w : PeerVerifier) (p : Presentation) (b : Octets 48) : Prop where
  chain : w.cert.requireCaChain = true → ChainsToDigCa B w.usage p.leaf p.intermediates p.now
  policy : w.cert.bindingPolicy ≠ .off
  bound : ∃ x509 value sig, B.parseX509Certificate p.leaf = .ok x509 ∧
    Admits w.cert.expected (peerIdFromTlsSpkiDer B x509.subjectPki) ∧
    bindingValue x509 = some value ∧ Attests B value x509.subjectPki ⟨b, sig⟩

def Vetted (B : Backend) (job : VerifyJob) : CellOp → Prop
  | .storePeerId _ _ => True
  | .storeBlsPub cell key => cell = job.1.cert.capturedBls.cell ∧ ∀ b, key = some b → FullyChecked B job.1 job.2 b

def StoresKey : CellOp → Prop
  | .storePeerId _ _ => False
  | .storeBlsPub _ _ => True

theorem verifyJob_eq (job : VerifyJob) : verifyJob B job =
    (judge B job.1.usage job.1.cert job.2.leaf job.2.intermediates job.2.now).program job.1.cert := by
  rw [verifyJob, PeerVerifier.verify_eq, verifyCert_eq]

theorem fullyChecked_of_accepted {w : PeerVerifier} {p : Presentation} {id : PeerId} {b : Octets 48}
    (h : judge B w.usage w.cert p.leaf p.intermediates p.now = .accepted id (some (some b))) :
    FullyChecked B w p b := by
  have haccepts : (judge B w.usage w.cert p.leaf p.intermediates p.now).Accepts := by
    rw [h]
    trivial
  obtain ⟨hchain, x509, hx, hadm, _⟩ := judge_accepts_iff.mp haccepts
  obtain ⟨x509', hx', _, hkey⟩ := judge_accepted h
  obtain rfl : x509 = x509' := Except.ok.inj (hx.symm.trans hx')
  rcases hkey with ⟨_, hnone⟩ | ⟨hpolicy, k, hk, heval⟩
  · cases hnone
  · cases hk
    rcases evaluate_ok_iff.mp heval with ⟨hoff, _⟩ | ⟨_, b', hbound, hb'⟩ | ⟨_, _, hnone⟩
    · exact absurd hoff hpolicy
    · cases hb'
      obtain ⟨value, ⟨_, sig⟩, hvalue, hattests, rfl⟩ := verifyBinding_bound_iff.mp hbound
      exact ⟨hchain, hpolicy, x509, value, sig, hx, hadm, hvalue, hattests⟩
    · cases hnone

theorem verifyJob_vetted (job : VerifyJob) : (verifyJob B job).Forall (Vetted B job) fun _ => True := by
  rw [verifyJob_eq]
  cases hd : judge B job.1.usage job.1.cert job.2.leaf job.2.intermediates job.2.now with
  | refusedUnseen e => trivial
  | refusedSeen id e => exact ⟨trivial, fun _ => trivial⟩
  | accepted id key =>
    cases key with
    | none => exact ⟨trivial, fun _ => trivial⟩
    | some k =>
      refine ⟨trivial, fun _ => ⟨⟨rfl, ?_⟩, fun _ => trivial⟩⟩
      rintro b rfl
      exact fullyChecked_of_accepted hd

/-- A key is stored only where nothing is left to check. -/
theorem verifyJob_commits (job : VerifyJob) : (verifyJob B job).Commits StoresKey := by
  rw [verifyJob_eq]
  cases judge B job.1.usage job.1.cert job.2.leaf job.2.intermediates job.2.now with
  | refusedUnseen e => trivial
  | refusedSeen id e => exact fun _ => ⟨fun h => h.elim, trivial⟩
  | accepted id key =>
    cases key with
    | none => exact fun _ => ⟨fun _ => trivial, trivial⟩
    | some k => exact fun _ => ⟨fun h => h.elim, fun _ => ⟨fun _ => trivial, trivial⟩⟩

/-- The leaf fails the chain check, where there is one, or does not parse. -/
def RefusedUnseen (B : Backend) (job : VerifyJob) : Prop :=
  (job.1.cert.requireCaChain = true ∧ ¬ ChainsToDigCa B job.1.usage job.2.leaf job.2.intermediates job.2.now) ∨
    ∀ x509, B.parseX509Certificate job.2.leaf ≠ .ok x509

theorem verifyJob_refused {job : VerifyJob} (h : RefusedUnseen B job) :
    ∃ e, verifyJob B job = .raise e := by
  rw [verifyJob_eq]
  unfold judge
  split
  · exact ⟨_, rfl⟩
  · case h_2 hpass =>
    rcases h with ⟨hca, hchain⟩ | hparse
    · rw [if_pos hca, verifyChainToDigCa_ok_iff] at hpass
      exact absurd hpass hchain
    · cases hx : B.parseX509Certificate job.2.leaf with
      | error e =>
        rw [peerIdFromLeafCertDer, hx]
        exact ⟨_, rfl⟩
      | ok x509 => exact absurd hx (hparse x509)

theorem cells_blsPub {op : CellOp} (h : ¬ StoresKey op) (s : Heap) : (cells.run op s).2.blsPub = s.blsPub := by
  cases op with
  | storePeerId cell value => rfl
  | storeBlsPub cell key => exact absurd trivial h

/-- What the job answers for, of a value in the cell `c`. -/
def Answers (B : Backend) (c : CapturedBlsPub) (job : VerifyJob) (key : Option (Octets 48)) : Prop :=
  ∀ b, key = some b → job.1.cert.capturedBls = c ∧ FullyChecked B job.1 job.2 b

theorem Vetted.get {job : VerifyJob} {op : CellOp} (h : Vetted B job op) (c : CapturedBlsPub) (s : Heap) :
    c.get (cells.run op s).2 = c.get s ∨ Answers B c job (c.get (cells.run op s).2) := by
  cases op with
  | storePeerId cell value => exact Or.inl rfl
  | storeBlsPub cell key =>
    obtain ⟨hcell, hkey⟩ := h
    by_cases hc : c.cell = cell
    · have hget : c.get (cells.run (.storeBlsPub cell key) s).2 = key := by
        rw [CapturedBlsPub.get, hc]
        exact Function.update_self ..
      rw [hget]
      refine Or.inr fun b hb => ⟨?_, hkey b hb⟩
      obtain ⟨cell'⟩ := c
      exact congrArg CapturedBlsPub.mk (hcell.symm.trans hc.symm)
    · exact Or.inl (Function.update_of_ne hc ..)

/-- A key in a cell that was empty when the calls began comes from a fully checked leaf, presented
before to a verifier with that cell; a call that has rejected its leaf changed no key cell; and one
refused over the chain or the parse changed no peer id cell either. -/
theorem captured_key_fully_checked {h : Heap} {c : CapturedBlsPub} (hempty : c.get h = none)
    {ls : List (Calls × Turn VerifyJob)} {t : Calls} (hrun : Calls.Run B (.idle h) ls t) :
    (∀ b, c.get t.state = some b → ∃ u i w p, (u, .start i (w, p)) ∈ ls ∧ w.cert.capturedBls = c ∧
      FullyChecked B w p b) ∧
    (∀ i job e, t.task i = some (job, .raise e) → Pool.Spares cells (verifyJob B) Heap.blsPub ls i) ∧
    ∀ i job rest, t.task i = some (job, rest) → RefusedUnseen B job →
      (∃ e, rest = .raise e) ∧ Pool.Spares cells (verifyJob B) Heap.peerId ls i := by
  refine ⟨?_, ?_, ?_⟩
  · intro b hb
    rcases Pool.Run.vouched c.get (Answers B c) verifyJob_vetted (fun _ _ s hop => hop.get c s) hrun with
      hsame | ⟨u, i, ⟨w, p⟩, hu, hanswers⟩
    · rw [hsame, hempty] at hb
      cases hb
    · obtain ⟨hcell, hchecked⟩ := hanswers b hb
      exact ⟨u, i, w, p, hu, hcell, hchecked⟩
  · intro i job e hi
    exact Pool.Run.failed_spares verifyJob_commits (fun op s hop => cells_blsPub hop s) hrun hi
  · intro i job rest hi hrefused
    obtain ⟨e, he⟩ := verifyJob_refused hrefused
    obtain ⟨hrest, hspares⟩ := Pool.Run.refused_spares hrun he hi
    exact ⟨⟨e, hrest⟩, hspares⟩

def unboundBesideBound : List (Turn VerifyJob) :=
  [.start 0 (requiring, ⟨toyLeaf 1 7, [], "peer.dig", [], 0⟩), .go 0,
    .start 1 (.server (.newSpkiPinned none ⟨1⟩ .required ⟨0⟩), ⟨[2], [], "peer.dig", [], 0⟩), .go 1, .go 0]

theorem captured_key_fully_checked_shared :
    ∃ (ls : List (Calls × Turn VerifyJob)) (t : Calls), ls.map Prod.snd = unboundBesideBound ∧
      (⟨0⟩ : CapturedBlsPub).get t.state = some (List.Vector.replicate 48 7) ∧
      ∃ u i w p, (u, .start i (w, p)) ∈ ls ∧ w.cert.capturedBls = ⟨0⟩ ∧
        FullyChecked toyBackend w p (List.Vector.replicate 48 7) := by
  have hplay : ((Pool.idle noHeap : Calls).play cells (verifyJob toyBackend) unboundBesideBound).map
      (fun t => (⟨0⟩ : CapturedBlsPub).get t.state) = some (some (List.Vector.replicate 48 7)) := by decide +kernel
  obtain ⟨t, ht, hkey⟩ := Option.map_eq_some_iff.mp hplay
  obtain ⟨ls, hls, hrun⟩ := Pool.run_of_play ht
  exact ⟨ls, t, hls, hkey, (captured_key_fully_checked rfl hrun).1 _ hkey⟩

end DigTls
