import DigTls.Verify.CapturedPair

/-! # The cells after an accepted call

The cells may hold what an earlier call stored. An accepted call stores its leaf's peer id and,
if its policy looks at bindings, what the leaf's binding evaluates to; under `Off` it takes a
shortcut and leaves the key cell alone, with whatever key is in it.
-/
namespace DigTls
open EffectPrograms
variable {B : Backend}

/-- The cells tell of this leaf: its peer id, and what its binding evaluates to. -/
def Describes (B : Backend) (v : CertVerifier) (leaf : Bytes) (h : Heap) : Prop :=
  ∃ x509, B.parseX509Certificate leaf = .ok x509 ∧
    v.captured.get h = some (peerIdFromTlsSpkiDer B x509.subjectPki) ∧
    evaluate (verifyBindingFromLeafCert B leaf) v.bindingPolicy = .ok (v.capturedBls.get h)

section Plain
variable (B)

/-- The policy applied without the shortcut. -/
def applyPolicyPlain (endEntity : Bytes) (derived : PeerId) (bindingPolicy : BindingPolicy)
    (capturedBls : CapturedBlsPub) : Verification Unit :=
  match evaluate (verifyBindingFromLeafCert B endEntity) bindingPolicy with
  | .ok blsPub => storeBlsPub capturedBls blsPub
  | .error reason => .raise (rejectedBinding derived reason)

def pinAndBindPlain (endEntity : Bytes) (expected : Option PeerId) (captured : CapturedPeerId)
    (bindingPolicy : BindingPolicy) (capturedBls : CapturedBlsPub) : Verification PeerId := do
  let derived ← derivePeerId B endEntity
  storePeerId captured (some derived)
  enforcePin expected derived
  applyPolicyPlain B endEntity derived bindingPolicy capturedBls
  return derived

/-- A verifier call that takes the plain path. -/
def PeerVerifier.verifyPlain (w : PeerVerifier) (p : Presentation) : Verification Unit := do
  if w.cert.requireCaChain then .ofExcept (verifyChainToDigCa B p.leaf p.intermediates p.now w.usage)
  let _ ← pinAndBindPlain B p.leaf w.cert.expected w.cert.captured w.cert.bindingPolicy w.cert.capturedBls
  return ()

end Plain

theorem exec_verifyPlain {w : PeerVerifier} {p : Presentation} {x509 : X509} {k : Option (Octets 48)}
    (hchain : w.cert.requireCaChain = true → ChainsToDigCa B w.usage p.leaf p.intermediates p.now)
    (hx : B.parseX509Certificate p.leaf = .ok x509)
    (hadm : Admits w.cert.expected (peerIdFromTlsSpkiDer B x509.subjectPki))
    (hk : evaluate (verifyBindingFromLeafCert B p.leaf) w.cert.bindingPolicy = .ok k) (h : Heap) :
    exec cells (w.verifyPlain B p) h = (.ok (), (Heap.run (.storeBlsPub w.cert.capturedBls.cell k)
      (Heap.run (.storePeerId w.cert.captured.cell (some (peerIdFromTlsSpkiDer B x509.subjectPki))) h).2).2) := by
  have hid : peerIdFromLeafCertDer B p.leaf = some (peerIdFromTlsSpkiDer B x509.subjectPki) := by
    simp [peerIdFromLeafCertDer, hx]
  have htail : (pinAndBindPlain B p.leaf w.cert.expected w.cert.captured w.cert.bindingPolicy
      w.cert.capturedBls >>= fun _ => .done ()) = .call (.storePeerId w.cert.captured.cell
        (some (peerIdFromTlsSpkiDer B x509.subjectPki))) fun _ =>
          .call (.storeBlsPub w.cert.capturedBls.cell k) fun _ => .done () := by
    simp [pinAndBindPlain, derivePeerId, hid, storePeerId, enforcePin_of_admits hadm, applyPolicyPlain, hk,
      storeBlsPub]
  have hplain : w.verifyPlain B p = pinAndBindPlain B p.leaf w.cert.expected w.cert.captured
      w.cert.bindingPolicy w.cert.capturedBls >>= fun _ => .done () := by
    unfold PeerVerifier.verifyPlain
    cases hca : w.cert.requireCaChain with
    | false => rfl
    | true =>
      rw [verifyChainToDigCa_ok_iff.mpr (hchain hca)]
      rfl
  rw [hplain, htail]
  rfl

theorem exec_verify_accepted {w : PeerVerifier} {p : Presentation} {h : Heap}
    (hok : (exec cells (w.verify B p) h).1 = .ok ()) :
    ∃ x509 k, B.parseX509Certificate p.leaf = .ok x509 ∧
      evaluate (verifyBindingFromLeafCert B p.leaf) w.cert.bindingPolicy = .ok k ∧
      (exec cells (w.verifyPlain B p) h).2 = (Heap.run (.storeBlsPub w.cert.capturedBls.cell k)
        (Heap.run (.storePeerId w.cert.captured.cell (some (peerIdFromTlsSpkiDer B x509.subjectPki))) h).2).2 ∧
      (exec cells (w.verify B p) h).2 = if w.cert.bindingPolicy = .off then
        (Heap.run (.storePeerId w.cert.captured.cell (some (peerIdFromTlsSpkiDer B x509.subjectPki))) h).2
        else (exec cells (w.verifyPlain B p) h).2 := by
  rw [PeerVerifier.verify_eq, verifyCert_eq, exec_program] at hok ⊢
  have haccepts := (effect_ok_iff _ _ _).mp hok
  obtain ⟨hchain, x509, hx, hadm, k, hk⟩ := judge_accepts_iff.mp haccepts
  have hk' : evaluate (verifyBindingFromLeafCert B p.leaf) w.cert.bindingPolicy = .ok k := by
    rwa [verifyBindingFromLeafCert, hx]
  have hplain := exec_verifyPlain hchain hx hadm hk' h
  refine ⟨x509, k, hx, hk', by rw [hplain], ?_⟩
  rw [hplain]
  cases hd : judge B w.usage w.cert p.leaf p.intermediates p.now with
  | refusedUnseen e =>
    rw [hd] at haccepts
    exact haccepts.elim
  | refusedSeen id e =>
    rw [hd] at haccepts
    exact haccepts.elim
  | accepted id key =>
    obtain ⟨x509', hx', rfl, hkey⟩ := judge_accepted hd
    obtain rfl : x509 = x509' := Except.ok.inj (hx.symm.trans hx')
    rcases hkey with ⟨hoff, rfl⟩ | ⟨hoff, k', rfl, hk''⟩
    · rw [if_pos hoff]
      rfl
    · obtain rfl : k = k' := Except.ok.inj (hk.symm.trans hk'')
      rw [if_neg hoff]
      rfl

theorem run_storeBlsPub_none {cell : Cell} {h : Heap} (hnone : h.blsPub cell = none) :
    (Heap.run (.storeBlsPub cell none) h).2 = h := by
  have hupdate : Function.update h.blsPub cell none = h.blsPub := by rw [← hnone, Function.update_eq_self]
  simp only [Heap.run, hupdate]

/-- After an accepted call the cells describe its leaf, as after the plain path, just if the policy
looks at bindings or there was no key in the cell. -/
theorem accepted_cells_describe_iff {w : PeerVerifier} {p : Presentation} {h : Heap}
    (hok : (exec cells (w.verify B p) h).1 = .ok ()) :
    (Describes B w.cert p.leaf (exec cells (w.verify B p) h).2 ∧
      (exec cells (w.verify B p) h).2 = (exec cells (w.verifyPlain B p) h).2) ↔
      (w.cert.bindingPolicy ≠ .off ∨ w.cert.capturedBls.get h = none) := by
  obtain ⟨x509, k, hx, hk, hplain, hstate⟩ := exec_verify_accepted hok
  have hdescribes : ∀ t, w.cert.captured.get t = some (peerIdFromTlsSpkiDer B x509.subjectPki) →
      (Describes B w.cert p.leaf t ↔ w.cert.capturedBls.get t = k) := by
    intro t ht
    constructor
    · rintro ⟨_, _, _, hget⟩
      exact Except.ok.inj (hget.symm.trans hk)
    · rintro rfl
      exact ⟨x509, hx, ht, hk⟩
  have hpeer : w.cert.captured.get (Heap.run (.storePeerId w.cert.captured.cell
      (some (peerIdFromTlsSpkiDer B x509.subjectPki))) h).2 = some (peerIdFromTlsSpkiDer B x509.subjectPki) :=
    Function.update_self ..
  have hkept : w.cert.capturedBls.get (Heap.run (.storePeerId w.cert.captured.cell
      (some (peerIdFromTlsSpkiDer B x509.subjectPki))) h).2 = w.cert.capturedBls.get h := rfl
  rw [hstate, hplain]
  generalize (Heap.run (.storePeerId w.cert.captured.cell (some (peerIdFromTlsSpkiDer B x509.subjectPki))) h).2 =
    seen at hpeer hkept ⊢
  by_cases hoff : w.cert.bindingPolicy = .off
  · have hk' : k = none := by
      rw [hoff] at hk
      exact (Except.ok.inj hk).symm
    subst hk'
    rw [if_pos hoff, hdescribes _ hpeer, hkept]
    constructor
    · exact fun hboth => Or.inr hboth.1
    · rintro (hne | hnone)
      · exact absurd hoff hne
      · exact ⟨hnone, (run_storeBlsPub_none (hkept.trans hnone)).symm⟩
  · rw [if_neg hoff]
    have hget : w.cert.capturedBls.get (Heap.run (.storeBlsPub w.cert.capturedBls.cell k) seen).2 = k :=
      Function.update_self ..
    have hboth := (hdescribes (Heap.run (.storeBlsPub w.cert.capturedBls.cell k) seen).2 hpeer).mpr hget
    exact iff_of_true ⟨hboth, rfl⟩ (Or.inl hoff)

def careless : PeerVerifier := .client (.newSpkiPinned none ⟨0⟩ .off ⟨0⟩)

def boundPeer : Presentation := ⟨toyLeaf 1 7, [], "peer.dig", [], 0⟩
def unboundPeer : Presentation := ⟨[2], [], "peer.dig", [], 0⟩

def afterBound : Heap := (exec cells (requiring.verify toyBackend boundPeer) noHeap).2

theorem accepted_cells_describe_iff_careless :
    (exec cells (careless.verify toyBackend unboundPeer) afterBound).1 = .ok () ∧
    ((Describes toyBackend careless.cert unboundPeer.leaf
        (exec cells (careless.verify toyBackend unboundPeer) afterBound).2 ∧
      (exec cells (careless.verify toyBackend unboundPeer) afterBound).2 =
        (exec cells (careless.verifyPlain toyBackend unboundPeer) afterBound).2) ↔
      (careless.cert.bindingPolicy ≠ .off ∨ careless.cert.capturedBls.get afterBound = none)) := by
  have hok : (exec cells (careless.verify toyBackend unboundPeer) afterBound).1 = .ok () := by decide +kernel
  exact ⟨hok, accepted_cells_describe_iff hok⟩

/-- The key of the bound leaf stands beside the peer id of the unbound one. -/
theorem stale_key_after_accepted_call :
    (exec cells (requiring.verify toyBackend boundPeer) noHeap).1 = .ok () ∧
    (exec cells (careless.verify toyBackend unboundPeer) afterBound).1 = .ok () ∧
    careless.cert.captured.get (exec cells (careless.verify toyBackend unboundPeer) afterBound).2 =
      peerIdFromLeafCertDer toyBackend unboundPeer.leaf ∧
    careless.cert.capturedBls.get (exec cells (careless.verify toyBackend unboundPeer) afterBound).2 =
      some (List.Vector.replicate 48 7) ∧
    ¬ Describes toyBackend careless.cert unboundPeer.leaf
      (exec cells (careless.verify toyBackend unboundPeer) afterBound).2 := by
  have hkey : careless.cert.capturedBls.get (exec cells (careless.verify toyBackend unboundPeer)
      afterBound).2 = some (List.Vector.replicate 48 7) := by decide +kernel
  refine ⟨by decide +kernel, by decide +kernel, by decide +kernel, hkey, ?_⟩
  rintro ⟨_, _, _, heval⟩
  rw [hkey] at heval
  cases heval

end DigTls
