import DigTls.Verify.Acceptance

/-! # Bindings of a version this verifier does not know

The parser answers a value of an unknown version as it answers a malformed one, with no
binding; its comment asks that such a leaf count as unbound and not as tampered with. The
leaf check turns that answer into an invalid outcome, which every policy but `Off` rejects.
-/
namespace DigTls
open EffectPrograms
variable {B : Backend}

/-- A leaf whose first binding extension is of a version other than 1. -/
def UnknownVersion (x509 : X509) : Prop :=
  ∃ version rest, bindingValue x509 = some (version :: rest) ∧ version ≠ bindingVersionV1

/-- `plain` is the same leaf without a binding extension. -/
def Unbound (B : Backend) (x509 : X509) (plain : Bytes) : Prop :=
  ∃ y, B.parseX509Certificate plain = .ok y ∧ y.subjectPki = x509.subjectPki ∧ bindingValue y = none

/-- The pin admits the leaf, and its chain is valid where the verifier asks for it. -/
def Fits (B : Backend) (usage : KeyUsage) (v : CertVerifier) (leaf : Bytes) (x509 : X509)
    (intermediates : List Bytes) (now : Time) : Prop :=
  Admits v.expected (peerIdFromTlsSpkiDer B x509.subjectPki) ∧
    (v.requireCaChain = true → ChainsToDigCa B usage leaf intermediates now)

/-- The verifier treats the leaf as one that carries no binding it understands: accepted
under `Opportunistic`, if pin and chain are in order, with no key captured, as the leaf without
the extension is, and rejected under `Required`. -/
def TreatsAsUnbound (B : Backend) (usage : KeyUsage) (v : CertVerifier) (leaf : Bytes) (x509 : X509)
    (intermediates : List Bytes) (now : Time) (h : Heap) : Prop :=
  let result := exec cells (verifyCert B usage v leaf intermediates now) h
  match v.bindingPolicy with
  | .off => True
  | .opportunistic => Fits B usage v leaf x509 intermediates now →
      result.1 = .ok () ∧ v.capturedBls.get result.2 = none ∧
      ∀ plain, Unbound B x509 plain →
        (v.requireCaChain = true → ChainsToDigCa B usage plain intermediates now) →
        exec cells (verifyCert B usage v plain intermediates now) h = result
  | .required => ∃ e, result.1 = .error e

theorem verifyBinding_unknownVersion {x509 : X509} (h : UnknownVersion x509) :
    verifyBinding B x509 = .invalid "binding extension malformed or unknown version" := by
  obtain ⟨version, rest, hval, hver⟩ := h
  have hparse : parseBindingExtensionValue (version :: rest) = none := by
    unfold parseBindingExtensionValue
    rw [dif_neg]
    intro hv
    exact hver (by simpa using hv.1)
  simp [verifyBinding, hval, hparse]

/-- Whatever the pin and the chain say, a leaf of an unknown version is rejected by every
policy that looks at bindings. -/
theorem judge_unknownVersion {usage : KeyUsage} {v : CertVerifier} {leaf : Bytes} {x509 : X509}
    {intermediates : List Bytes} {now : Time} (hx : B.parseX509Certificate leaf = .ok x509)
    (hver : UnknownVersion x509) (hpol : v.bindingPolicy ≠ .off) :
    ¬ (judge B usage v leaf intermediates now).Accepts := by
  rw [judge_accepts_iff]
  rintro ⟨_, y, hy, _, k, hk⟩
  cases hx.symm.trans hy
  rw [verifyBinding_unknownVersion hver] at hk
  rcases evaluate_ok_iff.mp hk with ⟨hoff, _⟩ | ⟨_, b, hb, _⟩ | ⟨_, habs, _⟩
  · exact hpol hoff
  · cases hb
  · cases habs

theorem treatsAsUnbound_iff {usage : KeyUsage} {v : CertVerifier} {leaf : Bytes} {x509 : X509}
    {intermediates : List Bytes} {now : Time} {h : Heap}
    (hx : B.parseX509Certificate leaf = .ok x509) (hver : UnknownVersion x509) :
    TreatsAsUnbound B usage v leaf x509 intermediates now h ↔
      ¬ (v.bindingPolicy = .opportunistic ∧ Fits B usage v leaf x509 intermediates now) := by
  have hreject : v.bindingPolicy ≠ .off →
      (exec cells (verifyCert B usage v leaf intermediates now) h).1 ≠ .ok () := by
    intro hpol
    rw [verifyCert_eq, exec_program, Ne, effect_ok_iff]
    exact judge_unknownVersion hx hver hpol
  unfold TreatsAsUnbound
  cases hpol : v.bindingPolicy with
  | off => simp
  | opportunistic =>
    have hno := hreject (by simp [hpol])
    simp [hno]
  | required =>
    have hno := hreject (by simp [hpol])
    cases hr : (exec cells (verifyCert B usage v leaf intermediates now) h).1 with
    | ok => exact absurd hr hno
    | error e => simp [hr]

/-- Every verifier treats a leaf of an unknown version as unbound, but for an opportunistic one whose
pin and chain are in order: it rejects the leaf all the same. -/
theorem unknown_version_unbound_iff (v : DigServerCertVerifier) (w : DigClientCertVerifier)
    (leaf : Bytes) (x509 : X509) (intermediates : List Bytes) (now : Time) (h : Heap)
    (hx : B.parseX509Certificate leaf = .ok x509) (hver : UnknownVersion x509) :
    (TreatsAsUnbound B .serverAuth v.toCertVerifier leaf x509 intermediates now h ↔
      ¬ (v.bindingPolicy = .opportunistic ∧ Fits B .serverAuth v.toCertVerifier leaf x509 intermediates now)) ∧
    (TreatsAsUnbound B .clientAuth w.toCertVerifier leaf x509 intermediates now h ↔
      ¬ (w.bindingPolicy = .opportunistic ∧ Fits B .clientAuth w.toCertVerifier leaf x509 intermediates now)) :=
  ⟨treatsAsUnbound_iff hx hver, treatsAsUnbound_iff hx hver⟩

def futureLeaf : X509 := ⟨[1], [⟨digBlsBindingOidStr, [2]⟩]⟩

theorem futureLeaf_unknown : UnknownVersion futureLeaf := ⟨2, [], rfl, by decide⟩

theorem futureLeaf_fits (policy : BindingPolicy) :
    Fits toyBackend .serverAuth (DigServerCertVerifier.newSpkiPinned none ⟨0⟩ policy ⟨0⟩).toCertVerifier [1, 2]
      futureLeaf [] 0 :=
  ⟨admits_none _, fun hchain => Bool.noConfusion hchain⟩

theorem unknown_version_unbound_iff_futureLeaf :
    TreatsAsUnbound toyBackend .serverAuth (DigServerCertVerifier.newSpkiPinned none ⟨0⟩ .required ⟨0⟩).toCertVerifier
      [1, 2] futureLeaf [] 0 ⟨fun _ => none, fun _ => none⟩ ∧
    ¬ TreatsAsUnbound toyBackend .serverAuth
      (DigServerCertVerifier.newSpkiPinned none ⟨0⟩ .opportunistic ⟨0⟩).toCertVerifier
      [1, 2] futureLeaf [] 0 ⟨fun _ => none, fun _ => none⟩ := by
  have hiff := fun policy => (unknown_version_unbound_iff (B := toyBackend)
    (DigServerCertVerifier.newSpkiPinned none ⟨0⟩ policy ⟨0⟩) (DigClientCertVerifier.newSpkiPinned none ⟨0⟩ policy ⟨0⟩)
    [1, 2] futureLeaf [] 0 ⟨fun _ => none, fun _ => none⟩ rfl futureLeaf_unknown).1
  constructor
  · apply (hiff .required).mpr
    rintro ⟨hpolicy, -⟩
    cases hpolicy
  · intro htreats
    exact (hiff .opportunistic).mp htreats ⟨rfl, futureLeaf_fits .opportunistic⟩

/-- The leaf with value `02`, presented to an unpinned opportunistic verifier without a chain
requirement, is rejected as tampered with; without its extension it is accepted. -/
theorem unknown_version_rejected_by_opportunistic :
    toyParse [1, 2] = .ok futureLeaf ∧ UnknownVersion futureLeaf ∧
    (exec cells ((DigServerCertVerifier.newSpkiPinned none ⟨0⟩ .opportunistic ⟨0⟩).verifyServerCert
      toyBackend [1, 2] [] "peer.dig" [] 0) ⟨fun _ => none, fun _ => none⟩).1 =
      .error (rejectedBinding ⟨List.Vector.replicate 32 1⟩
        "binding extension malformed or unknown version") ∧
    (exec cells ((DigServerCertVerifier.newSpkiPinned none ⟨0⟩ .opportunistic ⟨0⟩).verifyServerCert
      toyBackend [1] [] "peer.dig" [] 0) ⟨fun _ => none, fun _ => none⟩).1 = .ok () ∧
    ¬ TreatsAsUnbound toyBackend .serverAuth
        (DigServerCertVerifier.newSpkiPinned none ⟨0⟩ .opportunistic ⟨0⟩).toCertVerifier [1, 2]
        futureLeaf [] 0 ⟨fun _ => none, fun _ => none⟩ := by
  refine ⟨rfl, futureLeaf_unknown, rfl, rfl, ?_⟩
  intro htreats
  obtain ⟨haccepts, _⟩ := htreats (futureLeaf_fits .opportunistic)
  cases haccepts

end DigTls
