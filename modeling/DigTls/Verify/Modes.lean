import DigTls.Verify.Acceptance

/-! # The two verifier modes

The SPKI-pinned mode leaves out the whole path validation. That drops the issuer, and with it the
validity windows and the key usage, which are looked at nowhere else.
-/
namespace DigTls
open EffectPrograms PosixVolume
variable {B : Backend}

/-- What `verify_for_usage` decides: some signature path leads from the leaf to an anchor, every
certificate on it is valid at the time, the leaf included, and the leaf admits the usage. -/
structure PathValidation (B : Backend) where
  /-- The issuers between the leaf and the anchor. -/
  Path : B.EndEntity → List B.Anchor → List Bytes → List Bytes → Prop
  issuerValid : Bytes → Time → Prop
  leafValid : B.EndEntity → Time → Prop
  admits : B.EndEntity → KeyUsage → Prop
  verify_iff : ∀ ee anchors intermediates now usage,
    B.verifyForUsage ee chainSigAlgs anchors intermediates now usage = .ok () ↔
      (∃ issuers, Path ee anchors intermediates issuers ∧ ∀ issuer ∈ issuers, issuerValid issuer now) ∧
        leafValid ee now ∧ admits ee usage

variable (W : PathValidation B)

def SignedByDigCa (leaf : Bytes) (intermediates : List Bytes) (ee : B.EndEntity) (issuers : List Bytes) : Prop :=
  ∃ ca anchor, embeddedCaCertDer B = .ok ca ∧ B.anchorFromTrustedCert ca = .ok anchor ∧
    B.endEntityTryFrom leaf = .ok ee ∧ W.Path ee [anchor] intermediates issuers

/-- On some signature path to the shipped authority every certificate is valid at the time, and the leaf
admits the usage. -/
def InForce (usage : KeyUsage) (leaf : Bytes) (intermediates : List Bytes) (now : Time) : Prop :=
  ∃ ee issuers, SignedByDigCa W leaf intermediates ee issuers ∧
    (∀ issuer ∈ issuers, W.issuerValid issuer now) ∧ W.leafValid ee now ∧ W.admits ee usage

theorem chainsToDigCa_iff {usage : KeyUsage} {leaf : Bytes} {intermediates : List Bytes} {now : Time} :
    ChainsToDigCa B usage leaf intermediates now ↔ InForce W usage leaf intermediates now := by
  constructor
  · rintro ⟨ca, anchor, ee, hca, hanchor, hee, hverify⟩
    obtain ⟨⟨issuers, hpath, hissuers⟩, hleaf, husage⟩ := (W.verify_iff ..).mp hverify
    exact ⟨ee, issuers, ⟨ca, anchor, hca, hanchor, hee, hpath⟩, hissuers, hleaf, husage⟩
  · rintro ⟨ee, issuers, ⟨ca, anchor, hca, hanchor, hee, hpath⟩, hissuers, hleaf, husage⟩
    exact ⟨ca, anchor, ee, hca, hanchor, hee, (W.verify_iff ..).mpr ⟨⟨issuers, hpath, hissuers⟩, hleaf, husage⟩⟩

instance (d : Decision) : Decidable d.Accepts :=
  match d with
  | .accepted _ _ => isTrue trivial
  | .refusedUnseen _ => isFalse id
  | .refusedSeen _ _ => isFalse id

theorem verifyCert_accepts_iff {usage : KeyUsage} {v : CertVerifier} {leaf : Bytes}
    {intermediates : List Bytes} {now : Time} {h : Heap} :
    (exec cells (verifyCert B usage v leaf intermediates now) h).1 = .ok () ↔
      (judge B usage v leaf intermediates now).Accepts := by
  rw [verifyCert_eq, exec_program, effect_ok_iff]

def CertVerifier.spkiPinned (v : CertVerifier) : CertVerifier := { v with requireCaChain := false }

/-- Requiring the chain adds the path validation to what the pinned mode asks, and nothing else. -/
theorem judge_accepts_pinned {usage : KeyUsage} {v : CertVerifier} {leaf : Bytes} {intermediates : List Bytes}
    {now : Time} (hv : v.requireCaChain = true) :
    (judge B usage v leaf intermediates now).Accepts ↔
      (judge B usage v.spkiPinned leaf intermediates now).Accepts ∧ InForce W usage leaf intermediates now := by
  rw [judge_accepts_iff, judge_accepts_iff, chainsToDigCa_iff W]
  simp [CertVerifier.spkiPinned, hv, and_comm]

section Modes
variable (expected : Option PeerId) (captured : CapturedPeerId) (policy : BindingPolicy)
  (capturedBls : CapturedBlsPub) (leaf : Bytes) (intermediates : List Bytes) (name : String)
  (ocsp : Bytes) (now : Time) (h : Heap)

/-- On either side the CA-requiring verifier accepts exactly the leaves that the pinned one accepts
and that have a path to the shipped authority which is in force: all of it valid now, and good for
the side's usage. The pinned decision is the same at all times, for all intermediates, on both
sides. -/
theorem verifier_modes_differ_in_path :
    ((exec cells ((DigServerCertVerifier.new expected captured policy capturedBls).verifyServerCert
        B leaf intermediates name ocsp now) h).1 = .ok () ↔
      (exec cells ((DigServerCertVerifier.newSpkiPinned expected captured policy
          capturedBls).verifyServerCert B leaf intermediates name ocsp now) h).1 = .ok () ∧
        InForce W .serverAuth leaf intermediates now) ∧
    ((exec cells ((DigClientCertVerifier.new expected captured policy capturedBls).verifyClientCert
        B leaf intermediates now) h).1 = .ok () ↔
      (exec cells ((DigClientCertVerifier.newSpkiPinned expected captured policy
          capturedBls).verifyClientCert B leaf intermediates now) h).1 = .ok () ∧
        InForce W .clientAuth leaf intermediates now) ∧
    ∀ intermediates' now', (exec cells ((DigServerCertVerifier.newSpkiPinned expected captured policy
          capturedBls).verifyServerCert B leaf intermediates name ocsp now) h).1 = .ok () ↔
      (exec cells ((DigClientCertVerifier.newSpkiPinned expected captured policy
          capturedBls).verifyClientCert B leaf intermediates' now') h).1 = .ok () := by
  refine ⟨?_, ?_, fun intermediates' now' => ?_⟩
  · exact verifyCert_accepts_iff.trans ((judge_accepts_pinned W rfl).trans
      (and_congr_left fun _ => verifyCert_accepts_iff.symm))
  · exact verifyCert_accepts_iff.trans ((judge_accepts_pinned W rfl).trans
      (and_congr_left fun _ => verifyCert_accepts_iff.symm))
  · exact verifyCert_accepts_iff.trans verifyCert_accepts_iff.symm

end Modes

def datedBackend : Backend :=
  { toyBackend with
    verifyForUsage := fun _ _ _ _ now usage =>
      if (0 ≤ now ∧ now ≤ 10) ∧ usage = .serverAuth then .ok () else .error "CertExpired" }

def datedPaths : PathValidation datedBackend where
  Path _ _ _ issuers := issuers = []
  issuerValid _ _ := True
  leafValid _ now := 0 ≤ now ∧ now ≤ 10
  admits _ usage := usage = .serverAuth
  verify_iff ee anchors intermediates now usage := by
    by_cases h : (0 ≤ now ∧ now ≤ 10) ∧ usage = .serverAuth
    · simp [datedBackend, h]
    · simp [datedBackend, h]

theorem datedPaths_toyLeaf : ∃ ee issuers, SignedByDigCa datedPaths (toyLeaf 1 7) [] ee issuers :=
  ⟨toyLeaf 1 7, [], asBytes digCaCertPem, asBytes digCaCertPem, toy_embeddedCaCertDer rfl, rfl, rfl, rfl⟩

theorem dated_pinned (usage : KeyUsage) (v : CertVerifier) (now : Time)
    (hv : v = ⟨none, ⟨0⟩, .off, ⟨0⟩, false⟩) : (judge datedBackend usage v (toyLeaf 1 7) [] now).Accepts := by
  subst hv
  exact trivial

theorem dated_refused {usage : KeyUsage} {v : CertVerifier} {now : Time} (hv : v.requireCaChain = true)
    (hnot : ¬ ((0 ≤ now ∧ now ≤ 10) ∧ usage = .serverAuth)) :
    ¬ (judge datedBackend usage v (toyLeaf 1 7) [] now).Accepts := by
  intro haccepts
  obtain ⟨_, _, _, _, _, hleaf, husage⟩ := (judge_accepts_pinned datedPaths hv).mp haccepts
  exact hnot ⟨hleaf, husage⟩

def noPeers : Heap := ⟨fun _ => none, fun _ => none⟩

theorem verifier_modes_differ_in_path_dated :
    (exec cells ((DigServerCertVerifier.new none ⟨0⟩ .off ⟨0⟩).verifyServerCert datedBackend (toyLeaf 1 7) []
      "peer.dig" [] 5) noPeers).1 = .ok () ∧
    (exec cells ((DigServerCertVerifier.new none ⟨0⟩ .off ⟨0⟩).verifyServerCert datedBackend (toyLeaf 1 7) []
      "peer.dig" [] 11) noPeers).1 ≠ .ok () := by
  have hmodes := fun now => (verifier_modes_differ_in_path datedPaths none ⟨0⟩ .off ⟨0⟩ (toyLeaf 1 7) [] "peer.dig" []
    now noPeers).1
  constructor
  · obtain ⟨ee, issuers, hsigned⟩ := datedPaths_toyLeaf
    have hforce : InForce datedPaths .serverAuth (toyLeaf 1 7) [] 5 :=
      ⟨ee, issuers, hsigned, fun _ _ => trivial, ⟨by decide, by decide⟩, rfl⟩
    exact (hmodes 5).mpr ⟨verifyCert_accepts_iff.mpr (dated_pinned _ _ _ rfl), hforce⟩
  · intro haccepts
    obtain ⟨_, _, _, _, _, hvalid, _⟩ := (hmodes 11).mp haccepts
    exact absurd hvalid.2 (by decide)

/-- A leaf of the shipped authority that has expired, one that is not valid yet, and one that is not
meant for the side it is used on: the pinned verifiers accept it, the others do not. -/
theorem verifier_modes_disagree :
    (∃ ee issuers, SignedByDigCa datedPaths (toyLeaf 1 7) [] ee issuers) ∧
    (∀ now ∈ ([11, -1] : List Time),
      (exec cells ((DigServerCertVerifier.newSpkiPinned none ⟨0⟩ .off ⟨0⟩).verifyServerCert
        datedBackend (toyLeaf 1 7) [] "peer.dig" [] now) noPeers).1 = .ok () ∧
      (exec cells ((DigServerCertVerifier.new none ⟨0⟩ .off ⟨0⟩).verifyServerCert
        datedBackend (toyLeaf 1 7) [] "peer.dig" [] now) noPeers).1 ≠ .ok ()) ∧
    (exec cells ((DigClientCertVerifier.newSpkiPinned none ⟨0⟩ .off ⟨0⟩).verifyClientCert
      datedBackend (toyLeaf 1 7) [] 5) noPeers).1 = .ok () ∧
    (exec cells ((DigClientCertVerifier.new none ⟨0⟩ .off ⟨0⟩).verifyClientCert
      datedBackend (toyLeaf 1 7) [] 5) noPeers).1 ≠ .ok () := by
  refine ⟨datedPaths_toyLeaf, fun now hnow => ⟨?_, ?_⟩, ?_, ?_⟩
  · exact verifyCert_accepts_iff.mpr (dated_pinned _ _ _ rfl)
  · refine verifyCert_accepts_iff.not.mpr (dated_refused rfl ?_)
    rcases List.mem_pair.mp hnow with rfl | rfl
    · decide
    · decide
  · exact verifyCert_accepts_iff.mpr (dated_pinned _ _ _ rfl)
  · exact verifyCert_accepts_iff.not.mpr (dated_refused rfl (by simp))

end DigTls
