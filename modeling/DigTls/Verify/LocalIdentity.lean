import DigTls.Store.Directory
import DigTls.Verify.Acceptance

/-! # The identity a peer reports of itself

The peer id of an identity is computed from its key, and by other peers from the certificate it
presents. Every way to build an identity ends in the check that these agree, so a pin on it neither
refuses the right leaf nor admits another one.
-/
namespace DigTls
open EffectPrograms PosixVolume
variable {B : Backend} {node : NodeCert}

/-- What the identity reports of itself is what others derive from the leaf it presents. -/
structure WireIdentity (B : Backend) (node : NodeCert) : Prop where
  spki : node.peerId = peerIdFromTlsSpkiDer B node.spkiDer
  chain : node.rustlsCertChain = [node.certDer]
  leaf : ∀ leaf ∈ node.rustlsCertChain, peerIdFromLeafCertDer B leaf = some node.peerId

/-- A pair of texts gives an identity exactly if the key parses and the first certificate certifies
it. -/
theorem fromPem_accepts_iff (certPem keyPem : String) :
    (∃ node, NodeCert.fromPem B certPem keyPem = .ok node) ↔
      ∃ key certDer x509, B.keyPairFromPem keyPem = .ok key ∧
        (B.certs (asBytes certPem)).head? = some (.ok certDer) ∧
        B.parseX509Certificate certDer = .ok x509 ∧ x509.subjectPki = B.publicKeyDer key := by
  constructor
  · rintro ⟨node, hnode⟩
    obtain ⟨key, hkey, hparts⟩ := bind_eq_ok.mp hnode
    obtain ⟨der, x509, hcert, hx, hspki, _⟩ := NodeCert.fromParts_eq_ok.mp hparts
    exact ⟨key, der, x509, mapError_eq_ok.mp hkey, hcert, hx, hspki⟩
  · rintro ⟨key, der, x509, hkey, hcert, hx, hspki⟩
    have hparts : ∃ node, NodeCert.fromParts B certPem keyPem key = .ok node :=
      ⟨_, NodeCert.fromParts_eq_ok.mpr ⟨der, x509, hcert, hx, hspki, rfl⟩⟩
    rwa [NodeCert.fromPem_eq hkey]

theorem wireIdentity_fromParts {certPem keyPem : String} {key : B.KeyPair}
    (h : NodeCert.fromParts B certPem keyPem key = .ok node) : WireIdentity B node := by
  obtain ⟨der, x509, _, hx, hspki, rfl⟩ := NodeCert.fromParts_eq_ok.mp h
  refine ⟨rfl, rfl, fun leaf hleaf => ?_⟩
  obtain rfl := List.mem_singleton.mp hleaf
  simp [peerIdFromLeafCertDer, hx, hspki]

theorem wireIdentity_fromPem {certPem keyPem : String} (h : NodeCert.fromPem B certPem keyPem = .ok node) :
    WireIdentity B node := by
  obtain ⟨key, _, hparts⟩ := bind_eq_ok.mp h
  exact wireIdentity_fromParts hparts

theorem wireIdentity_generateSignedBy {ca : DigCa B} {m : NodeCert.Minting B}
    (h : NodeCert.generateSignedBy ca m = .ok node) : WireIdentity B node := by
  obtain ⟨_, _, _, _, _, _, _, _, hparts⟩ := NodeCert.generateSignedBy_eq_ok.mp h
  exact wireIdentity_fromParts hparts

theorem wireIdentity_generateSigned {m : NodeCert.Minting B} (h : NodeCert.generateSigned B m = .ok node) :
    WireIdentity B node := by
  obtain ⟨ca, _, h⟩ := bind_eq_ok.mp h
  exact wireIdentity_generateSignedBy h

section Programs
variable {α β : Type}

theorem forall_any (p : Task α) : p.Forall (fun _ => True) fun _ => True := by
  induction p with
  | done a => exact trivial
  | raise e => exact trivial
  | call op next ih => exact ⟨trivial, ih⟩

theorem forall_after {p : Task α} {f : α → Task β} {A : β → Prop}
    (next : ∀ a, (f a).Forall (fun _ => True) A) : (p >>= f).Forall (fun _ => True) A :=
  (forall_any p).bind fun a _ => next a

theorem forall_loadSlot (slot : Slot) : (loadSlot B slot).Forall (fun _ => True) (WireIdentity B) :=
  forall_after fun _ => forall_after fun _ => Program.Forall.ofExcept fun _ => wireIdentity_fromPem

theorem forall_persistFresh (os : Platform) (h : WireIdentity B node) :
    (persistFresh os node).Forall (fun _ => True) (WireIdentity B) :=
  forall_after fun _ => forall_after fun _ => forall_after fun _ => forall_after fun _ => h

theorem forall_loadOrGenerate (os : Platform) (m : NodeCert.Minting B) :
    (loadOrGenerate os m).Forall (fun _ => True) (WireIdentity B) := by
  refine forall_after fun b => ?_
  cases b with
  | true => exact forall_loadSlot _
  | false =>
    refine Program.Forall.bind (A := WireIdentity B) (Program.Forall.ofExcept ?_) ?_
    · exact fun _ => wireIdentity_generateSigned
    · exact fun _ => forall_persistFresh os

theorem forall_rotate (os : Platform) (m : NodeCert.Minting B) : (rotate os m).Forall (fun _ => True)
    fun r => WireIdentity B r.previous ∧ WireIdentity B r.current := by
  refine forall_after fun b => ?_
  cases b with
  | false => exact trivial
  | true =>
    refine forall_after fun b => ?_
    cases b with
    | true => exact trivial
    | false =>
      refine (forall_loadSlot _).bind fun previous hprevious => ?_
      refine Program.Forall.bind (A := WireIdentity B) (Program.Forall.ofExcept ?_) fun current hcurrent => ?_
      · exact fun _ => wireIdentity_generateSigned
      · refine forall_after fun _ => forall_after fun _ => forall_after fun _ => forall_after fun _ => ?_
        exact forall_after fun _ => ⟨hprevious, hcurrent⟩

theorem forall_loadPrevious : (loadPrevious B).Forall (fun _ => True)
    fun r => ∀ node, r = some node → WireIdentity B node := by
  refine forall_after fun b => ?_
  cases b with
  | false => exact fun _ h => by cases h
  | true =>
    refine (forall_loadSlot _).bind fun node hnode => ?_
    rintro _ ⟨⟩
    exact hnode

end Programs

/-- The ways to come by an identity, on any platform and whatever the file system does. -/
inductive Returned (B : Backend) : NodeCert → Prop
  | generateSignedBy {ca : DigCa B} {m : NodeCert.Minting B} {node : NodeCert}
      (h : NodeCert.generateSignedBy ca m = .ok node) : Returned B node
  | fromPem {certPem keyPem : String} {node : NodeCert} (h : NodeCert.fromPem B certPem keyPem = .ok node) :
      Returned B node
  | loadOrGenerate {σ : Type} {M : Machine (Op String) Op.Res σ} {os : Platform} {m : NodeCert.Minting B}
      {s t : σ} {trace : List (Op String)} {node : NodeCert}
      (h : Outcome M (DigTls.loadOrGenerate os m) s trace (some (.ok node)) t) : Returned B node
  | rotate {σ : Type} {M : Machine (Op String) Op.Res σ} {os : Platform} {m : NodeCert.Minting B} {s t : σ}
      {trace : List (Op String)} {r : RotatedNodeCert} {node : NodeCert}
      (h : Outcome M (DigTls.rotate os m) s trace (some (.ok r)) t) (hnode : node = r.previous ∨ node = r.current) :
      Returned B node
  | loadPrevious {σ : Type} {M : Machine (Op String) Op.Res σ} {s t : σ} {trace : List (Op String)}
      {node : NodeCert} (h : Outcome M (DigTls.loadPrevious B) s trace (some (.ok (some node))) t) :
      Returned B node

theorem Returned.wireIdentity (h : Returned B node) : WireIdentity B node := by
  cases h with
  | generateSignedBy h => exact wireIdentity_generateSignedBy h
  | fromPem h => exact wireIdentity_fromPem h
  | loadOrGenerate h => exact (h.forall (forall_loadOrGenerate _ _)).2 _ rfl
  | rotate h hnode =>
    obtain ⟨hprevious, hcurrent⟩ := (h.forall (forall_rotate _ _)).2 _ rfl
    rcases hnode with rfl | rfl
    · exact hprevious
    · exact hcurrent
  | loadPrevious h => exact (h.forall forall_loadPrevious).2 _ rfl _ rfl

def CertVerifier.pinnedTo (v : CertVerifier) (expected : Option PeerId) : CertVerifier :=
  { v with expected := expected }

/-- On the identity's own leaf a pin to its peer id makes no difference. -/
theorem WireIdentity.judge_own (h : WireIdentity B node) (usage : KeyUsage) (v : CertVerifier) {leaf : Bytes}
    (hleaf : leaf ∈ node.rustlsCertChain) (intermediates : List Bytes) (now : Time) :
    judge B usage (v.pinnedTo (some node.peerId)) leaf intermediates now =
      judge B usage (v.pinnedTo none) leaf intermediates now := by
  have hseen : judgeSeen B (v.pinnedTo (some node.peerId)) leaf node.peerId =
      judgeSeen B (v.pinnedTo none) leaf node.peerId := by
    simp only [judgeSeen, CertVerifier.pinnedTo, admits_some, admits_none, if_true]
    rfl
  simp only [judge, h.leaf leaf hleaf, hseen]
  rfl

theorem WireIdentity.judge_other (h : WireIdentity B node) (usage : KeyUsage) (v : CertVerifier) {leaf : Bytes}
    (hleaf : leaf ∈ node.rustlsCertChain) (intermediates : List Bytes) (now : Time) {other : PeerId}
    (hother : other ≠ node.peerId)
    (hchain : v.requireCaChain = true → verifyChainToDigCa B leaf intermediates now usage = .ok ()) :
    judge B usage (v.pinnedTo (some other)) leaf intermediates now =
      .refusedSeen node.peerId (mismatch other node.peerId) := by
  have hseen : judgeSeen B (v.pinnedTo (some other)) leaf node.peerId =
      .refusedSeen node.peerId (mismatch other node.peerId) := by
    simp [judgeSeen, CertVerifier.pinnedTo, hother.symm]
  simp only [judge, h.leaf leaf hleaf, hseen]
  cases hc : v.requireCaChain with
  | false => simp [CertVerifier.pinnedTo, hc]
  | true => simp [CertVerifier.pinnedTo, hc, hchain hc]

/-- Each text pair that passes the check, and each identity any operation returns: its peer id is
the digest of its SPKI and the one read off its leaf; on that leaf a verifier pinned to it does what
it would do unpinned, and one pinned to another id refuses the leaf for the pin. -/
theorem local_and_wire_identity_agree :
    (∀ certPem keyPem, (∃ node, NodeCert.fromPem B certPem keyPem = .ok node) ↔
      ∃ key certDer x509, B.keyPairFromPem keyPem = .ok key ∧
        (B.certs (asBytes certPem)).head? = some (.ok certDer) ∧
        B.parseX509Certificate certDer = .ok x509 ∧ x509.subjectPki = B.publicKeyDer key) ∧
    ∀ node, Returned B node → WireIdentity B node ∧
      ∀ usage (v : CertVerifier), ∀ leaf ∈ node.rustlsCertChain, ∀ intermediates now,
        verifyCert B usage (v.pinnedTo (some node.peerId)) leaf intermediates now =
          verifyCert B usage (v.pinnedTo none) leaf intermediates now ∧
        ∀ other, other ≠ node.peerId → ∀ h : Heap,
          (exec cells (verifyCert B usage (v.pinnedTo (some other)) leaf intermediates now) h).1 ≠ .ok () ∧
          ((v.requireCaChain = true → verifyChainToDigCa B leaf intermediates now usage = .ok ()) →
            (exec cells (verifyCert B usage (v.pinnedTo (some other)) leaf intermediates now) h).1 =
              .error (mismatch other node.peerId)) := by
  refine ⟨fromPem_accepts_iff, fun node hnode => ⟨hnode.wireIdentity, ?_⟩⟩
  intro usage v leaf hleaf intermediates now
  have hwire := hnode.wireIdentity
  constructor
  · have hown := hwire.judge_own usage v hleaf intermediates now
    rw [verifyCert_eq, verifyCert_eq, hown]
    rfl
  · intro other hother h
    have hrefused : (v.requireCaChain = true → verifyChainToDigCa B leaf intermediates now usage = .ok ()) →
        (exec cells (verifyCert B usage (v.pinnedTo (some other)) leaf intermediates now) h).1 =
          .error (mismatch other node.peerId) := by
      intro hchain
      rw [verifyCert_eq, exec_program, hwire.judge_other usage v hleaf intermediates now hother hchain]
      rfl
    refine ⟨fun hok => ?_, hrefused⟩
    have haccepts := hok
    rw [verifyCert_eq, exec_program, effect_ok_iff, judge_accepts_iff] at haccepts
    obtain ⟨hchain, _⟩ := haccepts
    rw [hrefused fun hc => verifyChainToDigCa_ok_iff.mpr (hchain hc)] at hok
    cases hok

theorem local_and_wire_identity_agree_toy : ∃ node, NodeCert.fromPem toyBackend "c\x01" "k\x01" = .ok node ∧
    WireIdentity toyBackend node := by
  have hparsed : ∃ node, NodeCert.fromPem toyBackend "c\x01" "k\x01" = .ok node :=
    ⟨⟨"c\x01", "k\x01", [1], [1], [1], ⟨List.Vector.replicate 32 1⟩⟩, by decide +kernel⟩
  obtain ⟨node, hnode⟩ := hparsed
  exact ⟨node, hnode, (local_and_wire_identity_agree.2 node (.fromPem hnode)).1⟩

end DigTls
