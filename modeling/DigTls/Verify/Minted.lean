import DigTls.Peer.BindingCodec
import DigTls.Verify.LocalIdentity
import DigTls.Verify.Modes

/-! # Minted leaves are accepted

Minting and verifying share the OID, the value layout, the signed message and the validity window,
each written down once for either side. A leaf of one passes the other, as far as the crates that
write and read certificates agree on them.
-/
namespace DigTls
open EffectPrograms PosixVolume
variable {B : Backend}

def idString (oid : List ℕ) : String := ".".intercalate (oid.map toString)

def CustomExtension.parsed (e : CustomExtension) : Extension := ⟨idString e.oid, e.content⟩

def ReadsAs (cert : B.Certificate) (der : Bytes) (x509 : X509) : Prop :=
  (B.certs (asBytes (B.certificatePem cert))).head? = some (.ok der) ∧ B.parseX509Certificate der = .ok x509

/-- The public key is a point of the prime-order subgroup other than the identity. -/
def NonIdentity (B : Backend) (sk : B.SecretKey) : Prop :=
  ∃ point, B.p1Uncompress (publicKeyBytes B sk) = some point ∧ B.p1AffineIsInf point = false ∧
    B.p1AffineInG1 point = true

/-- A leaf as a minting has it signed, with the parameters it was signed with, and as it is read back. -/
structure SignedLeaf (ca : DigCa B) (m : NodeCert.Minting B) (key : B.KeyPair) (params : CertificateParams)
    (der : Bytes) (x509 : X509) : Prop where
  leafKey : m.leafKey = .ok key
  bound : ∃ fresh san, B.paramsNew [] = .ok fresh ∧ B.ia5TryFrom leafSan = .ok san ∧
    params = attachBinding B (NodeCert.leafParams fresh san m.now) key m.blsSk
  signed : ∃ cert, B.signedBy params key ca.cert ca.key = .ok cert ∧ ReadsAs cert der x509

/-- What a minting writes is read back, and the signatures of a key that can be bound verify. -/
structure CratesAgree (B : Backend) : Prop where
  keyText : ∀ key, B.keyPairFromPem (B.serializePem key) = .ok key
  noCustom : ∀ params, B.paramsNew [] = .ok params → params.customExtensions = []
  extensions : ∀ (ca : DigCa B) (m : NodeCert.Minting B) key params der x509, SignedLeaf ca m key params der x509 →
    x509.extensions.filter (·.oid == digBlsBindingOidStr) =
      (params.customExtensions.map CustomExtension.parsed).filter (·.oid == digBlsBindingOidStr)
  publicKeyBytes : ∀ sk, NonIdentity B sk →
    B.publicKeyFromBytes (B.publicKeyToBytes (B.publicKey sk)) = some (B.publicKey sk)
  signatureBytes : ∀ sk, NonIdentity B sk → ∀ msg,
    B.signatureFromBytes (B.signatureToBytes (B.augSign sk msg)) = some (B.augSign sk msg)
  genuine : ∀ sk, NonIdentity B sk → ∀ msg, B.augVerify (B.augSign sk msg) (B.publicKey sk) msg = true
  zeroInvalid : B.p1Uncompress g1Zero = none

/-- The shipped authority is a usable anchor. A leaf minted with it has a path to it of its own and is usable
as its parameters say, and is valid when they say, unless they begin before 1970, which webpki reads no
date from. -/
structure AnchorsItsLeaves (W : PathValidation B) : Prop where
  usable : ∃ caDer anchor, embeddedCaCertDer B = .ok caDer ∧ B.anchorFromTrustedCert caDer = .ok anchor
  signs : ∀ ca m key params der x509 caDer anchor, DigCa.embedded B = .ok ca → SignedLeaf ca m key params der x509 →
    embeddedCaCertDer B = .ok caDer → B.anchorFromTrustedCert caDer = .ok anchor →
    ∃ ee, B.endEntityTryFrom der = .ok ee ∧ (∀ intermediates, W.Path ee [anchor] intermediates []) ∧
      (0 ≤ params.notBefore → ∀ now, params.notBefore ≤ now → now ≤ params.notAfter → W.leafValid ee now) ∧
      ∀ usage ∈ params.extendedKeyUsages, W.admits ee usage

theorem idString_digBlsBindingOid : idString digBlsBindingOid = digBlsBindingOidStr := by decide +kernel

theorem subgroup_of_nonIdentity (L : CratesAgree B) {sk : B.SecretKey} (h : NonIdentity B sk) :
    g1SubgroupCheck B (publicKeyBytes B sk) = true := by
  obtain ⟨point, hpoint, hinf, hgroup⟩ := h
  have hne : publicKeyBytes B sk ≠ g1Zero := by
    intro hzero
    rw [hzero, L.zeroInvalid] at hpoint
    cases hpoint
  simp [g1SubgroupCheck, hne, hpoint, hinf, hgroup]

theorem verify_sign (L : CratesAgree B) {sk : B.SecretKey} (h : NonIdentity B sk) (msg : Bytes) :
    verifySignature B (publicKeyBytes B sk) msg (signMessage B sk msg) = true := by
  simp [verifySignature, publicKeyBytes, signMessage, L.publicKeyBytes sk h, L.signatureBytes sk h, L.genuine sk h]

theorem signedLeaf_of_minted {ca : DigCa B} {m : NodeCert.Minting B} {node : NodeCert}
    (hmint : NodeCert.generateSignedBy ca m = .ok node) :
    ∃ key params x509, SignedLeaf ca m key params node.certDer x509 ∧ x509.subjectPki = B.publicKeyDer key ∧
      node.peerId = peerIdFromTlsSpkiDer B (B.publicKeyDer key) := by
  obtain ⟨key, hkey, fresh, hfresh, san, hsan, cert, hcert, hparts⟩ := NodeCert.generateSignedBy_eq_ok.mp hmint
  obtain ⟨der, x509, hder, hx, hspki, rfl⟩ := NodeCert.fromParts_eq_ok.mp hparts
  exact ⟨key, _, x509, ⟨hkey, ⟨fresh, san, hfresh, hsan, rfl⟩, cert, hcert, hder, hx⟩, hspki, rfl⟩

/-- The value a minting puts under the binding OID is the one a verifier finds there. -/
theorem SignedLeaf.bindingValue (L : CratesAgree B) {ca : DigCa B} {m : NodeCert.Minting B} {key : B.KeyPair}
    {params : CertificateParams} {der : Bytes} {x509 : X509} (h : SignedLeaf ca m key params der x509) :
    bindingValue x509 = some (encodeBindingExtensionValue (publicKeyBytes B m.blsSk)
      (signMessage B m.blsSk (bindingMessage (B.publicKeyDer key)))) := by
  obtain ⟨fresh, san, hfresh, _, hparams⟩ := h.bound
  have hcustom : (NodeCert.leafParams fresh san m.now).customExtensions = [] := L.noCustom fresh hfresh
  have hext := L.extensions _ _ _ _ _ _ h
  rw [DigTls.bindingValue, ← List.head?_filter, hext, hparams]
  simp [attachBinding, hcustom, CustomExtension.parsed, idString_digBlsBindingOid]

theorem minted_bound (L : CratesAgree B) {ca : DigCa B} {m : NodeCert.Minting B} {node : NodeCert}
    (hsk : NonIdentity B m.blsSk) (hmint : NodeCert.generateSignedBy ca m = .ok node) :
    ∃ x509, B.parseX509Certificate node.certDer = .ok x509 ∧
      peerIdFromTlsSpkiDer B x509.subjectPki = node.peerId ∧
      verifyBinding B x509 = .bound (publicKeyBytes B m.blsSk) := by
  obtain ⟨key, params, x509, hleaf, hspki, hid⟩ := signedLeaf_of_minted hmint
  obtain ⟨cert, _, _, hx⟩ := hleaf.signed
  refine ⟨x509, hx, by rw [hspki, hid], verifyBinding_bound_iff.mpr ?_⟩
  refine ⟨_, _, hleaf.bindingValue L, ⟨parse_encode _ _, subgroup_of_nonIdentity L hsk, ?_⟩, rfl⟩
  rw [hspki]
  exact verify_sign L hsk _

/-- The authority is the shipped one, and path validation knows it. -/
def Shipped (ca : DigCa B) : Prop :=
  DigCa.embedded B = .ok ca ∧ ∃ W : PathValidation B, AnchorsItsLeaves W

/-- The leaf of a minting from 1970 on is valid from an hour before it to the end of the leaf's lifetime. -/
def NodeCert.Minting.InForce (m : NodeCert.Minting B) (now : Time) : Prop :=
  0 ≤ m.now - 3600 ∧ m.now - 3600 ≤ now ∧ now ≤ m.now + leafLifetime

theorem minted_chain {ca : DigCa B} {m : NodeCert.Minting B} {node : NodeCert} (hca : Shipped ca)
    (hmint : NodeCert.generateSignedBy ca m = .ok node) (usage : KeyUsage) (intermediates : List Bytes)
    {now : Time} (hnow : m.InForce now) :
    verifyChainToDigCa B node.certDer intermediates now usage = .ok () := by
  obtain ⟨hembedded, W, A⟩ := hca
  obtain ⟨hepoch, hlow, hhigh⟩ := hnow
  obtain ⟨key, params, x509, hleaf, _⟩ := signedLeaf_of_minted hmint
  obtain ⟨caDer, anchor, hcaDer, hanchor⟩ := A.usable
  obtain ⟨ee, hee, hpath, hvalid, hadmits⟩ := A.signs _ _ _ _ _ _ _ _ hembedded hleaf hcaDer hanchor
  obtain ⟨fresh, san, _, _, rfl⟩ := hleaf.bound
  rw [verifyChainToDigCa_ok_iff, chainsToDigCa_iff W]
  refine ⟨ee, [], ⟨caDer, anchor, hcaDer, hanchor, hee, hpath intermediates⟩, by simp,
    hvalid hepoch now hlow hhigh, ?_⟩
  apply hadmits
  cases usage <;> simp [attachBinding, NodeCert.leafParams]

/-- The verifier lets the leaf through and captures whose it is. -/
structure AcceptedAs (B : Backend) (w : PeerVerifier) (p : Presentation) (h : Heap) (id : PeerId)
    (blsPub : Octets 48) : Prop where
  accepted : (exec cells (w.verify B p) h).1 = .ok ()
  peerId : w.cert.captured.get (exec cells (w.verify B p) h).2 = some id
  bls : w.cert.bindingPolicy ≠ .off → w.cert.capturedBls.get (exec cells (w.verify B p) h).2 = some blsPub

theorem acceptedAs_of_judge {w : PeerVerifier} {p : Presentation} {h : Heap} {id : PeerId} {blsPub : Octets 48}
    (hjudge : judge B w.usage w.cert p.leaf p.intermediates p.now =
      .accepted id (if w.cert.bindingPolicy = .off then none else some (some blsPub))) :
    AcceptedAs B w p h id blsPub := by
  have hexec : exec cells (w.verify B p) h =
      Decision.effect w.cert h (.accepted id (if w.cert.bindingPolicy = .off then none else some (some blsPub))) := by
    rw [PeerVerifier.verify_eq, verifyCert_eq, exec_program, hjudge]
  by_cases hoff : w.cert.bindingPolicy = .off
  · rw [if_pos hoff] at hexec
    refine ⟨by rw [hexec]; rfl, ?_, fun hne => absurd hoff hne⟩
    rw [hexec]
    simp [Decision.effect, Heap.run, CapturedPeerId.get]
  · rw [if_neg hoff] at hexec
    refine ⟨by rw [hexec]; rfl, ?_, fun _ => ?_⟩
    · rw [hexec]
      simp [Decision.effect, Heap.run, CapturedPeerId.get]
    · rw [hexec]
      simp [Decision.effect, Heap.run, CapturedBlsPub.get]

/-- Where the verifier asks for the chain, the authority is the shipped one and the leaf is in force. -/
def LeafInForce (w : PeerVerifier) (ca : DigCa B) (m : NodeCert.Minting B) (now : Time) : Prop :=
  w.cert.requireCaChain = true → Shipped ca ∧ m.InForce now

/-- A minted leaf is accepted by every verifier that does not pin another peer. -/
theorem minted_accepted (L : CratesAgree B) {ca : DigCa B} {m : NodeCert.Minting B} {node : NodeCert}
    (hmint : NodeCert.generateSignedBy ca m = .ok node) (hsk : NonIdentity B m.blsSk) {w : PeerVerifier}
    {p : Presentation} {h : Heap} (hleaf : p.leaf = node.certDer) (hforce : LeafInForce w ca m p.now)
    (hpin : w.cert.expected = none ∨ w.cert.expected = some node.peerId) :
    AcceptedAs B w p h node.peerId (publicKeyBytes B m.blsSk) := by
  obtain ⟨x509, hx, hid, hbound⟩ := minted_bound L hsk hmint
  have hchain : (if w.cert.requireCaChain then verifyChainToDigCa B p.leaf p.intermediates p.now w.usage else .ok ()) =
      .ok () := by
    split
    · case isTrue hrequired =>
        obtain ⟨hshipped, hnow⟩ := hforce hrequired
        rw [hleaf]
        exact minted_chain hshipped hmint w.usage p.intermediates hnow
    · rfl
  have hadmits : Admits w.cert.expected node.peerId := by
    rcases hpin with hpin | hpin
    · rw [hpin]
      exact admits_none _
    · rw [hpin]
      exact (admits_some _ _).mpr rfl
  have hderived : peerIdFromLeafCertDer B p.leaf = some node.peerId := by
    simp [peerIdFromLeafCertDer, hleaf, hx, hid]
  apply acceptedAs_of_judge
  simp only [judge, hchain, hderived, judgeSeen, hadmits, if_true]
  split
  · rfl
  · case isFalse hon =>
      have hevaluate : evaluate (.bound (publicKeyBytes B m.blsSk)) w.cert.bindingPolicy =
          .ok (some (publicKeyBytes B m.blsSk)) :=
        evaluate_ok_iff.mpr (Or.inr (Or.inl ⟨hon, _, rfl, rfl⟩))
      simp [verifyBindingFromLeafCert, hleaf, hx, hbound, hevaluate]

theorem toyCerts_pem (der : Bytes) : toyCerts (asBytes (String.ofList ('c' :: der.map toyChar))) = [.ok der] := by
  have hback : der.map (fun b => UInt8.ofNat (toyChar b).toNat) = der := by
    conv_rhs => rw [← List.map_id der]
    exact List.map_congr_left fun b _ => toyChar_toNat b
  simpa [toyCerts, Function.comp_def] using hback

end DigTls
