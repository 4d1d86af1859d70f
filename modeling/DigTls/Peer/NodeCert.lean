import DigTls.Peer.Authority
import DigTls.Peer.Binding

/-! # The node certificate

A peer's identity is a leaf with its private key. It is minted under the shipped authority
or read back from two PEM texts; both ways end in `fromParts`, which refuses a certificate
that does not certify the key it comes with.
-/
namespace DigTls
open EffectPrograms

def leafLifetime : Time := 365 * 10 * 24 * 60 * 60
def leafSan : String := "peer.dig"

structure NodeCert where
  certPem : String
  keyPem : String
  certDer : Bytes
  keyDer : Bytes
  spkiDer : Bytes
  peerId : PeerId
  deriving DecidableEq

structure RotatedNodeCert where
  previous : NodeCert
  current : NodeCert
  deriving DecidableEq

variable (B : Backend)

namespace NodeCert

def rustlsCertChain (node : NodeCert) : List Bytes := [node.certDer]

/-- The key as rustls takes it: a serialized PKCS#8 key, for which the conversion never fails. -/
def rustlsPrivateKey (node : NodeCert) : Bytes := node.keyDer

def fromParts (certPem keyPem : String) (key : B.KeyPair) : Except DigTlsError NodeCert :=
  match (B.certs (PosixVolume.asBytes certPem)).head?.bind Except.toOption with
  | none => .error (.parse "leaf PEM has no certificate")
  | some certDer =>
    let keyDer := B.serializeDer key
    let spkiDer := B.publicKeyDer key
    match B.parseX509Certificate certDer with
    | .error e => .error (.parse s!"leaf certificate is not valid X.509: {e}")
    | .ok x509 =>
      if x509.subjectPki ≠ spkiDer then
        .error (.parse "cert/key mismatch: the certificate does not certify the supplied private key")
      else
        .ok { certPem, keyPem, certDer, keyDer, spkiDer, peerId := peerIdFromTlsSpkiDer B spkiDer }

def fromPem (certPem keyPem : String) : Except DigTlsError NodeCert := do
  let key ← (B.keyPairFromPem keyPem).mapError fun e => .parse s!"parse leaf key: {e}"
  fromParts B certPem keyPem key

/-- What a minting takes from outside: the BLS secret, what the generation of the TLS key
answers, and the time. -/
structure Minting where
  blsSk : B.SecretKey
  leafKey : Except String B.KeyPair
  now : Time

def leafParams (params : CertificateParams) (san : String) (now : Time) : CertificateParams :=
  { params with
    notBefore := now - clockSkewBackdate
    notAfter := now + leafLifetime
    commonName := some leafSan
    organizationName := none
    subjectAltNames := [san]
    keyUsages := [.digitalSignature]
    extendedKeyUsages := [.serverAuth, .clientAuth] }

variable {B} in
def generateSignedBy (ca : DigCa B) (m : Minting B) : Except DigTlsError NodeCert := do
  let leafKey ← m.leafKey.mapError fun e => .certGen s!"generate leaf key: {e}"
  let params ← (B.paramsNew []).mapError fun e => .certGen s!"leaf params: {e}"
  let san ← (B.ia5TryFrom leafSan).mapError fun e => .certGen s!"leaf SAN: {e}"
  let bound := attachBinding B (leafParams params san m.now) leafKey m.blsSk
  let cert ← (B.signedBy bound leafKey ca.cert ca.key).mapError fun e => .certGen s!"sign leaf: {e}"
  fromParts B (B.certificatePem cert) (B.serializePem leafKey) leafKey

def generateSigned (m : Minting B) : Except DigTlsError NodeCert := do
  let ca ← DigCa.embedded B
  generateSignedBy ca m

variable {B}

/-- What an assembled identity consists of: the first certificate of the text, which must certify
the key, and the key in its encodings. -/
theorem fromParts_eq_ok {certPem keyPem : String} {key : B.KeyPair} {node : NodeCert} :
    fromParts B certPem keyPem key = .ok node ↔
      ∃ certDer x509, (B.certs (PosixVolume.asBytes certPem)).head? = some (.ok certDer) ∧
        B.parseX509Certificate certDer = .ok x509 ∧ x509.subjectPki = B.publicKeyDer key ∧
        node = ⟨certPem, keyPem, certDer, B.serializeDer key, B.publicKeyDer key,
          peerIdFromTlsSpkiDer B (B.publicKeyDer key)⟩ := by
  constructor
  · intro h
    unfold fromParts at h
    cases hc : (B.certs (PosixVolume.asBytes certPem)).head? with
    | none => simp [hc] at h
    | some r =>
      cases r with
      | error e => simp [hc, Except.toOption] at h
      | ok der =>
        cases hx : B.parseX509Certificate der with
        | error e => simp [hc, Except.toOption, hx] at h
        | ok x509 =>
          simp only [hc, Option.bind_some, Except.toOption, hx] at h
          split_ifs at h with hspki
          cases h
          exact ⟨der, x509, rfl, hx, not_not.mp hspki, rfl⟩
  · rintro ⟨der, x509, hc, hx, hspki, rfl⟩
    simp [fromParts, hc, Except.toOption, hx, hspki]

theorem fromParts_ok {certPem keyPem : String} {key : B.KeyPair} {node : NodeCert}
    (h : fromParts B certPem keyPem key = .ok node) :
    node.certPem = certPem ∧ node.keyPem = keyPem ∧ node.spkiDer = B.publicKeyDer key := by
  obtain ⟨der, x509, _, _, _, rfl⟩ := fromParts_eq_ok.mp h
  exact ⟨rfl, rfl, rfl⟩

theorem fromPem_eq {certPem keyPem : String} {key : B.KeyPair} (hkey : B.keyPairFromPem keyPem = .ok key) :
    fromPem B certPem keyPem = fromParts B certPem keyPem key := by
  simp [fromPem, hkey, Except.mapError, bind, Except.bind]

theorem fromPem_ok {certPem keyPem : String} {node : NodeCert} (h : fromPem B certPem keyPem = .ok node) :
    node.certPem = certPem ∧ node.keyPem = keyPem := by
  obtain ⟨key, _, hparts⟩ := bind_eq_ok.mp h
  exact ⟨(fromParts_ok hparts).1, (fromParts_ok hparts).2.1⟩

/-- What a minting succeeds with: each of its steps, the signed certificate read back at the end. -/
theorem generateSignedBy_eq_ok {ca : DigCa B} {m : Minting B} {node : NodeCert} :
    generateSignedBy ca m = .ok node ↔
      ∃ key, m.leafKey = .ok key ∧ ∃ params, B.paramsNew [] = .ok params ∧
        ∃ san, B.ia5TryFrom leafSan = .ok san ∧
        ∃ cert, B.signedBy (attachBinding B (leafParams params san m.now) key m.blsSk) key ca.cert ca.key =
          .ok cert ∧ fromParts B (B.certificatePem cert) (B.serializePem key) key = .ok node := by
  simp only [generateSignedBy, bind_eq_ok, mapError_eq_ok]

theorem generateSigned_ok {m : Minting B} {node : NodeCert} (h : generateSigned B m = .ok node) :
    ∃ key, m.leafKey = .ok key ∧ node.keyPem = B.serializePem key ∧
      fromParts B node.certPem node.keyPem key = .ok node := by
  obtain ⟨ca, _, h⟩ := bind_eq_ok.mp h
  obtain ⟨key, hkey, _, _, _, _, cert, _, h⟩ := generateSignedBy_eq_ok.mp h
  obtain ⟨hcert, hpem, _⟩ := fromParts_ok h
  refine ⟨key, hkey, hpem, ?_⟩
  rw [hcert, hpem]
  exact h

theorem fromPem_generated {m : Minting B} {node : NodeCert}
    (hread : ∀ key, B.keyPairFromPem (B.serializePem key) = .ok key)
    (h : generateSigned B m = .ok node) : fromPem B node.certPem node.keyPem = .ok node := by
  obtain ⟨key, _, hpem, hparts⟩ := generateSigned_ok h
  rw [fromPem_eq (by rw [hpem]; exact hread key)]
  exact hparts

end NodeCert

def mismatched : DigTlsError :=
  .parse "cert/key mismatch: the certificate does not certify the supplied private key"

variable {B} in
theorem NodeCert.fromPem_mixed {y z : NodeCert} (hy : NodeCert.fromPem B y.certPem y.keyPem = .ok y)
    (hz : NodeCert.fromPem B z.certPem z.keyPem = .ok z) (hne : y.spkiDer ≠ z.spkiDer) :
    NodeCert.fromPem B y.certPem z.keyPem = .error mismatched := by
  obtain ⟨ky, _, hpartsy⟩ := bind_eq_ok.mp hy
  obtain ⟨kz, hkz, hpartsz⟩ := bind_eq_ok.mp hz
  obtain ⟨der, x509, hder, hx509, hspki, _⟩ := NodeCert.fromParts_eq_ok.mp hpartsy
  have hyspki := (NodeCert.fromParts_ok hpartsy).2.2
  have hzspki := (NodeCert.fromParts_ok hpartsz).2.2
  have hdiffer : x509.subjectPki ≠ B.publicKeyDer kz := by
    rw [hspki, ← hyspki, ← hzspki]
    exact hne
  rw [NodeCert.fromPem_eq (mapError_eq_ok.mp hkz), NodeCert.fromParts, hder]
  simp only [Option.bind_some, Except.toOption, hx509]
  rw [if_pos hdiffer]
  rfl

end DigTls
