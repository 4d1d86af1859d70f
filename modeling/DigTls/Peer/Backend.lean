import DigTls.Peer.Identity
import DigTls.Posix.Volume

/-! # What the crate takes from other crates

Hashing, X.509, path validation, BLS and certificate issuance are done elsewhere. A
`Backend` holds one such implementation: every definition below the trust decision is a
function of it, and a result that rests on documented behaviour of these crates says so
in a hypothesis about the backend.
-/
namespace DigTls

/-- Seconds since the epoch. -/
abbrev Time := Int

inductive DigTlsError where
  | ca (detail : String)
  | certGen (detail : String)
  | parse (detail : String)
  | rustlsConfig (detail : String)
  | io (error : PosixVolume.IoError)
  deriving DecidableEq

def DigTlsError.display : DigTlsError → String
  | .ca detail => s!"DigNetwork CA material is invalid: {detail}"
  | .certGen detail => s!"node certificate generation failed: {detail}"
  | .parse detail => s!"certificate material could not be parsed: {detail}"
  | .rustlsConfig detail => s!"rustls configuration failed: {detail}"
  | .io .notFound => "certificate persistence I/O failed: No such file or directory (os error 2)"
  | .io .invalidData => "certificate persistence I/O failed: stream did not contain valid UTF-8"
  | .io (.other detail) => s!"certificate persistence I/O failed: {detail}"

/-- `rustls::Error`, of which the crate only builds the general case. -/
inductive TlsError where
  | general (detail : String)
  deriving DecidableEq

structure Extension where
  oid : String
  value : Bytes
  deriving DecidableEq

structure X509 where
  subjectPki : Bytes
  extensions : List Extension
  deriving DecidableEq

inductive SignatureAlgorithm where
  | ecdsaP256Sha256 | ecdsaP256Sha384 | ecdsaP384Sha256 | ecdsaP384Sha384
  deriving DecidableEq

inductive KeyUsage where
  | serverAuth | clientAuth
  deriving DecidableEq

inductive KeyUsagePurpose where
  | digitalSignature | keyCertSign | crlSign
  deriving DecidableEq

structure CustomExtension where
  oid : List ℕ
  content : Bytes
  deriving DecidableEq

structure CertificateParams where
  notBefore : Time
  notAfter : Time
  commonName : Option String
  organizationName : Option String
  subjectAltNames : List String
  keyUsages : List KeyUsagePurpose
  extendedKeyUsages : List KeyUsage
  customExtensions : List CustomExtension
  deriving DecidableEq

/-- One implementation of the crates the program calls. Fallible calls give the text
their error is displayed with. -/
structure Backend where
  /-- `sha2` -/
  sha256 : Bytes → Octets 32
  /-- `x509_parser::parse_x509_certificate`, whose unread rest the crate drops. -/
  parseX509Certificate : Bytes → Except String X509
  /-- `rustls_pemfile::certs` -/
  certs : Bytes → List (Except String Bytes)
  /-- `blst`: an affine point, and the three questions asked of it. -/
  Affine : Type
  p1Uncompress : Octets 48 → Option Affine
  p1AffineIsInf : Affine → Bool
  p1AffineInG1 : Affine → Bool
  /-- `chia-bls` -/
  SecretKey : Type
  PublicKey : Type
  Signature : Type
  publicKey : SecretKey → PublicKey
  publicKeyToBytes : PublicKey → Octets 48
  publicKeyFromBytes : Octets 48 → Option PublicKey
  signatureToBytes : Signature → Octets 96
  signatureFromBytes : Octets 96 → Option Signature
  augSign : SecretKey → Bytes → Signature
  augVerify : Signature → PublicKey → Bytes → Bool
  /-- `rustls-webpki` -/
  Anchor : Type
  EndEntity : Type
  anchorFromTrustedCert : Bytes → Except String Anchor
  endEntityTryFrom : Bytes → Except String EndEntity
  verifyForUsage : EndEntity → List SignatureAlgorithm → List Anchor → List Bytes → Time →
    KeyUsage → Except String Unit
  /-- `rcgen` -/
  KeyPair : Type
  Certificate : Type
  keyPairFromPem : String → Except String KeyPair
  serializePem : KeyPair → String
  serializeDer : KeyPair → Bytes
  publicKeyDer : KeyPair → Bytes
  paramsNew : List String → Except String CertificateParams
  paramsFromCaCertPem : String → Except String CertificateParams
  ia5TryFrom : String → Except String String
  selfSigned : CertificateParams → KeyPair → Except String Certificate
  signedBy : CertificateParams → KeyPair → Certificate → KeyPair → Except String Certificate
  certificatePem : Certificate → String
  /-- `rustls`: the three fallible steps of its configuration builders. -/
  protocolVersions : Except String Unit
  serverSingleCert : List Bytes → Bytes → Except String Unit
  clientAuthCert : List Bytes → Bytes → Except String Unit

def peerIdFromTlsSpkiDer (B : Backend) (spkiDer : Bytes) : PeerId := ⟨B.sha256 spkiDer⟩

def peerIdFromLeafCertDer (B : Backend) (certDer : Bytes) : Option PeerId :=
  match B.parseX509Certificate certDer with
  | .error _ => none
  | .ok x509 => some (peerIdFromTlsSpkiDer B x509.subjectPki)

end DigTls
