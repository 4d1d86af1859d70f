import DigTls.Peer.Authority
import DigTls.Peer.Binding

/-! # A backend small enough to compute with

Keys are bytes, a certificate is the byte of its key followed by its binding extension, a
PEM text spells its bytes as characters, a digest repeats the first byte and a BLS signature
is a checksum of key and message. On the inputs the examples use, it keeps the laws that
results assume of the real crates: stored keys and certificates read back, distinct keys have
distinct SPKIs and peer ids, genuine signatures verify.
-/
namespace DigTls

def toyChar (b : UInt8) : Char := Char.ofNat b.toNat

theorem toyChar_toNat (b : UInt8) : UInt8.ofNat (toyChar b).toNat = b := by
  have hb := b.toNat_lt
  have hvalid : b.toNat.isValidChar := Or.inl (by omega)
  have hc : (toyChar b).toNat = b.toNat := by
    unfold toyChar Char.ofNat
    rw [dif_pos hvalid]
    rfl
  rw [hc]
  exact UInt8.ofNat_toNat

def toyParse : Bytes → Except String X509
  | [] => .error "empty certificate"
  | [key] => .ok ⟨[key], []⟩
  | key :: value => .ok ⟨[key], [⟨digBlsBindingOidStr, value⟩]⟩

/-- The certificates of a text: one spelled after a `c`, or the text itself as it stands. -/
def toyCerts (pem : Bytes) : List (Except String Bytes) :=
  match (PosixVolume.fromUtf8 pem).map String.toList with
  | some ('c' :: der) => [.ok (der.map fun c => UInt8.ofNat c.toNat)]
  | some (_ :: _) => [.ok pem]
  | _ => []

/-- A text that starts with a dash is the authority's. -/
def toyKeyFromPem (pem : String) : Except String UInt8 :=
  match (PosixVolume.asBytes pem).head? with
  | some 45 => .ok 0
  | _ =>
    match pem.toList with
    | ['k', c] => .ok (UInt8.ofNat c.toNat)
    | _ => .error "no key"

def toyParams : CertificateParams := ⟨0, 0, none, none, [], [], [], []⟩

def toySign (pk : Octets 48) (msg : Bytes) : Octets 96 :=
  List.Vector.replicate 96 (msg.foldl (· + ·) (pk.toList.headD 0))

def toyBackend : Backend where
  sha256 bytes := List.Vector.replicate 32 (bytes.headD 0)
  parseX509Certificate := toyParse
  certs := toyCerts
  Affine := Octets 48
  p1Uncompress := some
  p1AffineIsInf _ := false
  p1AffineInG1 _ := true
  SecretKey := UInt8
  PublicKey := Octets 48
  Signature := Octets 96
  publicKey sk := List.Vector.replicate 48 sk
  publicKeyToBytes := id
  publicKeyFromBytes := some
  signatureToBytes := id
  signatureFromBytes := some
  augSign sk msg := toySign (List.Vector.replicate 48 sk) msg
  augVerify sig pk msg := sig = toySign pk msg
  Anchor := Bytes
  EndEntity := Bytes
  anchorFromTrustedCert := .ok
  endEntityTryFrom := .ok
  verifyForUsage _ _ _ _ _ _ := .ok ()
  KeyPair := UInt8
  Certificate := Bytes
  keyPairFromPem := toyKeyFromPem
  serializePem key := String.ofList ['k', toyChar key]
  serializeDer key := [key]
  publicKeyDer key := [key]
  paramsNew _ := .ok toyParams
  paramsFromCaCertPem _ := .ok toyParams
  ia5TryFrom := .ok
  selfSigned _ key := .ok [key]
  signedBy _ key _ _ := .ok [key]
  certificatePem der := String.ofList ('c' :: der.map toyChar)
  protocolVersions := .ok ()
  serverSingleCert _ _ := .ok ()
  clientAuthCert _ _ := .ok ()

theorem toyKey_head (c : Char) : (PosixVolume.asBytes (String.ofList ['k', c])).head? = some 107 := by
  have hfirst : "k".toByteArray.data.toList.head? = some 107 := by decide
  simp [PosixVolume.asBytes, List.utf8Encode, hfirst]

theorem toy_keyPairFromPem (key : UInt8) :
    toyBackend.keyPairFromPem (toyBackend.serializePem key) = .ok key := by
  change toyKeyFromPem (String.ofList ['k', toyChar key]) = .ok key
  rw [toyKeyFromPem, toyKey_head]
  simp [toyChar_toNat]

theorem toyCerts_dash {pem : String} (h : (PosixVolume.asBytes pem).head? = some 45) :
    toyCerts (PosixVolume.asBytes pem) = [.ok (PosixVolume.asBytes pem)] := by
  have hfirst : "c".toByteArray.data.toList.head? = some 99 := by decide
  rw [← String.ofList_toList (s := pem)] at h
  unfold toyCerts
  rw [PosixVolume.fromUtf8_asBytes, Option.map_some]
  cases hl : pem.toList with
  | nil =>
    rw [hl] at h
    simp [PosixVolume.asBytes] at h
  | cons c rest =>
    have hne : c ≠ 'c' := by
      rintro rfl
      rw [hl] at h
      simp [PosixVolume.asBytes, List.utf8Encode, hfirst] at h
    simp

theorem toy_embeddedCaCertDer {B : Backend} (hcerts : B.certs = toyCerts) :
    embeddedCaCertDer B = .ok (PosixVolume.asBytes digCaCertPem) := by
  have hdash : (PosixVolume.asBytes digCaCertPem).head? = some 45 := by decide +kernel
  have hsome : (PosixVolume.asBytes digCaCertPem).isEmpty = false := by
    cases hb : PosixVolume.asBytes digCaCertPem with
    | nil => simp [hb] at hdash
    | cons b rest => rfl
  simp [embeddedCaCertDer, hcerts, toyCerts_dash hdash, Except.toOption, hsome]

def toyLeaf (key sk : UInt8) : Bytes :=
  key :: encodeBindingExtensionValue (publicKeyBytes toyBackend sk)
    (signMessage toyBackend sk (bindingMessage [key]))

example : verifyBindingFromLeafCert toyBackend (toyLeaf 1 7) =
    .bound (publicKeyBytes toyBackend (7 : UInt8)) := by decide +kernel

end DigTls
