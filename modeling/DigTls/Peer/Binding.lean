import DigTls.Peer.Backend

/-! # The BLS binding of a leaf certificate

A leaf may carry, as a private X.509 extension, a BLS G1 key and a signature under that
key over the leaf's own SPKI. Verifying it has three stages with three result types: the
value parses or not, the leaf's binding is bound, absent or invalid, and a local policy
turns that outcome into a decision.
-/
namespace DigTls
variable (B : Backend)

def g1Zero : Octets 48 := List.Vector.replicate 48 0

def publicKeyBytes (sk : B.SecretKey) : Octets 48 := B.publicKeyToBytes (B.publicKey sk)

/-- A canonical, non-identity point of the prime-order subgroup. -/
def g1SubgroupCheck (pk : Octets 48) : Bool :=
  if pk = g1Zero then false
  else
    match B.p1Uncompress pk with
    | none => false
    | some affine => if B.p1AffineIsInf affine then false else B.p1AffineInG1 affine

def signMessage (sk : B.SecretKey) (msg : Bytes) : Octets 96 := B.signatureToBytes (B.augSign sk msg)

def verifySignature (pk : Octets 48) (msg : Bytes) (sig : Octets 96) : Bool :=
  match B.publicKeyFromBytes pk, B.signatureFromBytes sig with
  | some pk, some sig => B.augVerify sig pk msg
  | _, _ => false

def digBlsBindingOid : List ℕ := [1, 3, 6, 1, 4, 1, 58968, 1, 1]
def digBlsBindingOidStr : String := "1.3.6.1.4.1.58968.1.1"
def bindingVersionV1 : UInt8 := 1
def bindingV1Len : ℕ := 1 + 48 + 96

def bindingSigContext : Bytes :=
  [100, 105, 103, 45, 110, 97, 116, 47, 99, 101, 114, 116, 45, 98, 108, 115, 45, 98, 105, 110, 100,
    105, 110, 103, 47, 118, 49]

example : bindingSigContext = "dig-nat/cert-bls-binding/v1".toByteArray.data.toList := by decide

def bindingMessage (spkiDer : Bytes) : Bytes := bindingSigContext ++ spkiDer

theorem bindingMessage_injective : Function.Injective bindingMessage :=
  fun _ _ h => List.append_cancel_left h

def encodeBindingExtensionValue (blsPub : Octets 48) (blsSig : Octets 96) : Bytes :=
  bindingVersionV1 :: (blsPub.toList ++ blsSig.toList)

/-- The contents of a binding extension, parsed and not yet verified. -/
structure CertBlsBinding where
  blsPub : Octets 48
  blsSig : Octets 96
  deriving DecidableEq

def copySlice (value : Bytes) (start n : ℕ) (h : start + n ≤ value.length) : Octets n :=
  ⟨(value.drop start).take n, by rw [List.length_take, List.length_drop]; omega⟩

def parseBindingExtensionValue (value : Bytes) : Option CertBlsBinding :=
  if h : value.head? = some bindingVersionV1 ∧ value.length = bindingV1Len then
    some ⟨copySlice value 1 48 (by rw [h.2]; decide), copySlice value 49 96 (by rw [h.2]; decide)⟩
  else none

inductive BindingOutcome where
  | bound (blsPub : Octets 48)
  | absent
  | invalid (reason : String)
  deriving DecidableEq

inductive BindingPolicy where
  | off
  | opportunistic
  | required
  deriving DecidableEq

/-- The decision of a policy: the verified key, no key, or the reason of a rejection. -/
def evaluate (outcome : BindingOutcome) (policy : BindingPolicy) :
    Except String (Option (Octets 48)) :=
  match policy, outcome with
  | .off, _ => .ok none
  | _, .bound blsPub => .ok (some blsPub)
  | .opportunistic, .absent => .ok none
  | .opportunistic, .invalid reason => .error reason
  | .required, .absent => .error "cert BLS binding required but absent (possible downgrade)"
  | .required, .invalid reason => .error reason

def bindingValue (x509 : X509) : Option Bytes :=
  (x509.extensions.find? fun ext => ext.oid == digBlsBindingOidStr).map Extension.value

def verifyBinding (x509 : X509) : BindingOutcome :=
  match bindingValue x509 with
  | none => .absent
  | some value =>
    match parseBindingExtensionValue value with
    | none => .invalid "binding extension malformed or unknown version"
    | some binding =>
      if !g1SubgroupCheck B binding.blsPub then
        .invalid "binding BLS pubkey failed the G1 subgroup check"
      else if !verifySignature B binding.blsPub (bindingMessage x509.subjectPki) binding.blsSig then
        .invalid "binding BLS self-attestation did not verify over the SPKI"
      else .bound binding.blsPub

def verifyBindingFromLeafCert (certDer : Bytes) : BindingOutcome :=
  match B.parseX509Certificate certDer with
  | .error _ => .invalid "leaf certificate could not be parsed as X.509"
  | .ok x509 => verifyBinding B x509

def attachBinding (params : CertificateParams) (keyPair : B.KeyPair) (blsSk : B.SecretKey) :
    CertificateParams :=
  let spkiDer := B.publicKeyDer keyPair
  let blsPub := publicKeyBytes B blsSk
  let blsSig := signMessage B blsSk (bindingMessage spkiDer)
  let extValue := encodeBindingExtensionValue blsPub blsSig
  { params with customExtensions := params.customExtensions ++ [⟨digBlsBindingOid, extValue⟩] }

variable {B}

/-- A binding that verifies over `spki`: the right value, a key of the subgroup, and a
signature of the context and `spki` under that key. -/
structure Attests (B : Backend) (value spki : Bytes) (binding : CertBlsBinding) : Prop where
  parsed : parseBindingExtensionValue value = some binding
  inGroup : g1SubgroupCheck B binding.blsPub = true
  signed : verifySignature B binding.blsPub (bindingMessage spki) binding.blsSig = true

theorem verifyBinding_absent_iff {x509 : X509} :
    verifyBinding B x509 = .absent ↔ bindingValue x509 = none := by
  unfold verifyBinding
  cases hv : bindingValue x509 with
  | none => simp
  | some value =>
    cases hp : parseBindingExtensionValue value with
    | none => simp [hp]
    | some binding =>
      simp only [hp]
      split_ifs <;> simp

theorem verifyBinding_bound_iff {x509 : X509} {b : Octets 48} :
    verifyBinding B x509 = .bound b ↔
      ∃ value binding, bindingValue x509 = some value ∧
        Attests B value x509.subjectPki binding ∧ binding.blsPub = b := by
  constructor
  · intro h
    unfold verifyBinding at h
    cases hv : bindingValue x509 with
    | none => simp [hv] at h
    | some value =>
      cases hp : parseBindingExtensionValue value with
      | none => simp [hv, hp] at h
      | some binding =>
        simp only [hv, hp] at h
        split_ifs at h with hg hs
        · exact ⟨value, binding, rfl, ⟨hp, by simpa using hg, by simpa using hs⟩, by simpa using h⟩
  · rintro ⟨value, binding, hv, ha, rfl⟩
    simp [verifyBinding, hv, ha.parsed, ha.inGroup, ha.signed]

/-- When a policy lets a leaf through, and with which key. -/
theorem evaluate_ok_iff {outcome : BindingOutcome} {policy : BindingPolicy}
    {k : Option (Octets 48)} :
    evaluate outcome policy = .ok k ↔
      policy = .off ∧ k = none ∨
      policy ≠ .off ∧ (∃ b, outcome = .bound b ∧ k = some b) ∨
      policy = .opportunistic ∧ outcome = .absent ∧ k = none := by
  cases policy <;> cases outcome <;> simp [evaluate, eq_comm]

end DigTls
