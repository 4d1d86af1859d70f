import DigTls.Effects.Program
import DigTls.Peer.Authority
import DigTls.Peer.Binding

/-! # The two certificate verifiers

A verifier decides about one presented leaf and records, in cells it shares with its
caller, whose leaf it was. Each store takes a cell's lock for itself, so a call is a
program of at most two separate stores with checks around them; every check is a function
of the leaf, the verifier and the time. The cells live on a heap because one cell may be
given to several verifiers.
-/
namespace DigTls
open EffectPrograms
variable (B : Backend)

abbrev Cell := ℕ

structure Heap where
  peerId : Cell → Option PeerId
  blsPub : Cell → Option (Octets 48)

/-- The stores of a verifier, each under its cell's own lock. -/
inductive CellOp where
  | storePeerId (cell : Cell) (value : Option PeerId)
  | storeBlsPub (cell : Cell) (value : Option (Octets 48))
  deriving DecidableEq

abbrev CellOp.Res : CellOp → Type := fun _ => Unit

def Heap.run : (op : CellOp) → Heap → op.Res × Heap
  | .storePeerId cell value, h => ((), { h with peerId := Function.update h.peerId cell value })
  | .storeBlsPub cell value, h => ((), { h with blsPub := Function.update h.blsPub cell value })

/-- Stores under a lock neither fail nor get cut. -/
def cells : Machine CellOp CellOp.Res Heap := .reliable Heap.run

structure CapturedPeerId where
  cell : Cell
  deriving DecidableEq

structure CapturedBlsPub where
  cell : Cell
  deriving DecidableEq

def CapturedPeerId.get (c : CapturedPeerId) (h : Heap) : Option PeerId := h.peerId c.cell
def CapturedBlsPub.get (c : CapturedBlsPub) (h : Heap) : Option (Octets 48) := h.blsPub c.cell

abbrev Verification (α : Type) := Program CellOp CellOp.Res TlsError α

def storePeerId (c : CapturedPeerId) (value : Option PeerId) : Verification Unit :=
  .call (.storePeerId c.cell value) .done

def storeBlsPub (c : CapturedBlsPub) (value : Option (Octets 48)) : Verification Unit :=
  .call (.storeBlsPub c.cell value) .done

def chainSigAlgs : List SignatureAlgorithm :=
  [.ecdsaP256Sha256, .ecdsaP256Sha384, .ecdsaP384Sha256, .ecdsaP384Sha384]

def verifyChainToDigCa (endEntity : Bytes) (intermediates : List Bytes) (now : Time)
    (usage : KeyUsage) : Except TlsError Unit := do
  let caDer ← (embeddedCaCertDer B).mapError fun e =>
    .general s!"DigNetwork CA: {e.display}"
  let anchor ← (B.anchorFromTrustedCert caDer).mapError fun e =>
    .general s!"DigNetwork CA is not a valid trust anchor: {e}"
  let ee ← (B.endEntityTryFrom endEntity).mapError fun e =>
    .general s!"peer leaf is not a valid certificate: {e}"
  (B.verifyForUsage ee chainSigAlgs [anchor] intermediates now usage).mapError fun e =>
    .general s!"peer leaf does not chain to the DigNetwork CA: {e}"

def mismatch (pinned derived : PeerId) : TlsError :=
  .general s!"peer_id mismatch: expected {pinned.toHex}, got {derived.toHex}"

def rejectedBinding (derived : PeerId) (reason : String) : TlsError :=
  .general s!"peer {derived.toHex} rejected by cert BLS binding policy: {reason}"

def derivePeerId (endEntity : Bytes) : Verification PeerId :=
  match peerIdFromLeafCertDer B endEntity with
  | some derived => .done derived
  | none => .raise (.general "peer leaf certificate could not be parsed as X.509")

def enforcePin (expected : Option PeerId) (derived : PeerId) : Verification Unit :=
  match expected with
  | some pinned => if derived ≠ pinned then .raise (mismatch pinned derived) else .done ()
  | none => .done ()

def applyPolicy (endEntity : Bytes) (derived : PeerId) (bindingPolicy : BindingPolicy)
    (capturedBls : CapturedBlsPub) : Verification Unit :=
  if bindingPolicy ≠ .off then
    match evaluate (verifyBindingFromLeafCert B endEntity) bindingPolicy with
    | .ok blsPub => storeBlsPub capturedBls blsPub
    | .error reason => .raise (rejectedBinding derived reason)
  else .done ()

/-- Derive the peer id, enforce the pin and apply the binding policy. The peer id is
stored before the pin is looked at, the BLS key only once the policy has accepted. -/
def pinAndBind (endEntity : Bytes) (expected : Option PeerId) (captured : CapturedPeerId)
    (bindingPolicy : BindingPolicy) (capturedBls : CapturedBlsPub) : Verification PeerId := do
  let derived ← derivePeerId B endEntity
  storePeerId captured (some derived)
  enforcePin expected derived
  applyPolicy B endEntity derived bindingPolicy capturedBls
  return derived

/-- What both verifiers are built from. The signature schemes and root hints they also
carry are handed to rustls unread. -/
structure CertVerifier where
  expected : Option PeerId
  captured : CapturedPeerId
  bindingPolicy : BindingPolicy
  capturedBls : CapturedBlsPub
  requireCaChain : Bool
  deriving DecidableEq

structure DigServerCertVerifier extends CertVerifier
structure DigClientCertVerifier extends CertVerifier

section Constructors
variable (expected : Option PeerId) (captured : CapturedPeerId) (bindingPolicy : BindingPolicy)
  (capturedBls : CapturedBlsPub)

def DigServerCertVerifier.new : DigServerCertVerifier :=
  ⟨⟨expected, captured, bindingPolicy, capturedBls, true⟩⟩
def DigServerCertVerifier.newSpkiPinned : DigServerCertVerifier :=
  ⟨⟨expected, captured, bindingPolicy, capturedBls, false⟩⟩
def DigClientCertVerifier.new : DigClientCertVerifier :=
  ⟨⟨expected, captured, bindingPolicy, capturedBls, true⟩⟩
def DigClientCertVerifier.newSpkiPinned : DigClientCertVerifier :=
  ⟨⟨expected, captured, bindingPolicy, capturedBls, false⟩⟩

end Constructors

/-- The check of one leaf, shared by both verifiers up to the key usage they ask for. -/
def verifyCert (usage : KeyUsage) (v : CertVerifier) (endEntity : Bytes)
    (intermediates : List Bytes) (now : Time) : Verification Unit := do
  if v.requireCaChain then .ofExcept (verifyChainToDigCa B endEntity intermediates now usage)
  let _ ← pinAndBind B endEntity v.expected v.captured v.bindingPolicy v.capturedBls
  return ()

def DigServerCertVerifier.verifyServerCert (v : DigServerCertVerifier) (endEntity : Bytes)
    (intermediates : List Bytes) (_serverName : String) (_ocspResponse : Bytes) (now : Time) :
    Verification Unit :=
  verifyCert B .serverAuth v.toCertVerifier endEntity intermediates now

def DigClientCertVerifier.verifyClientCert (v : DigClientCertVerifier) (endEntity : Bytes)
    (intermediates : List Bytes) (now : Time) : Verification Unit :=
  verifyCert B .clientAuth v.toCertVerifier endEntity intermediates now

/-- What a peer presents, and when. -/
structure Presentation where
  leaf : Bytes
  intermediates : List Bytes
  serverName : String
  ocspResponse : Bytes
  now : Time
  deriving DecidableEq

inductive PeerVerifier where
  | server (v : DigServerCertVerifier)
  | client (v : DigClientCertVerifier)

namespace PeerVerifier

def usage : PeerVerifier → KeyUsage
  | server _ => .serverAuth
  | client _ => .clientAuth

def cert : PeerVerifier → CertVerifier
  | server v => v.toCertVerifier
  | client v => v.toCertVerifier

def verify (w : PeerVerifier) (p : Presentation) : Verification Unit :=
  match w with
  | server v => v.verifyServerCert B p.leaf p.intermediates p.serverName p.ocspResponse p.now
  | client v => v.verifyClientCert B p.leaf p.intermediates p.now

theorem verify_eq (w : PeerVerifier) (p : Presentation) :
    w.verify B p = verifyCert B w.usage w.cert p.leaf p.intermediates p.now := by
  cases w <;> rfl

end PeerVerifier

end DigTls
