import DigTls.Verify.Config
import DigTls.Verify.LocalIdentity

/-! # Proof of possession

A certificate is public, so a handshake also has each side sign what has been said so far with the
key of its leaf. rustls asks the verifier whether such a signature is the leaf's, and both verifiers
hand the question on to ring, for each protocol version its own. A configuration presents the leaf
of the node it was made for.
-/
namespace DigTls
open EffectPrograms

inductive ProtocolVersion where
  | tls12 | tls13
  deriving DecidableEq

/-- `rustls::crypto`, as far as a handshake signature goes. -/
structure HandshakeCrypto where
  DigitallySignedStruct : Type
  Algorithms : Type
  /-- Those of `ring::default_provider`. -/
  ringAlgorithms : Algorithms
  verifyTls12Signature : Bytes → Bytes → DigitallySignedStruct → Algorithms → Except TlsError Unit
  verifyTls13Signature : Bytes → Bytes → DigitallySignedStruct → Algorithms → Except TlsError Unit

section Signatures
variable (H : HandshakeCrypto) (message cert : Bytes) (dss : H.DigitallySignedStruct)

def verifyTls12 : Except TlsError Unit := H.verifyTls12Signature message cert dss H.ringAlgorithms
def verifyTls13 : Except TlsError Unit := H.verifyTls13Signature message cert dss H.ringAlgorithms

def DigServerCertVerifier.verifyTls12Signature (_v : DigServerCertVerifier) : Except TlsError Unit :=
  verifyTls12 H message cert dss
def DigServerCertVerifier.verifyTls13Signature (_v : DigServerCertVerifier) : Except TlsError Unit :=
  verifyTls13 H message cert dss
def DigClientCertVerifier.verifyTls12Signature (_v : DigClientCertVerifier) : Except TlsError Unit :=
  verifyTls12 H message cert dss
def DigClientCertVerifier.verifyTls13Signature (_v : DigClientCertVerifier) : Except TlsError Unit :=
  verifyTls13 H message cert dss

/-- The question rustls asks in a handshake of this version. -/
def PeerVerifier.verifyHandshake (version : ProtocolVersion) : PeerVerifier → Except TlsError Unit
  | .server v => match version with
    | .tls12 => v.verifyTls12Signature H message cert dss
    | .tls13 => v.verifyTls13Signature H message cert dss
  | .client v => match version with
    | .tls12 => v.verifyTls12Signature H message cert dss
    | .tls13 => v.verifyTls13Signature H message cert dss

/-- Neither side, mode, pin nor policy has a say in it. -/
theorem PeerVerifier.verifyHandshake_eq (version : ProtocolVersion) (w : PeerVerifier) :
    w.verifyHandshake H message cert dss version = match version with
      | .tls12 => verifyTls12 H message cert dss
      | .tls13 => verifyTls13 H message cert dss := by
  cases w <;> cases version <;> rfl

end Signatures

def DigClientCertVerifier.offerClientAuth (_v : DigClientCertVerifier) : Bool := true
def DigClientCertVerifier.clientAuthMandatory (_v : DigClientCertVerifier) : Bool := true

def PeerTls.certChain : PeerTls → List Bytes
  | .server tls => tls.config.certChain
  | .client tls => tls.config.certChain

/-- The configurations the four constructors make for a node. -/
inductive Configured (B : Backend) (node : NodeCert) : PeerTls → Prop
  | server {policy cell tls} (h : serverConfig B node policy cell = .ok tls) :
      Configured B node (.server tls)
  | serverSpkiPinned {policy cell tls} (h : serverConfigSpkiPinned B node policy cell = .ok tls) :
      Configured B node (.server tls)
  | client {expected policy cell tls} (h : clientConfig B node expected policy cell = .ok tls) :
      Configured B node (.client tls)
  | clientSpkiPinned {expected policy cell tls}
      (h : clientConfigSpkiPinned B node expected policy cell = .ok tls) : Configured B node (.client tls)

variable {B : Backend} {node : NodeCert}

theorem buildServerConfig_chain {verifier : DigClientCertVerifier} {c : ServerConfig}
    (h : buildServerConfig B node verifier = .ok c) : c.certChain = [node.certDer] := by
  obtain ⟨_, _, h⟩ := bind_eq_ok.mp h
  obtain ⟨_, _, h⟩ := bind_eq_ok.mp h
  cases h
  rfl

theorem buildClientConfig_chain {verifier : DigServerCertVerifier} {c : ClientConfig}
    (h : buildClientConfig B node verifier = .ok c) : c.certChain = [node.certDer] := by
  obtain ⟨_, _, h⟩ := bind_eq_ok.mp h
  obtain ⟨_, _, h⟩ := bind_eq_ok.mp h
  cases h
  rfl

theorem Configured.certChain {tls : PeerTls} (h : Configured B node tls) : tls.certChain = [node.certDer] := by
  cases h with
  | server h | serverSpkiPinned h =>
    obtain ⟨c, hc, h⟩ := bind_eq_ok.mp h
    cases h
    exact buildServerConfig_chain hc
  | client h | clientSpkiPinned h =>
    obtain ⟨c, hc, h⟩ := bind_eq_ok.mp h
    cases h
    exact buildClientConfig_chain hc

/-- A node that takes part: an identity the crate returned, and a configuration made for it. -/
structure Site (B : Backend) where
  node : NodeCert
  tls : PeerTls
  returned : Returned B node
  configured : Configured B node tls

namespace Site
variable (σ : Site B)

def verifier : PeerVerifier := σ.tls.verifier

def leaf : Bytes := σ.tls.certChain.headD []

def IsServer : Prop := ∃ tls, σ.tls = .server tls
def IsClient : Prop := ∃ tls, σ.tls = .client tls

theorem leaf_eq : σ.leaf = σ.node.certDer := by
  rw [leaf, σ.configured.certChain]
  rfl

theorem peerId_leaf : peerIdFromLeafCertDer B σ.leaf = some σ.node.peerId := by
  rw [leaf_eq]
  exact σ.returned.wireIdentity.leaf _ (List.mem_singleton_self _)

theorem isServer_or_isClient : σ.IsServer ∨ σ.IsClient := by
  cases h : σ.tls with
  | server tls => exact Or.inl ⟨tls, h⟩
  | client tls => exact Or.inr ⟨tls, h⟩

theorem not_isClient (h : σ.IsServer) : ¬ σ.IsClient := by
  rintro ⟨tls, htls⟩
  obtain ⟨tls', htls'⟩ := h
  rw [htls] at htls'
  cases htls'

end Site

end DigTls
