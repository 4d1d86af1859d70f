import DigTls.Peer.NodeCert
import DigTls.Verify.Verifier

/-! # Ready-made configurations

Each configuration is built around one verifier and handed out with the two capture cells
the verifier writes. The cells are allocated once, with the configuration; `cell` stands for
the fresh cells the two allocations yield.
-/
namespace DigTls
open EffectPrograms
variable (B : Backend)

/-- What the crate puts into `rustls::ServerConfig`. -/
structure ServerConfig where
  verifier : DigClientCertVerifier
  certChain : List Bytes
  privateKey : Bytes

structure ClientConfig where
  verifier : DigServerCertVerifier
  certChain : List Bytes
  privateKey : Bytes

structure ServerTls where
  config : ServerConfig
  capturedPeerId : CapturedPeerId
  capturedBls : CapturedBlsPub

structure ClientTls where
  config : ClientConfig
  capturedPeerId : CapturedPeerId
  capturedBls : CapturedBlsPub

def buildServerConfig (node : NodeCert) (verifier : DigClientCertVerifier) :
    Except DigTlsError ServerConfig := do
  B.protocolVersions.mapError fun e => .rustlsConfig s!"protocol versions: {e}"
  (B.serverSingleCert node.rustlsCertChain node.rustlsPrivateKey).mapError fun e =>
    .rustlsConfig s!"server single cert: {e}"
  return ⟨verifier, node.rustlsCertChain, node.rustlsPrivateKey⟩

def buildClientConfig (node : NodeCert) (verifier : DigServerCertVerifier) :
    Except DigTlsError ClientConfig := do
  B.protocolVersions.mapError fun e => .rustlsConfig s!"protocol versions: {e}"
  (B.clientAuthCert node.rustlsCertChain node.rustlsPrivateKey).mapError fun e =>
    .rustlsConfig s!"client auth cert: {e}"
  return ⟨verifier, node.rustlsCertChain, node.rustlsPrivateKey⟩

def serverConfig (node : NodeCert) (bindingPolicy : BindingPolicy) (cell : Cell) :
    Except DigTlsError ServerTls := do
  let config ← buildServerConfig B node (.new none ⟨cell⟩ bindingPolicy ⟨cell⟩)
  return ⟨config, ⟨cell⟩, ⟨cell⟩⟩

def clientConfig (node : NodeCert) (expected : Option PeerId) (bindingPolicy : BindingPolicy)
    (cell : Cell) : Except DigTlsError ClientTls := do
  let config ← buildClientConfig B node (.new expected ⟨cell⟩ bindingPolicy ⟨cell⟩)
  return ⟨config, ⟨cell⟩, ⟨cell⟩⟩

def serverConfigSpkiPinned (node : NodeCert) (bindingPolicy : BindingPolicy) (cell : Cell) :
    Except DigTlsError ServerTls := do
  let config ← buildServerConfig B node (.newSpkiPinned none ⟨cell⟩ bindingPolicy ⟨cell⟩)
  return ⟨config, ⟨cell⟩, ⟨cell⟩⟩

def clientConfigSpkiPinned (node : NodeCert) (expected : Option PeerId)
    (bindingPolicy : BindingPolicy) (cell : Cell) : Except DigTlsError ClientTls := do
  let config ← buildClientConfig B node (.newSpkiPinned expected ⟨cell⟩ bindingPolicy ⟨cell⟩)
  return ⟨config, ⟨cell⟩, ⟨cell⟩⟩

inductive PeerTls where
  | server (tls : ServerTls)
  | client (tls : ClientTls)

namespace PeerTls

def capturedPeerId : PeerTls → CapturedPeerId
  | server tls => tls.capturedPeerId
  | client tls => tls.capturedPeerId

def capturedBls : PeerTls → CapturedBlsPub
  | server tls => tls.capturedBls
  | client tls => tls.capturedBls

/-- The verifier its handshakes call: a server checks clients, a client checks servers. -/
def verifier : PeerTls → PeerVerifier
  | server tls => .client tls.config.verifier
  | client tls => .server tls.config.verifier

inductive Built (cell : Cell) : PeerTls → Prop
  | server {node policy tls} (h : serverConfig B node policy cell = .ok tls) : Built cell (.server tls)
  | serverSpkiPinned {node policy tls} (h : serverConfigSpkiPinned B node policy cell = .ok tls) :
      Built cell (.server tls)
  | client {node expected policy tls} (h : clientConfig B node expected policy cell = .ok tls) :
      Built cell (.client tls)
  | clientSpkiPinned {node expected policy tls}
      (h : clientConfigSpkiPinned B node expected policy cell = .ok tls) : Built cell (.client tls)

variable {B}

theorem buildServerConfig_ok {node : NodeCert} {verifier : DigClientCertVerifier} {c : ServerConfig}
    (h : buildServerConfig B node verifier = .ok c) : c.verifier = verifier := by
  obtain ⟨_, _, h⟩ := bind_eq_ok.mp h
  obtain ⟨_, _, h⟩ := bind_eq_ok.mp h
  cases h
  rfl

theorem buildClientConfig_ok {node : NodeCert} {verifier : DigServerCertVerifier} {c : ClientConfig}
    (h : buildClientConfig B node verifier = .ok c) : c.verifier = verifier := by
  obtain ⟨_, _, h⟩ := bind_eq_ok.mp h
  obtain ⟨_, _, h⟩ := bind_eq_ok.mp h
  cases h
  rfl

/-- The handles a caller reads are the cells the verifier of the configuration writes. -/
theorem Built.handles {cell : Cell} {tls : PeerTls} (h : Built B cell tls) :
    tls.capturedPeerId = tls.verifier.cert.captured ∧ tls.capturedBls = tls.verifier.cert.capturedBls ∧
      tls.capturedPeerId = ⟨cell⟩ ∧ tls.capturedBls = ⟨cell⟩ := by
  cases h with
  | server h | serverSpkiPinned h =>
    obtain ⟨c, hc, h⟩ := bind_eq_ok.mp h
    cases h
    have hv := buildServerConfig_ok hc
    change _ = c.verifier.captured ∧ _ = c.verifier.capturedBls ∧ _
    rw [hv]
    exact ⟨rfl, rfl, rfl, rfl⟩
  | client h | clientSpkiPinned h =>
    obtain ⟨c, hc, h⟩ := bind_eq_ok.mp h
    cases h
    have hv := buildClientConfig_ok hc
    change _ = c.verifier.captured ∧ _ = c.verifier.capturedBls ∧ _
    rw [hv]
    exact ⟨rfl, rfl, rfl, rfl⟩

end PeerTls

end DigTls
