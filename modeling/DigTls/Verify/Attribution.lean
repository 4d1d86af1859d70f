import DigTls.Verify.Config
import DigTls.Verify.Handshake

/-! # Whose identity a completed connection is read as

The handles of a configuration are documented to tell, after a handshake, who connected. All
connections of the configuration write the cells behind them, so what is read belongs to the
last stores, whoever made them. The reading is right all along a run exactly when no store
differs from what the completed connections, or the one completing, stand for.
-/
namespace DigTls
open EffectPrograms
variable {B : Backend}

/-- Every completed connection is read as the peer of the leaf it authenticated with. -/
def Attributed (B : Backend) (tls : PeerTls) (s : Endpoint) : Prop :=
  ∀ i p, s.conn i = .completed p → ∃ x509, B.parseX509Certificate p.leaf = .ok x509 ∧
    tls.capturedPeerId.get s.heap = some (peerIdFromTlsSpkiDer B x509.subjectPki) ∧
    tls.capturedBls.get s.heap = sealKey B tls.verifier.cert.bindingPolicy p.leaf

/-- Two leaves that a store cannot tell apart. -/
def Agree (B : Backend) (policy : BindingPolicy) (p q : Presentation) : CellOp → Prop
  | .storePeerId _ _ => peerIdFromLeafCertDer B p.leaf = peerIdFromLeafCertDer B q.leaf
  | .storeBlsPub _ _ => sealKey B policy p.leaf = sealKey B policy q.leaf

/-- A store is made only for a leaf that agrees with those of all completed connections, and
a full handshake completes only while the last store into each cell was made for a leaf that
agrees with its own. -/
def Undisturbed (B : Backend) (w : PeerVerifier) (s : Endpoint) : HandshakeEvent → Prop
  | .store i => ∀ p op next, s.conn i = .verifying p (.call op next) →
      ∀ j q, s.conn j = .completed q → Agree B w.cert.bindingPolicy p q op
  | .prove i true => ∀ p, s.conn i = .verifying p (.done ()) →
      (s.lastPeerId.bind fun q => peerIdFromLeafCertDer B q.leaf) = peerIdFromLeafCertDer B p.leaf ∧
      (s.lastBls.bind fun q => sealKey B w.cert.bindingPolicy q.leaf) =
        sealKey B w.cert.bindingPolicy p.leaf
  | _ => True

def CellsHold (B : Backend) (w : PeerVerifier) (h : Heap) (p : Presentation) : Prop :=
  w.cert.captured.get h = peerIdFromLeafCertDer B p.leaf ∧
    w.cert.capturedBls.get h = sealKey B w.cert.bindingPolicy p.leaf

theorem attributed_iff {tls : PeerTls} {cell : Cell} {s : Endpoint} (hb : tls.Built B cell)
    (hs : s.Sound B tls.verifier) :
    Attributed B tls s ↔ ∀ i p, s.conn i = .completed p → CellsHold B tls.verifier s.heap p := by
  obtain ⟨hid, hbls, _, _⟩ := hb.handles
  refine forall_congr' fun i => forall_congr' fun p => forall_congr' fun hc => ?_
  have hparses := hs.completed i p hc
  unfold CellsHold
  rw [hid, hbls]
  cases hx : B.parseX509Certificate p.leaf with
  | error e => simp [peerIdFromLeafCertDer, hx] at hparses
  | ok x509 => simp [peerIdFromLeafCertDer, hx]

/-- A store keeps the reading of a completed connection exactly if it was made for a leaf that
agrees with that connection's. -/
theorem cellsHold_stored {w : PeerVerifier} {s : Endpoint} {p q : Presentation} {op : CellOp}
    (hop : Records B w.cert p.leaf op) (hold : CellsHold B w s.heap q) :
    CellsHold B w (s.stored p op).heap q ↔ Agree B w.cert.bindingPolicy p q op := by
  obtain ⟨hid, hbls⟩ := hold
  cases op with
  | storePeerId cell value =>
    obtain ⟨rfl, rfl⟩ := hop
    have hkeep : w.cert.capturedBls.get (s.stored p (.storePeerId w.cert.captured.cell
        (peerIdFromLeafCertDer B p.leaf))).heap = sealKey B w.cert.bindingPolicy q.leaf := hbls
    simp only [CellsHold, hkeep, and_true, Agree]
    simp [Endpoint.stored, CapturedPeerId.get, Heap.run]
  | storeBlsPub cell value =>
    obtain ⟨rfl, rfl⟩ := hop
    have hkeep : w.cert.captured.get (s.stored p (.storeBlsPub w.cert.capturedBls.cell
        (sealKey B w.cert.bindingPolicy p.leaf))).heap = peerIdFromLeafCertDer B q.leaf := hid
    simp only [CellsHold, hkeep, true_and, Agree]
    simp [Endpoint.stored, CapturedBlsPub.get, Heap.run]

theorem completed_move {s : Endpoint} {i : ℕ} {c : Progress} (hi : ∀ p, s.conn i ≠ .completed p)
    (hc : ∀ p, c ≠ .completed p) (j : ℕ) (q : Presentation) :
    (s.move i c).conn j = .completed q ↔ s.conn j = .completed q := by
  by_cases hji : j = i
  · subst hji
    simp [hi q, hc q]
  · rw [Endpoint.move_conn_of_ne hji]

/-- One step keeps all readings right exactly if it is undisturbed. -/
theorem attributed_step {tls : PeerTls} {cell : Cell} {s t : Endpoint} {e : HandshakeEvent}
    (hb : tls.Built B cell) (hs : s.Sound B tls.verifier) (ha : Attributed B tls s)
    (hstep : s.step B tls.verifier e = some t) :
    Attributed B tls t ↔ Undisturbed B tls.verifier s e := by
  have hold := (attributed_iff hb hs).mp ha
  rw [attributed_iff hb (hs.step hstep)]
  rcases Endpoint.step_cases hstep with ⟨i, p, rfl, hi, rfl⟩ | ⟨i, p, op, next, rfl, hi, rfl⟩ |
    ⟨i, p, err, rfl, hi, rfl⟩ | ⟨i, p, genuine, rfl, hi, rfl⟩ | ⟨i, j, p, rfl, hi, hj, rfl⟩
  · have hmove := completed_move (s := s) (i := i) (c := .verifying p (tls.verifier.verify B p))
      (by simp [hi]) (by simp)
    simpa [Undisturbed, hmove] using hold
  · obtain ⟨hop, _⟩ := hs.verifying i p _ hi
    have hmove := completed_move (s := s.stored p op) (i := i) (c := .verifying p (next ()))
      (by simp [hi]) (by simp)
    simp only [hmove, Endpoint.move_heap, Endpoint.stored_conn]
    constructor
    · intro hnew q op' next' hq j r hj
      rw [hi] at hq
      cases hq
      exact (cellsHold_stored hop (hold j r hj)).mp (hnew j r hj)
    · intro hagree j r hj
      exact (cellsHold_stored hop (hold j r hj)).mpr (hagree p op next hi j r hj)
  · have hmove := completed_move (s := s) (i := i) (c := .failed p) (by simp [hi]) (by simp)
    simpa [Undisturbed, hmove] using hold
  · cases genuine with
    | false =>
      have hmove := completed_move (s := s) (i := i) (c := .failed p) (by simp [hi]) (by simp)
      simpa [Undisturbed, hmove] using hold
    | true =>
      have hcell : CellsHold B tls.verifier s.heap p ↔
          Undisturbed B tls.verifier s (.prove i true) := by
        simp [CellsHold, Undisturbed, hi, hs.peerIdCell, hs.blsCell]
      rw [← hcell]
      constructor
      · intro hnew
        exact hnew i p (by simp)
      · intro hp j q hj
        by_cases hji : j = i
        · subst hji
          have hpq : p = q := by simpa using hj
          exact hpq ▸ hp
        · rw [Endpoint.move_conn_of_ne hji] at hj
          exact hold j q hj
  · simp only [Undisturbed, iff_true]
    intro k q hk
    by_cases hki : k = i
    · subst hki
      have hpq : p = q := by simpa using hk
      exact hpq ▸ hold j p hj
    · rw [Endpoint.move_conn_of_ne hki] at hk
      exact hold k q hk

theorem attributed_fresh (tls : PeerTls) (h : Heap) : Attributed B tls (.fresh h) := by
  intro i p hp
  cases hp

/-- In every run of handshakes over a configuration, all completed connections are read as the
peers they authenticated, in every state, exactly when every step is undisturbed. -/
theorem attribution_iff_undisturbed {tls : PeerTls} {cell : Cell} {h : Heap}
    {ls : List (Endpoint × HandshakeEvent)} {t : Endpoint} (hb : tls.Built B cell)
    (hid : h.peerId cell = none) (hbls : h.blsPub cell = none)
    (hrun : Endpoint.Run B tls.verifier (.fresh h) ls t) :
    ((∀ x ∈ ls, Attributed B tls x.1) ∧ Attributed B tls t) ↔
      ∀ x ∈ ls, Undisturbed B tls.verifier x.1 x.2 := by
  obtain ⟨hcap, hcapBls, hcell, hcellBls⟩ := hb.handles
  have hsound : (Endpoint.fresh h).Sound B tls.verifier := by
    apply Endpoint.Sound.fresh
    · rw [← hcap, hcell]
      exact hid
    · rw [← hcapBls, hcellBls]
      exact hbls
  exact hrun.everywhere_iff (J := Endpoint.Sound B tls.verifier) hsound (attributed_fresh tls h)
    (fun u l v hu => hu.step) (fun u l v hu hP => attributed_step hb hu hP)

def toyServer : ServerTls :=
  ⟨⟨.newSpkiPinned none ⟨0⟩ .opportunistic ⟨0⟩, [[9]], [9]⟩, ⟨0⟩, ⟨0⟩⟩

def toyNode : NodeCert := ⟨"", "", [9], [9], [9], ⟨List.Vector.replicate 32 9⟩⟩

theorem toyServer_built : PeerTls.Built toyBackend 0 (.server toyServer) :=
  @PeerTls.Built.serverSpkiPinned toyBackend 0 toyNode .opportunistic toyServer rfl

def noHeap : Heap := ⟨fun _ => none, fun _ => none⟩

def genuineHandshake : List HandshakeEvent :=
  [.present 0 ⟨toyLeaf 1 7, [], "peer.dig", [], 0⟩, .store 0, .store 0, .prove 0 true]

def stolenHandshake : List HandshakeEvent :=
  [.present 1 ⟨[2], [], "peer.dig", [], 0⟩, .store 1, .store 1, .prove 1 false]

def crossedHandshakes : List HandshakeEvent :=
  [.present 1 ⟨[2], [], "peer.dig", [], 0⟩, .present 0 ⟨toyLeaf 1 7, [], "peer.dig", [], 0⟩, .store 1, .store 0,
    .store 1, .store 0, .prove 1 false, .prove 0 true]

theorem attribution_iff_undisturbed_genuine :
    ∃ (ls : List (Endpoint × HandshakeEvent)) (t : Endpoint), ls.map Prod.snd = crossedHandshakes ∧
      (t.conn 0).peer = some ⟨toyLeaf 1 7, [], "peer.dig", [], 0⟩ ∧ (t.conn 1).peer = none ∧
      (((∀ x ∈ ls, Attributed toyBackend (.server toyServer) x.1) ∧
        Attributed toyBackend (.server toyServer) t) ↔
      ∀ x ∈ ls, Undisturbed toyBackend (PeerTls.server toyServer).verifier x.1 x.2) := by
  have hplay : ((Endpoint.fresh noHeap).play toyBackend (PeerTls.server toyServer).verifier
      crossedHandshakes).map (fun t => ((t.conn 0).peer, (t.conn 1).peer)) =
      some (some ⟨toyLeaf 1 7, [], "peer.dig", [], 0⟩, none) := by decide +kernel
  obtain ⟨t, ht, hobs⟩ := Option.map_eq_some_iff.mp hplay
  simp only [Prod.mk.injEq] at hobs
  obtain ⟨ls, hls, hrun⟩ := Endpoint.run_of_play ht
  exact ⟨ls, t, hls, hobs.1, hobs.2, attribution_iff_undisturbed toyServer_built rfl rfl hrun⟩

/-- After a genuine connection has completed, a failed one that presents another leaf makes
the caller read the genuine connection as the other peer. -/
theorem completed_connection_read_as_stranger :
    ∃ t, (Endpoint.fresh noHeap).play toyBackend (PeerTls.server toyServer).verifier
        (genuineHandshake ++ stolenHandshake) = some t ∧
      (t.conn 0).peer = some ⟨toyLeaf 1 7, [], "peer.dig", [], 0⟩ ∧ (t.conn 1).peer = none ∧
      toyServer.capturedPeerId.get t.heap = some ⟨List.Vector.replicate 32 2⟩ ∧
      ¬ Attributed toyBackend (.server toyServer) t := by
  have hplay : ((Endpoint.fresh noHeap).play toyBackend (PeerTls.server toyServer).verifier
      (genuineHandshake ++ stolenHandshake)).map (fun t => ((t.conn 0).peer, (t.conn 1).peer,
        toyServer.capturedPeerId.get t.heap)) =
      some (some ⟨toyLeaf 1 7, [], "peer.dig", [], 0⟩, none, some ⟨List.Vector.replicate 32 2⟩) := by
    decide +kernel
  obtain ⟨t, ht, hobs⟩ := Option.map_eq_some_iff.mp hplay
  simp only [Prod.mk.injEq] at hobs
  obtain ⟨hzero, hone, hread⟩ := hobs
  refine ⟨t, ht, hzero, hone, hread, ?_⟩
  intro hattr
  obtain ⟨x509, hx, hid, _⟩ := hattr 0 _ (Progress.peer_eq_some_iff.mp hzero)
  cases hx
  exact absurd (hread.symm.trans hid) (by decide)

end DigTls
