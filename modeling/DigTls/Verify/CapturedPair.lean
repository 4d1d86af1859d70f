import DigTls.Verify.Attribution

/-! # The pair the two cells show

A caller takes the captured peer id and the captured key for one leaf's. The peer id is
stored before the pin and the binding are looked at, the key only after, so a rejected or an
overlapping call can leave one leaf's peer id beside another leaf's key.
-/
namespace DigTls
open EffectPrograms
variable {B : Backend}

/-- Some single presented leaf has this peer id and a binding that verifies to this key. -/
def Paired (B : Backend) (s : Endpoint) (id : PeerId) (b : Octets 48) : Prop :=
  ∃ i m, (s.conn i).presentation = some m ∧ peerIdFromLeafCertDer B m.leaf = some id ∧
    verifyBindingFromLeafCert B m.leaf = .bound b

/-- The two cells never pair one leaf's peer id with another leaf's key. -/
def Consistent (B : Backend) (w : PeerVerifier) (s : Endpoint) : Prop :=
  ∀ id b, w.cert.captured.get s.heap = some id → w.cert.capturedBls.get s.heap = some b →
    Paired B s id b

/-- The peer id of `p` beside the key of `q`, if `q` has one, is the pair of one presented leaf. -/
def Backed (B : Backend) (policy : BindingPolicy) (s : Endpoint) (p q : Presentation) : Prop :=
  ∀ id b, peerIdFromLeafCertDer B p.leaf = some id → sealKey B policy q.leaf = some b →
    Paired B s id b

/-- A peer id is stored only beside the key of a leaf it can stand with, and a key only beside
the peer id of a leaf it can stand with. -/
def Coherent (B : Backend) (w : PeerVerifier) (s : Endpoint) : HandshakeEvent → Prop
  | .store i => ∀ p op next, s.conn i = .verifying p (.call op next) →
      match op with
      | .storePeerId _ _ => ∀ q, s.lastBls = some q → Backed B w.cert.bindingPolicy s p q
      | .storeBlsPub _ _ => ∀ q, s.lastPeerId = some q → Backed B w.cert.bindingPolicy s q p
  | _ => True

theorem paired_move_iff {s : Endpoint} {i : ℕ} {c : Progress} {id : PeerId} {b : Octets 48}
    (hc : c.presentation = (s.conn i).presentation) : Paired B (s.move i c) id b ↔ Paired B s id b := by
  have hpres : ∀ j, ((s.move i c).conn j).presentation = (s.conn j).presentation := by
    intro j
    by_cases hji : j = i
    · subst hji
      simpa using hc
    · rw [Endpoint.move_conn_of_ne hji]
  simp only [Paired, hpres]

theorem Paired.of_idle {s : Endpoint} {i : ℕ} {c : Progress} {id : PeerId} {b : Octets 48}
    (hi : s.conn i = .idle) (h : Paired B s id b) : Paired B (s.move i c) id b := by
  obtain ⟨j, m, hj, hm⟩ := h
  refine ⟨j, m, ?_, hm⟩
  have hji : j ≠ i := by
    rintro rfl
    simp [hi] at hj
  rwa [Endpoint.move_conn_of_ne hji]

/-- A store of either kind leaves a consistent pair exactly if it is coherent. -/
theorem consistent_stored {w : PeerVerifier} {s : Endpoint} {i : ℕ} {p : Presentation} {op : CellOp}
    {next : Unit → Verification Unit} (hs : s.Sound B w) (hi : s.conn i = .verifying p (.call op next)) :
    Consistent B w ((s.stored p op).move i (.verifying p (next ()))) ↔ Coherent B w s (.store i) := by
  obtain ⟨hop, _⟩ := hs.verifying i p _ hi
  have hpaired : ∀ id b, Paired B ((s.stored p op).move i (.verifying p (next ()))) id b ↔
      Paired B s id b := by
    intro id b
    rw [paired_move_iff (by simp [hi])]
    simp [Paired]
  have hid := hs.peerIdCell
  have hbls := hs.blsCell
  unfold Consistent Coherent
  simp only [hpaired, hi, Progress.verifying.injEq, Program.call.injEq, Endpoint.move_heap]
  cases op with
  | storePeerId cell value =>
    obtain ⟨rfl, rfl⟩ := hop
    have hnew : w.cert.captured.get (s.stored p (.storePeerId w.cert.captured.cell
        (peerIdFromLeafCertDer B p.leaf))).heap = peerIdFromLeafCertDer B p.leaf := by
      simp [Endpoint.stored, CapturedPeerId.get, Heap.run]
    have hkeep : w.cert.capturedBls.get (s.stored p (.storePeerId w.cert.captured.cell
        (peerIdFromLeafCertDer B p.leaf))).heap =
        s.lastBls.bind fun q => sealKey B w.cert.bindingPolicy q.leaf := hbls
    rw [hnew, hkeep]
    constructor
    · rintro hcons _ _ _ ⟨rfl, rfl, -⟩ q hq id b hpid hkey
      exact hcons id b hpid (by rw [hq]; exact hkey)
    · intro hcoh id b hpid hkey
      obtain ⟨q, hq, hqkey⟩ := Option.bind_eq_some_iff.mp hkey
      exact hcoh p _ next ⟨rfl, rfl, HEq.rfl⟩ q hq id b hpid hqkey
  | storeBlsPub cell value =>
    obtain ⟨rfl, rfl⟩ := hop
    have hnew : w.cert.capturedBls.get (s.stored p (.storeBlsPub w.cert.capturedBls.cell
        (sealKey B w.cert.bindingPolicy p.leaf))).heap = sealKey B w.cert.bindingPolicy p.leaf := by
      simp [Endpoint.stored, CapturedBlsPub.get, Heap.run]
    have hkeep : w.cert.captured.get (s.stored p (.storeBlsPub w.cert.capturedBls.cell
        (sealKey B w.cert.bindingPolicy p.leaf))).heap =
        s.lastPeerId.bind fun q => peerIdFromLeafCertDer B q.leaf := hid
    rw [hnew, hkeep]
    constructor
    · rintro hcons _ _ _ ⟨rfl, rfl, -⟩ q hq id b hqid hkey
      exact hcons id b (by rw [hq]; exact hqid) hkey
    · intro hcoh id b hqid hkey
      obtain ⟨q, hq, hid'⟩ := Option.bind_eq_some_iff.mp hqid
      exact hcoh p _ next ⟨rfl, rfl, HEq.rfl⟩ q hq id b hid' hkey

theorem consistent_step {w : PeerVerifier} {s t : Endpoint} {e : HandshakeEvent} (hs : s.Sound B w)
    (hcons : Consistent B w s) (hstep : s.step B w e = some t) :
    Consistent B w t ↔ Coherent B w s e := by
  rcases Endpoint.step_cases hstep with ⟨i, p, rfl, hi, rfl⟩ | ⟨i, p, op, next, rfl, hi, rfl⟩ |
    ⟨i, p, err, rfl, hi, rfl⟩ | ⟨i, p, genuine, rfl, hi, rfl⟩ | ⟨i, j, p, rfl, hi, hj, rfl⟩
  · simp only [Coherent, iff_true]
    exact fun id b hid hb => (hcons id b hid hb).of_idle hi
  · exact consistent_stored hs hi
  · simp only [Coherent, iff_true]
    intro id b hid hb
    rw [paired_move_iff (by simp [hi])]
    exact hcons id b hid hb
  · simp only [Coherent, iff_true]
    intro id b hid hb
    rw [paired_move_iff (by cases genuine <;> simp [hi])]
    exact hcons id b hid hb
  · simp only [Coherent, iff_true]
    exact fun id b hid hb => (hcons id b hid hb).of_idle hi

/-- From empty cells, the captured pair is consistent in every state of a run exactly when every
store of the run is coherent. -/
theorem captured_pair_iff_coherent {w : PeerVerifier} {h : Heap}
    {ls : List (Endpoint × HandshakeEvent)} {t : Endpoint} (hid : w.cert.captured.get h = none)
    (hbls : w.cert.capturedBls.get h = none) (hrun : Endpoint.Run B w (.fresh h) ls t) :
    ((∀ x ∈ ls, Consistent B w x.1) ∧ Consistent B w t) ↔ ∀ x ∈ ls, Coherent B w x.1 x.2 := by
  have hstart : Consistent B w (.fresh h) := by
    intro id b hcap
    rw [show w.cert.captured.get (Endpoint.fresh h).heap = none from hid] at hcap
    cases hcap
  exact hrun.everywhere_iff (J := Endpoint.Sound B w) (Endpoint.Sound.fresh hid hbls) hstart
    (fun u l v hu => hu.step) (fun u l v hu hP => consistent_step hu hP)

theorem presented_of_play {w : PeerVerifier} {s t : Endpoint} {es : List HandshakeEvent} {m : Presentation}
    (hplay : s.play B w es = some t) (h : ∃ i, (t.conn i).presentation = some m) :
    (∃ i, (s.conn i).presentation = some m) ∨ ∃ i, .present i m ∈ es := by
  induction es generalizing s with
  | nil =>
    cases hplay
    exact Or.inl h
  | cons e es ih =>
    obtain ⟨u, hu, hrest⟩ := Option.bind_eq_some_iff.mp hplay
    rcases ih hrest with ⟨j, hj⟩ | ⟨j, hj⟩
    · have hmove : ∀ (v : Endpoint) i c, (((v.move i c).conn j).presentation = some m) →
          c.presentation = some m ∨ (v.conn j).presentation = some m := by
        intro v i c hc
        by_cases hji : j = i
        · subst hji
          exact Or.inl (by simpa using hc)
        · rw [Endpoint.move_conn_of_ne hji] at hc
          exact Or.inr hc
      rcases Endpoint.step_cases hu with ⟨i, p, rfl, hi, rfl⟩ | ⟨i, p, op, next, rfl, hi, rfl⟩ |
        ⟨i, p, err, rfl, hi, rfl⟩ | ⟨i, p, genuine, rfl, hi, rfl⟩ | ⟨i, k, p, rfl, hi, hk, rfl⟩
      · rcases hmove _ _ _ hj with hc | hc
        · cases hc
          exact Or.inr ⟨i, by simp⟩
        · exact Or.inl ⟨j, hc⟩
      · rcases hmove _ _ _ hj with hc | hc
        · exact Or.inl ⟨i, by simpa [hi] using hc⟩
        · exact Or.inl ⟨j, by simpa using hc⟩
      · rcases hmove _ _ _ hj with hc | hc
        · exact Or.inl ⟨i, by simpa [hi] using hc⟩
        · exact Or.inl ⟨j, hc⟩
      · rcases hmove _ _ _ hj with hc | hc
        · exact Or.inl ⟨i, by cases genuine <;> simpa [hi] using hc⟩
        · exact Or.inl ⟨j, hc⟩
      · rcases hmove _ _ _ hj with hc | hc
        · exact Or.inl ⟨k, by simpa [hk] using hc⟩
        · exact Or.inl ⟨j, hc⟩
    · exact Or.inr ⟨j, List.mem_cons_of_mem _ hj⟩

def requiring : PeerVerifier := .client (.newSpkiPinned none ⟨0⟩ .required ⟨0⟩)

def boundThenUnbound : List HandshakeEvent :=
  [.present 0 ⟨toyLeaf 1 7, [], "peer.dig", [], 0⟩, .store 0, .store 0,
    .present 1 ⟨[2], [], "peer.dig", [], 0⟩, .store 1, .reject 1]

theorem captured_pair_iff_coherent_genuine :
    ∃ (ls : List (Endpoint × HandshakeEvent)) (t : Endpoint),
      ls.map Prod.snd = [.present 1 ⟨[2], [], "peer.dig", [], 0⟩, .store 1, .reject 1] ++ genuineHandshake ∧
      requiring.cert.captured.get t.heap = some ⟨List.Vector.replicate 32 1⟩ ∧
      (((∀ x ∈ ls, Consistent toyBackend requiring x.1) ∧ Consistent toyBackend requiring t) ↔
        ∀ x ∈ ls, Coherent toyBackend requiring x.1 x.2) := by
  have hplay : ((Endpoint.fresh noHeap).play toyBackend requiring
      ([.present 1 ⟨[2], [], "peer.dig", [], 0⟩, .store 1, .reject 1] ++ genuineHandshake)).map
        (fun t => requiring.cert.captured.get t.heap) = some (some ⟨List.Vector.replicate 32 1⟩) := by
    decide +kernel
  obtain ⟨t, ht, hread⟩ := Option.map_eq_some_iff.mp hplay
  obtain ⟨ls, hls, hrun⟩ := Endpoint.run_of_play ht
  exact ⟨ls, t, hls, hread, captured_pair_iff_coherent rfl rfl hrun⟩

/-- The rejected leaf's peer id stands beside the accepted leaf's key. -/
theorem rejected_leaf_beside_accepted_key :
    ∃ t, (Endpoint.fresh noHeap).play toyBackend requiring boundThenUnbound = some t ∧
      requiring.cert.captured.get t.heap = some ⟨List.Vector.replicate 32 2⟩ ∧
      requiring.cert.capturedBls.get t.heap = some (List.Vector.replicate 48 7) ∧
      ¬ Consistent toyBackend requiring t := by
  have hplay : ((Endpoint.fresh noHeap).play toyBackend requiring boundThenUnbound).map (fun t =>
      (requiring.cert.captured.get t.heap, requiring.cert.capturedBls.get t.heap)) =
      some (some ⟨List.Vector.replicate 32 2⟩, some (List.Vector.replicate 48 7)) := by decide +kernel
  obtain ⟨t, ht, hobs⟩ := Option.map_eq_some_iff.mp hplay
  simp only [Prod.mk.injEq] at hobs
  obtain ⟨hread, hkey⟩ := hobs
  refine ⟨t, ht, hread, hkey, ?_⟩
  intro hcons
  obtain ⟨i, m, hm, hid, hbound⟩ := hcons _ _ hread hkey
  rcases presented_of_play ht ⟨i, hm⟩ with ⟨j, hj⟩ | ⟨j, hj⟩
  · cases hj
  · simp only [boundThenUnbound, List.mem_cons, HandshakeEvent.present.injEq, reduceCtorEq,
      List.not_mem_nil, or_false, false_or] at hj
    rcases hj with ⟨_, rfl⟩ | ⟨_, rfl⟩
    · exact absurd hid (by decide +kernel)
    · exact absurd hbound (by decide +kernel)

end DigTls
