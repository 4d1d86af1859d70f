import DigTls.Verify.Acceptance

/-! # Handshakes over one configuration

Every connection of a configuration calls the same verifier and so writes the same two
cells. A full handshake runs the verifier, store by store, and completes when the peer has
proved possession of the leaf's key; a resumed one takes over the peer of an earlier
connection and never calls the verifier. Steps of different connections come in any order.
-/
namespace DigTls
open EffectPrograms

inductive Progress where
  | idle
  | verifying (p : Presentation) (rest : Verification Unit)
  | completed (p : Presentation)
  | failed (p : Presentation)

@[simp] def Progress.presentation : Progress → Option Presentation
  | idle => none
  | verifying p _ | completed p | failed p => some p

def Progress.peer : Progress → Option Presentation
  | completed p => some p
  | _ => none

theorem Progress.peer_eq_some_iff {c : Progress} {p : Presentation} :
    c.peer = some p ↔ c = .completed p := by
  cases c <;> simp [Progress.peer]

/-- The cells and the connections. `lastPeerId` and `lastBls` note whose leaf the last store
into each cell was made for; no step reads them. -/
structure Endpoint where
  heap : Heap
  conn : ℕ → Progress
  lastPeerId : Option Presentation
  lastBls : Option Presentation

inductive HandshakeEvent where
  | present (i : ℕ) (p : Presentation)
  | store (i : ℕ)
  | reject (i : ℕ)
  | prove (i : ℕ) (genuine : Bool)
  | resume (i j : ℕ)

namespace Endpoint

def fresh (h : Heap) : Endpoint := ⟨h, fun _ => .idle, none, none⟩

def move (s : Endpoint) (i : ℕ) (c : Progress) : Endpoint :=
  { s with conn := Function.update s.conn i c }

def stored (s : Endpoint) (p : Presentation) : CellOp → Endpoint
  | .storePeerId cell value =>
    { s with heap := (Heap.run (.storePeerId cell value) s.heap).2, lastPeerId := some p }
  | .storeBlsPub cell value =>
    { s with heap := (Heap.run (.storeBlsPub cell value) s.heap).2, lastBls := some p }

variable (B : Backend)

/-- One step of one connection, when it is due. -/
def step (w : PeerVerifier) (s : Endpoint) : HandshakeEvent → Option Endpoint
  | .present i p =>
    match s.conn i with
    | .idle => some (s.move i (.verifying p (w.verify B p)))
    | _ => none
  | .store i =>
    match s.conn i with
    | .verifying p (.call op next) => some ((s.stored p op).move i (.verifying p (next ())))
    | _ => none
  | .reject i =>
    match s.conn i with
    | .verifying p (.raise _) => some (s.move i (.failed p))
    | _ => none
  | .prove i genuine =>
    match s.conn i with
    | .verifying p (.done _) => some (s.move i (if genuine then .completed p else .failed p))
    | _ => none
  | .resume i j =>
    match s.conn i, s.conn j with
    | .idle, .completed p => some (s.move i (.completed p))
    | _, _ => none

def play (w : PeerVerifier) : Endpoint → List HandshakeEvent → Option Endpoint
  | s, [] => some s
  | s, e :: es => (s.step B w e).bind fun t => t.play w es

variable {B} {w : PeerVerifier} {s t : Endpoint}

theorem step_cases {e : HandshakeEvent} (h : s.step B w e = some t) :
    (∃ i p, e = .present i p ∧ s.conn i = .idle ∧ t = s.move i (.verifying p (w.verify B p))) ∨
    (∃ i p op next, e = .store i ∧ s.conn i = .verifying p (.call op next) ∧
      t = (s.stored p op).move i (.verifying p (next ()))) ∨
    (∃ i p err, e = .reject i ∧ s.conn i = .verifying p (.raise err) ∧ t = s.move i (.failed p)) ∨
    (∃ i p genuine, e = .prove i genuine ∧ s.conn i = .verifying p (.done ()) ∧
      t = s.move i (if genuine then .completed p else .failed p)) ∨
    (∃ i j p, e = .resume i j ∧ s.conn i = .idle ∧ s.conn j = .completed p ∧
      t = s.move i (.completed p)) := by
  cases e with
  | present i p =>
    simp only [step] at h
    split at h
    · case h_1 hi => exact Or.inl ⟨i, p, rfl, hi, by simpa using h.symm⟩
    · cases h
  | store i =>
    simp only [step] at h
    split at h
    · case h_1 p op next hi => exact Or.inr (Or.inl ⟨i, p, op, next, rfl, hi, by simpa using h.symm⟩)
    · cases h
  | reject i =>
    simp only [step] at h
    split at h
    · case h_1 p err hi =>
        exact Or.inr (Or.inr (Or.inl ⟨i, p, err, rfl, hi, by simpa using h.symm⟩))
    · cases h
  | prove i genuine =>
    simp only [step] at h
    split at h
    · case h_1 p a hi =>
        exact Or.inr (Or.inr (Or.inr (Or.inl ⟨i, p, genuine, rfl, hi, by simpa using h.symm⟩)))
    · cases h
  | resume i j =>
    simp only [step] at h
    split at h
    · case h_1 p hi hj =>
        exact Or.inr (Or.inr (Or.inr (Or.inr ⟨i, j, p, rfl, hi, hj, by simpa using h.symm⟩)))
    · cases h

@[simp] theorem move_heap (i : ℕ) (c : Progress) : (s.move i c).heap = s.heap := rfl
@[simp] theorem move_conn_self (i : ℕ) (c : Progress) : (s.move i c).conn i = c :=
  Function.update_self ..
theorem move_conn_of_ne {i j : ℕ} (h : j ≠ i) (c : Progress) : (s.move i c).conn j = s.conn j :=
  Function.update_of_ne h ..
@[simp] theorem stored_conn (p : Presentation) (op : CellOp) : (s.stored p op).conn = s.conn := by
  cases op <;> rfl

abbrev Run (B : Backend) (w : PeerVerifier) : Endpoint → List (Endpoint × HandshakeEvent) → Endpoint → Prop :=
  History fun s e t => s.step B w e = some t

theorem run_of_play {es : List HandshakeEvent} (h : s.play B w es = some t) :
    ∃ ls, ls.map Prod.snd = es ∧ Run B w s ls t :=
  History.of_play (fun _ => rfl) (fun _ _ _ => rfl) h

end Endpoint

/-- The key a leaf's binding verifies to, as far as the policy looks at it. -/
def sealKey (B : Backend) (policy : BindingPolicy) (leaf : Bytes) : Option (Octets 48) :=
  match evaluate (verifyBindingFromLeafCert B leaf) policy with
  | .ok key => key
  | .error _ => none

variable {B : Backend}

/-- A store made for this leaf: its own peer id or its own key, in the verifier's cell. -/
def Records (B : Backend) (v : CertVerifier) (leaf : Bytes) : CellOp → Prop
  | .storePeerId cell value => cell = v.captured.cell ∧ value = peerIdFromLeafCertDer B leaf
  | .storeBlsPub cell value => cell = v.capturedBls.cell ∧ value = sealKey B v.bindingPolicy leaf

/-- A verification stores nothing but values of the presented leaf, and accepts only leaves
that parse. -/
theorem verify_records (w : PeerVerifier) (p : Presentation) :
    (w.verify B p).Forall (Records B w.cert p.leaf) fun _ => (peerIdFromLeafCertDer B p.leaf).isSome := by
  rw [PeerVerifier.verify_eq, verifyCert_eq]
  unfold judge
  split
  · trivial
  · cases hid : peerIdFromLeafCertDer B p.leaf with
    | none => trivial
    | some id =>
      have hstore : Records B w.cert p.leaf (.storePeerId w.cert.captured.cell (some id)) :=
        ⟨rfl, hid.symm⟩
      simp only [judgeSeen]
      split_ifs with hadm hoff
      · exact ⟨hstore, fun _ => rfl⟩
      · cases he : evaluate (verifyBindingFromLeafCert B p.leaf) w.cert.bindingPolicy with
        | error reason => exact ⟨hstore, fun _ => trivial⟩
        | ok key => exact ⟨hstore, fun _ => ⟨⟨rfl, by simp [sealKey, he]⟩, fun _ => rfl⟩⟩
      · exact ⟨hstore, fun _ => trivial⟩

/-- What holds at every moment of a run: a verification under way goes on to store values of
its own leaf only, completed connections have a leaf that parses, and each cell holds what
the last store into it was made for. -/
structure Endpoint.Sound (B : Backend) (w : PeerVerifier) (s : Endpoint) : Prop where
  verifying : ∀ i p rest, s.conn i = .verifying p rest →
    rest.Forall (Records B w.cert p.leaf) fun _ => (peerIdFromLeafCertDer B p.leaf).isSome
  completed : ∀ i p, s.conn i = .completed p → (peerIdFromLeafCertDer B p.leaf).isSome
  peerIdCell : w.cert.captured.get s.heap =
    s.lastPeerId.bind fun p => peerIdFromLeafCertDer B p.leaf
  blsCell : w.cert.capturedBls.get s.heap =
    s.lastBls.bind fun p => sealKey B w.cert.bindingPolicy p.leaf

theorem Endpoint.Sound.fresh {w : PeerVerifier} {h : Heap} (hid : w.cert.captured.get h = none)
    (hbls : w.cert.capturedBls.get h = none) : (Endpoint.fresh h).Sound B w :=
  ⟨by simp [Endpoint.fresh], by simp [Endpoint.fresh], hid, hbls⟩

theorem Endpoint.Sound.move {w : PeerVerifier} {s : Endpoint} (h : s.Sound B w) (i : ℕ) (c : Progress)
    (hver : ∀ p rest, c = .verifying p rest →
      rest.Forall (Records B w.cert p.leaf) fun _ => (peerIdFromLeafCertDer B p.leaf).isSome)
    (hcomp : ∀ p, c = .completed p → (peerIdFromLeafCertDer B p.leaf).isSome) :
    (s.move i c).Sound B w := by
  refine ⟨?_, ?_, h.peerIdCell, h.blsCell⟩
  · intro j p rest hj
    by_cases hji : j = i
    · subst hji
      exact hver p rest (by simpa using hj)
    · rw [Endpoint.move_conn_of_ne hji] at hj
      exact h.verifying j p rest hj
  · intro j p hj
    by_cases hji : j = i
    · subst hji
      exact hcomp p (by simpa using hj)
    · rw [Endpoint.move_conn_of_ne hji] at hj
      exact h.completed j p hj

theorem Endpoint.Sound.stored {w : PeerVerifier} {s : Endpoint} (h : s.Sound B w) {p : Presentation}
    {op : CellOp} (hop : Records B w.cert p.leaf op) : (s.stored p op).Sound B w := by
  refine ⟨?_, ?_, ?_, ?_⟩
  · simpa using h.verifying
  · simpa using h.completed
  · cases op with
    | storePeerId cell value =>
      obtain ⟨rfl, rfl⟩ := hop
      simp [Endpoint.stored, CapturedPeerId.get, Heap.run]
    | storeBlsPub cell value => exact h.peerIdCell
  · cases op with
    | storePeerId cell value => exact h.blsCell
    | storeBlsPub cell value =>
      obtain ⟨rfl, rfl⟩ := hop
      simp [Endpoint.stored, CapturedBlsPub.get, Heap.run]

theorem Endpoint.Sound.step {w : PeerVerifier} {s t : Endpoint} {e : HandshakeEvent} (h : s.Sound B w)
    (hstep : s.step B w e = some t) : t.Sound B w := by
  rcases Endpoint.step_cases hstep with ⟨i, p, rfl, _, rfl⟩ | ⟨i, p, op, next, rfl, hi, rfl⟩ |
    ⟨i, p, err, rfl, _, rfl⟩ | ⟨i, p, genuine, rfl, hi, rfl⟩ | ⟨i, j, p, rfl, _, hj, rfl⟩
  · refine h.move i _ ?_ (by simp)
    rintro q rest ⟨⟩
    exact verify_records w p
  · obtain ⟨hop, hnext⟩ := h.verifying i p _ hi
    refine (h.stored hop).move i _ ?_ (by simp)
    rintro q rest ⟨⟩
    exact hnext ()
  · exact h.move i _ (by simp) (by simp)
  · have hparses := h.verifying i p _ hi
    apply h.move i _ (by cases genuine <;> simp)
    intro q hq
    cases genuine with
    | false => cases hq
    | true =>
      cases hq
      exact hparses
  · apply h.move i _ (by simp)
    rintro q ⟨⟩
    exact h.completed j p hj

end DigTls
