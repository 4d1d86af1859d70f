import DigTls.Effects.Replay
import DigTls.Verify.Attribution
import DigTls.Verify.Possession
import Mathlib.Tactic.IntervalCases

/-! # Mutual authentication

Nodes of the network run any number of handshakes over their configurations, and whoever is between
them decides what certificate and what signature each end gets to see. An end lets its verifier look
at the leaf, asks for a signature of the leaf's key over the handshake as it has seen it itself, and
goes on only then. A server signs the greeting before it has seen a leaf of the other side; a client
signs last, and what it signs names the leaf it has accepted.
-/
namespace DigTls
open EffectPrograms

/-- What both sides have agreed on when the first certificate comes: the version and the two hellos. -/
structure Greeting where
  version : ProtocolVersion
  hello : Bytes
  deriving DecidableEq

/-- What a side signs: the server the greeting, the client everything up to its own certificate. -/
inductive Covered where
  | server (g : Greeting)
  | client (g : Greeting) (serverLeaf clientLeaf : Bytes)
  deriving DecidableEq

/-- A configuration, and a connection over it. -/
abbrev End := ℕ × ℕ

/-- How far an end has come. The peer is missing from a connection whose client sent no certificate. -/
inductive Stage where
  | idle
  | greeted (g : Greeting)
  | verifying (g : Greeting) (p : Presentation) (rest : Verification Unit)
  | authenticated (g : Greeting) (p : Presentation)
  | completed (g : Greeting) (peer : Option Presentation)
  | failed (g : Greeting)

def Stage.greeting : Stage → Option Greeting
  | idle => none
  | greeted g | verifying g _ _ | authenticated g _ | completed g _ | failed g => some g

def Stage.peer : Stage → Option Presentation
  | verifying _ p _ | authenticated _ p => some p
  | completed _ peer => peer
  | idle | greeted _ | failed _ => none

inductive Move (H : HandshakeCrypto) where
  | greet (e : End) (g : Greeting)
  | present (e : End) (p : Presentation)
  | absent (e : End)
  | store (e : End)
  | reject (e : End)
  | prove (e : End) (dss : H.DigitallySignedStruct)
  | finish (e : End)
  | resume (e : End) (k : ℕ)

/-- The cells, the ends, and the signatures the ends have given. -/
structure World where
  heap : Heap
  ends : End → Stage
  signed : List (End × Covered)

namespace World

def fresh (h : Heap) : World := ⟨h, fun _ => .idle, []⟩

def move (s : World) (e : End) (c : Stage) : World := { s with ends := Function.update s.ends e c }
def sign (s : World) (e : End) (c : Covered) : World := { s with signed := s.signed ++ [(e, c)] }

variable {B : Backend} (H : HandshakeCrypto) (message : Covered → Bytes) (site : ℕ → Site B)

/-- What an end asks its peer to have signed. -/
def covered (e : End) (g : Greeting) (p : Presentation) : Covered :=
  match (site e.1).tls with
  | .client _ => .server g
  | .server _ => .client g (site e.1).leaf p.leaf

/-- One step of one end, when it is due. -/
def step (s : World) : Move H → Option World
  | .greet e g =>
    match s.ends e, (site e.1).tls with
    | .idle, .server _ => some ((s.move e (.greeted g)).sign e (.server g))
    | .idle, .client _ => some (s.move e (.greeted g))
    | _, _ => none
  | .present e p =>
    match s.ends e with
    | .greeted g => some (s.move e (.verifying g p ((site e.1).verifier.verify B p)))
    | _ => none
  | .absent e =>
    match s.ends e, (site e.1).tls with
    | .greeted g, .server tls =>
      if tls.config.verifier.offerClientAuth && tls.config.verifier.clientAuthMandatory then
        some (s.move e (.failed g))
      else some (s.move e (.completed g none))
    | .greeted g, .client _ => some (s.move e (.failed g))
    | _, _ => none
  | .store e =>
    match s.ends e with
    | .verifying g p (.call op next) =>
      some { s.move e (.verifying g p (next ())) with heap := (Heap.run op s.heap).2 }
    | _ => none
  | .reject e =>
    match s.ends e with
    | .verifying g _ (.raise _) => some (s.move e (.failed g))
    | _ => none
  | .prove e dss =>
    match s.ends e with
    | .verifying g p (.done _) =>
      match (site e.1).verifier.verifyHandshake H (message (covered site e g p)) p.leaf dss g.version with
      | .ok _ => some (s.move e (.authenticated g p))
      | .error _ => some (s.move e (.failed g))
    | _ => none
  | .finish e =>
    match s.ends e, (site e.1).tls with
    | .authenticated g p, .client _ =>
      some ((s.move e (.completed g (some p))).sign e (.client g p.leaf (site e.1).leaf))
    | .authenticated g p, .server _ => some (s.move e (.completed g (some p)))
    | _, _ => none
  | .resume e k =>
    match s.ends e, s.ends (e.1, k) with
    | .idle, .completed g peer => some (s.move e (.completed g peer))
    | _, _ => none

def play : World → List (Move H) → Option World := replay (step H message site)

abbrev Run : World → List (World × Move H) → World → Prop :=
  History fun s e t => s.step H message site e = some t

variable {H message site} {s t : World}

def Proven (H : HandshakeCrypto) (message : Covered → Bytes) (site : ℕ → Site B) (e : End) (g : Greeting)
    (p : Presentation) (dss : H.DigitallySignedStruct) : Prop :=
  ∃ a, (site e.1).verifier.verifyHandshake H (message (covered site e g p)) p.leaf dss g.version = .ok a

inductive Steps (H : HandshakeCrypto) (message : Covered → Bytes) (site : ℕ → Site B) (s : World) :
    Move H → World → Prop
  | greetServer {e g} (hi : s.ends e = .idle) (hside : (site e.1).IsServer) :
      Steps H message site s (.greet e g) ((s.move e (.greeted g)).sign e (.server g))
  | greetClient {e g} (hi : s.ends e = .idle) (hside : (site e.1).IsClient) :
      Steps H message site s (.greet e g) (s.move e (.greeted g))
  | present {e g p} (hi : s.ends e = .greeted g) :
      Steps H message site s (.present e p) (s.move e (.verifying g p ((site e.1).verifier.verify B p)))
  | absent {e g} (hi : s.ends e = .greeted g) : Steps H message site s (.absent e) (s.move e (.failed g))
  | store {e g p op next} (hi : s.ends e = .verifying g p (.call op next)) :
      Steps H message site s (.store e) { s.move e (.verifying g p (next ())) with heap := (Heap.run op s.heap).2 }
  | reject {e g p err} (hi : s.ends e = .verifying g p (.raise err)) :
      Steps H message site s (.reject e) (s.move e (.failed g))
  | prove {e g p dss} (hi : s.ends e = .verifying g p (.done ())) (hproven : Proven H message site e g p dss) :
      Steps H message site s (.prove e dss) (s.move e (.authenticated g p))
  | disprove {e g p dss} (hi : s.ends e = .verifying g p (.done ())) :
      Steps H message site s (.prove e dss) (s.move e (.failed g))
  | finishClient {e g p} (hi : s.ends e = .authenticated g p) (hside : (site e.1).IsClient) :
      Steps H message site s (.finish e)
        ((s.move e (.completed g (some p))).sign e (.client g p.leaf (site e.1).leaf))
  | finishServer {e g p} (hi : s.ends e = .authenticated g p) (hside : (site e.1).IsServer) :
      Steps H message site s (.finish e) (s.move e (.completed g (some p)))
  | resume {e k g peer} (hi : s.ends e = .idle) (hk : s.ends (e.1, k) = .completed g peer) :
      Steps H message site s (.resume e k) (s.move e (.completed g peer))

/-- A server does not do without a certificate: what it asks for is mandatory. -/
theorem step_cases {m : Move H} (h : s.step H message site m = some t) : Steps H message site s m t := by
  cases m with
  | greet e g =>
    simp only [step] at h
    split at h
    · case h_1 tls hi htls =>
        cases h
        exact .greetServer hi ⟨tls, htls⟩
    · case h_2 tls hi htls =>
        cases h
        exact .greetClient hi ⟨tls, htls⟩
    · cases h
  | present e p =>
    simp only [step] at h
    split at h
    · case h_1 g hi =>
        cases h
        exact .present hi
    · cases h
  | absent e =>
    simp only [step] at h
    split at h
    · case h_1 g tls hi htls =>
        cases h
        exact .absent hi
    · case h_2 g tls hi htls =>
        cases h
        exact .absent hi
    · cases h
  | store e =>
    simp only [step] at h
    split at h
    · case h_1 g p op next hi =>
        cases h
        exact .store hi
    · cases h
  | reject e =>
    simp only [step] at h
    split at h
    · case h_1 g p err hi =>
        cases h
        exact .reject hi
    · cases h
  | prove e dss =>
    simp only [step] at h
    split at h
    · case h_1 g p a hi =>
        split at h
        · case h_1 a' hok =>
            cases h
            exact .prove hi ⟨a', hok⟩
        · cases h
          exact .disprove hi
    · cases h
  | finish e =>
    simp only [step] at h
    split at h
    · case h_1 g p tls hi htls =>
        cases h
        exact .finishClient hi ⟨tls, htls⟩
    · case h_2 g p tls hi htls =>
        cases h
        exact .finishServer hi ⟨tls, htls⟩
    · cases h
  | resume e k =>
    simp only [step] at h
    split at h
    · case h_1 g peer hi hk =>
        cases h
        exact .resume hi hk
    · cases h

@[simp] theorem move_ends_self (e : End) (c : Stage) : (s.move e c).ends e = c := Function.update_self ..
theorem move_ends_of_ne {e d : End} (h : d ≠ e) (c : Stage) : (s.move e c).ends d = s.ends d :=
  Function.update_of_ne h ..

def Accepted (site : ℕ → Site B) (e : End) (p : Presentation) : Prop :=
  (judge B (site e.1).verifier.usage (site e.1).verifier.cert p.leaf p.intermediates p.now).Accepts

/-- The leaf is one of the key of this node. -/
def LeafOf (site : ℕ → Site B) (c : ℕ) (p : Presentation) : Prop :=
  ∃ x509, B.parseX509Certificate p.leaf = .ok x509 ∧ x509.subjectPki = (site c).node.spkiDer

/-- An end of a node with the key of this one has signed this. -/
def SignedBy (site : ℕ → Site B) (signed : List (End × Covered)) (c : ℕ) (k : Covered) : Prop :=
  ∃ d, (site d.1).node.spkiDer = (site c).node.spkiDer ∧ (d, k) ∈ signed

/-- A signature that passes for one of a node's key is of bytes that an end with that key has signed. -/
def Unforged (H : HandshakeCrypto) (message : Covered → Bytes) (site : ℕ → Site B) (s : World) : Move H → Prop
  | .prove e dss => ∀ g p c, s.ends e = .verifying g p (.done ()) → Proven H message site e g p dss →
      LeafOf site c p → ∃ k, SignedBy site s.signed c k ∧ message k = message (covered site e g p)
  | _ => True

/-- The leaf is accepted, and if it is a node's, that node has signed what the end asked for. -/
def Genuine (site : ℕ → Site B) (signed : List (End × Covered)) (e : End) (g : Greeting) (p : Presentation) :
    Prop :=
  Accepted site e p ∧ ∀ c, LeafOf site c p → SignedBy site signed c (covered site e g p)

theorem unforged_of_signed {e d : End} {dss : H.DigitallySignedStruct} {g : Greeting} {p : Presentation}
    (hgreeting : (s.ends e).greeting = some g) (hpeer : (s.ends e).peer = some p)
    (hsigned : (d, covered site e g p) ∈ s.signed) (hleaf : LeafOf site d.1 p) :
    Unforged H message site s (.prove e dss) := by
  rintro g' p' c hi - ⟨x509, hx, hspki⟩
  rw [hi] at hgreeting hpeer
  cases hgreeting
  cases hpeer
  obtain ⟨x509', hx', hspki'⟩ := hleaf
  obtain rfl : x509 = x509' := Except.ok.inj (hx.symm.trans hx')
  exact ⟨_, ⟨d, hspki'.symm.trans hspki, hsigned⟩, rfl⟩

structure Sound (site : ℕ → Site B) (s : World) : Prop where
  verifying : ∀ e g p rest, s.ends e = .verifying g p rest →
    rest.Forall (fun _ => True) fun _ => Accepted site e p
  authenticated : ∀ e g p, s.ends e = .authenticated g p → Genuine site s.signed e g p
  completed : ∀ e g peer, s.ends e = .completed g peer → ∃ p, peer = some p ∧ Genuine site s.signed e g p
  signedServer : ∀ e g, (e, .server g) ∈ s.signed → (site e.1).IsServer ∧ (s.ends e).greeting = some g
  signedClient : ∀ e g leaf own, (e, .client g leaf own) ∈ s.signed → (site e.1).IsClient ∧
    own = (site e.1).leaf ∧ ∃ p, p.leaf = leaf ∧ s.ends e = .completed g (some p)

theorem verify_accepts (w : PeerVerifier) (p : Presentation) : (w.verify B p).Forall (fun _ => True) fun _ =>
    (judge B w.usage w.cert p.leaf p.intermediates p.now).Accepts := by
  rw [PeerVerifier.verify_eq, verifyCert_eq]
  cases judge B w.usage w.cert p.leaf p.intermediates p.now with
  | refusedUnseen err => exact trivial
  | refusedSeen id err => exact ⟨trivial, fun _ => trivial⟩
  | accepted id key =>
    cases key with
    | none => exact ⟨trivial, fun _ => trivial⟩
    | some k => exact ⟨trivial, fun _ => ⟨trivial, fun _ => trivial⟩⟩

theorem Genuine.mono {signed signed' : List (End × Covered)} {e : End} {g : Greeting} {p : Presentation}
    (h : Genuine site signed e g p) (hsub : signed ⊆ signed') : Genuine site signed' e g p := by
  refine ⟨h.1, fun c hc => ?_⟩
  obtain ⟨d, hkey, hd⟩ := h.2 c hc
  exact ⟨d, hkey, hsub hd⟩

theorem Sound.fresh {h : Heap} : (World.fresh h).Sound site :=
  ⟨by simp [World.fresh], by simp [World.fresh], by simp [World.fresh], by simp [World.fresh],
    by simp [World.fresh]⟩

theorem Sound.move (h : s.Sound site) {e : End} {c : Stage}
    (hkept : ∀ g, (s.ends e).greeting = some g → c.greeting = some g)
    (hopen : ∀ g peer, s.ends e ≠ .completed g peer)
    (hver : ∀ g p rest, c = .verifying g p rest → rest.Forall (fun _ => True) fun _ => Accepted site e p)
    (hauth : ∀ g p, c = .authenticated g p → Genuine site s.signed e g p)
    (hdone : ∀ g peer, c = .completed g peer → ∃ p, peer = some p ∧ Genuine site s.signed e g p) :
    (s.move e c).Sound site := by
  refine ⟨?_, ?_, ?_, ?_, ?_⟩
  · intro d g p rest hd
    by_cases hde : d = e
    · subst hde
      exact hver g p rest (by simpa using hd)
    · exact h.verifying d g p rest (by rwa [move_ends_of_ne hde] at hd)
  · intro d g p hd
    by_cases hde : d = e
    · subst hde
      exact hauth g p (by simpa using hd)
    · exact h.authenticated d g p (by rwa [move_ends_of_ne hde] at hd)
  · intro d g peer hd
    by_cases hde : d = e
    · subst hde
      exact hdone g peer (by simpa using hd)
    · exact h.completed d g peer (by rwa [move_ends_of_ne hde] at hd)
  · intro d g hd
    obtain ⟨hserver, hgreeting⟩ := h.signedServer d g hd
    by_cases hde : d = e
    · subst hde
      exact ⟨hserver, by simpa using hkept g hgreeting⟩
    · exact ⟨hserver, by rwa [move_ends_of_ne hde]⟩
  · intro d g leaf own hd
    obtain ⟨hclient, hown, p, hp, hcompleted⟩ := h.signedClient d g leaf own hd
    by_cases hde : d = e
    · subst hde
      exact absurd hcompleted (hopen g (some p))
    · exact ⟨hclient, hown, p, hp, by rwa [move_ends_of_ne hde]⟩

theorem Sound.sign (h : s.Sound site) {e : End} {k : Covered}
    (hserver : ∀ g, k = .server g → (site e.1).IsServer ∧ (s.ends e).greeting = some g)
    (hclient : ∀ g leaf own, k = .client g leaf own → (site e.1).IsClient ∧ own = (site e.1).leaf ∧
      ∃ p, p.leaf = leaf ∧ s.ends e = .completed g (some p)) : (s.sign e k).Sound site := by
  have hsub : s.signed ⊆ (s.sign e k).signed := List.subset_append_left _ _
  have hnew : ∀ x ∈ (s.sign e k).signed, x ∈ s.signed ∨ x = (e, k) := by
    intro x hx
    exact (List.mem_append.mp hx).imp_right List.mem_singleton.mp
  refine ⟨h.verifying, ?_, ?_, ?_, ?_⟩
  · exact fun d g p hd => (h.authenticated d g p hd).mono hsub
  · intro d g peer hd
    obtain ⟨p, hp, hgenuine⟩ := h.completed d g peer hd
    exact ⟨p, hp, hgenuine.mono hsub⟩
  · intro d g hd
    rcases hnew _ hd with hd | hd
    · exact h.signedServer d g hd
    · cases hd
      exact hserver g rfl
  · intro d g leaf own hd
    rcases hnew _ hd with hd | hd
    · exact h.signedClient d g leaf own hd
    · cases hd
      exact hclient g leaf own rfl

theorem Sound.heap (h : s.Sound site) (heap : Heap) : Sound site { s with heap := heap } :=
  ⟨h.verifying, h.authenticated, h.completed, h.signedServer, h.signedClient⟩

theorem covered_client {e : End} {g : Greeting} {p : Presentation} (h : (site e.1).IsClient) :
    covered site e g p = .server g := by
  obtain ⟨tls, htls⟩ := h
  simp [covered, htls]

theorem covered_server {e : End} {g : Greeting} {p : Presentation} (h : (site e.1).IsServer) :
    covered site e g p = .client g (site e.1).leaf p.leaf := by
  obtain ⟨tls, htls⟩ := h
  simp [covered, htls]

theorem Sound.step (hmessage : Function.Injective message) (h : s.Sound site) {m : Move H}
    (hunforged : Unforged H message site s m) (hstep : s.step H message site m = some t) : t.Sound site := by
  cases step_cases hstep with
  | @greetServer e g hi hside =>
    have hmoved : (s.move e (.greeted g)).Sound site :=
      h.move (by simp [hi, Stage.greeting]) (by simp [hi]) (by simp) (by simp) (by simp)
    refine hmoved.sign ?_ (by simp)
    rintro _ ⟨⟩
    exact ⟨hside, by simp [Stage.greeting]⟩
  | greetClient hi _ => exact h.move (by simp [hi, Stage.greeting]) (by simp [hi]) (by simp) (by simp) (by simp)
  | @present e g p hi =>
    refine h.move (by simp [hi, Stage.greeting]) (by simp [hi]) ?_ (by simp) (by simp)
    rintro g' p' rest ⟨⟩
    exact verify_accepts _ _
  | absent hi => exact h.move (by simp [hi, Stage.greeting]) (by simp [hi]) (by simp) (by simp) (by simp)
  | @store e g p op next hi =>
    refine (h.move (by simp [hi, Stage.greeting]) (by simp [hi]) ?_ (by simp) (by simp)).heap _
    rintro g' p' rest ⟨⟩
    exact (h.verifying e g p _ hi).2 ()
  | reject hi => exact h.move (by simp [hi, Stage.greeting]) (by simp [hi]) (by simp) (by simp) (by simp)
  | @prove e g p dss hi hproven =>
    refine h.move (by simp [hi, Stage.greeting]) (by simp [hi]) (by simp) ?_ (by simp)
    rintro g' p' ⟨⟩
    refine ⟨h.verifying e g p _ hi, fun c hc => ?_⟩
    obtain ⟨k, hk, hbytes⟩ := hunforged g p c hi hproven hc
    rwa [← hmessage hbytes]
  | disprove hi => exact h.move (by simp [hi, Stage.greeting]) (by simp [hi]) (by simp) (by simp) (by simp)
  | @finishClient e g p hi hside =>
    have hgenuine := h.authenticated e g p hi
    have hmoved : (s.move e (.completed g (some p))).Sound site := by
      refine h.move (by simp [hi, Stage.greeting]) (by simp [hi]) (by simp) (by simp) ?_
      rintro g' peer ⟨⟩
      exact ⟨p, rfl, hgenuine⟩
    refine hmoved.sign (by simp) ?_
    rintro g' leaf own ⟨⟩
    exact ⟨hside, rfl, p, rfl, by simp⟩
  | @finishServer e g p hi _ =>
    refine h.move (by simp [hi, Stage.greeting]) (by simp [hi]) (by simp) (by simp) ?_
    rintro g' peer ⟨⟩
    exact ⟨p, rfl, h.authenticated e g p hi⟩
  | @resume e k g peer hi hk =>
    refine h.move (by simp [hi, Stage.greeting]) (by simp [hi]) (by simp) (by simp) ?_
    rintro g' peer' ⟨⟩
    exact h.completed (e.1, k) g peer hk

theorem Run.sound (hmessage : Function.Injective message) {h : Heap} {ls : List (World × Move H)}
    (hrun : Run H message site (.fresh h) ls t) (hunforged : ∀ x ∈ ls, Unforged H message site x.1 x.2) :
    t.Sound site :=
  hrun.invariant .fresh hunforged fun _ _ _ hC hs hstep => hs.step hmessage hC hstep

theorem Accepted.admits {e : End} {p : Presentation} (h : Accepted site e p) :
    ∃ x509, B.parseX509Certificate p.leaf = .ok x509 ∧
      Admits (site e.1).verifier.cert.expected (peerIdFromTlsSpkiDer B x509.subjectPki) := by
  obtain ⟨_, x509, hx, hadmits, _⟩ := judge_accepts_iff.mp h
  exact ⟨x509, hx, hadmits⟩

/-- No leaf shown in the run has another SPKI with the digest of this node's. -/
def NoCollision (site : ℕ → Site B) (ls : List (World × Move H)) (c : ℕ) : Prop :=
  ∀ u e p x509, (u, Move.present e p) ∈ ls → B.parseX509Certificate p.leaf = .ok x509 →
    B.sha256 x509.subjectPki = B.sha256 (site c).node.spkiDer → x509.subjectPki = (site c).node.spkiDer

theorem SignedBy.server (h : s.Sound site) {c : ℕ} {g : Greeting} (hsigned : SignedBy site s.signed c (.server g)) :
    ∃ d, (site d.1).node.spkiDer = (site c).node.spkiDer ∧ (site d.1).IsServer ∧ (s.ends d).greeting = some g := by
  obtain ⟨d, hkey, hd⟩ := hsigned
  exact ⟨d, hkey, h.signedServer d g hd⟩

theorem SignedBy.client (h : s.Sound site) {c : ℕ} {g : Greeting} {leaf own : Bytes}
    (hsigned : SignedBy site s.signed c (.client g leaf own)) :
    ∃ d, (site d.1).node.spkiDer = (site c).node.spkiDer ∧ (site d.1).IsClient ∧ own = (site d.1).leaf ∧
      ∃ q, q.leaf = leaf ∧ s.ends d = .completed g (some q) := by
  obtain ⟨d, hkey, hd⟩ := hsigned
  exact ⟨d, hkey, h.signedClient d g leaf own hd⟩

theorem Steps.peer {m : Move H} (h : Steps H message site s m t) {e : End} {p : Presentation}
    (hp : (t.ends e).peer = some p) : (∃ d, (s.ends d).peer = some p) ∨ ∃ d, m = .present d p := by
  have hmove : ∀ {d : End} {c : Stage}, ((s.move d c).ends e).peer = some p →
      c.peer = some p ∨ (s.ends e).peer = some p := by
    intro d c hc
    by_cases hed : e = d
    · subst hed
      exact Or.inl (by simpa using hc)
    · exact Or.inr (by rwa [move_ends_of_ne hed] at hc)
  cases h with
  | greetServer hi => exact Or.inl ((hmove hp).elim (by simp [Stage.peer]) fun h => ⟨e, h⟩)
  | greetClient hi _ => exact Or.inl ((hmove hp).elim (by simp [Stage.peer]) fun h => ⟨e, h⟩)
  | @present d g q hi =>
    rcases hmove hp with hq | hsame
    · cases hq
      exact Or.inr ⟨d, rfl⟩
    · exact Or.inl ⟨e, hsame⟩
  | absent hi => exact Or.inl ((hmove hp).elim (by simp [Stage.peer]) fun h => ⟨e, h⟩)
  | @store d g q op next hi =>
    exact Or.inl ((hmove hp).elim (fun hq => ⟨d, by rw [hi]; exact hq⟩) fun h => ⟨e, h⟩)
  | reject hi => exact Or.inl ((hmove hp).elim (by simp [Stage.peer]) fun h => ⟨e, h⟩)
  | @prove d g q dss hi =>
    exact Or.inl ((hmove hp).elim (fun hq => ⟨d, by rw [hi]; exact hq⟩) fun h => ⟨e, h⟩)
  | disprove hi => exact Or.inl ((hmove hp).elim (by simp [Stage.peer]) fun h => ⟨e, h⟩)
  | @finishClient d g q hi =>
    exact Or.inl ((hmove hp).elim (fun hq => ⟨d, by rw [hi]; exact hq⟩) fun h => ⟨e, h⟩)
  | @finishServer d g q hi _ =>
    exact Or.inl ((hmove hp).elim (fun hq => ⟨d, by rw [hi]; exact hq⟩) fun h => ⟨e, h⟩)
  | @resume d k g peer hi hk =>
    exact Or.inl ((hmove hp).elim (fun hq => ⟨(d.1, k), by rw [hk]; exact hq⟩) fun h => ⟨e, h⟩)

theorem Run.presented {h : Heap} {ls : List (World × Move H)} (hrun : Run H message site (.fresh h) ls t)
    {e : End} {p : Presentation} (hp : (t.ends e).peer = some p) : ∃ u d, (u, Move.present d p) ∈ ls := by
  induction hrun generalizing e with
  | start => cases hp
  | @snoc t' u ls m before last ih =>
    rcases (step_cases last).peer hp with ⟨d, hd⟩ | ⟨d, rfl⟩
    · obtain ⟨v, d', hv⟩ := ih hd
      exact ⟨v, d', List.mem_append_left _ hv⟩
    · exact ⟨t', d, by simp⟩

section Runs
variable {h : Heap} {ls : List (World × Move H)} {e : End} {g : Greeting} {peer : Option Presentation}

/-- The peer of an end that is pinned to a node presents a leaf of that node's key. -/
theorem leafOf_pinned {c : ℕ} {p : Presentation} (hrun : Run H message site (.fresh h) ls t)
    (hp : (t.ends e).peer = some p) (haccepted : Accepted site e p)
    (hpin : (site e.1).verifier.cert.expected = some (site c).node.peerId) (hcollide : NoCollision site ls c) :
    LeafOf site c p := by
  obtain ⟨u, d, hu⟩ := hrun.presented hp
  obtain ⟨x509, hx, hadmits⟩ := haccepted.admits
  rw [hpin, admits_some, (site c).returned.wireIdentity.spki] at hadmits
  have hdigest : B.sha256 x509.subjectPki = B.sha256 (site c).node.spkiDer := congrArg PeerId.bytes hadmits
  exact ⟨x509, hx, hcollide u d p x509 hu hx hdigest⟩

/-- A client that has completed a connection pinned to a node shares its greeting with an end at
which that node acts as a server: whatever was shown to it in between, nobody else is there. -/
theorem pinned_client_reaches_node (hmessage : Function.Injective message)
    (hrun : Run H message site (.fresh h) ls t) (hunforged : ∀ x ∈ ls, Unforged H message site x.1 x.2)
    (hdone : t.ends e = .completed g peer) (hclient : (site e.1).IsClient) {c : ℕ}
    (hpin : (site e.1).verifier.cert.expected = some (site c).node.peerId) (hcollide : NoCollision site ls c) :
    ∃ p d, peer = some p ∧ LeafOf site c p ∧ (site d.1).node.spkiDer = (site c).node.spkiDer ∧
      (site d.1).IsServer ∧ (t.ends d).greeting = some g := by
  have hsound := Run.sound hmessage hrun hunforged
  obtain ⟨p, rfl, haccepted, hsigned⟩ := hsound.completed e g peer hdone
  have hleaf := leafOf_pinned hrun (by rw [hdone]; rfl) haccepted hpin hcollide
  have hgreeted := hsigned c hleaf
  rw [covered_client hclient] at hgreeted
  obtain ⟨d, hkey, hserver, hgreeting⟩ := hgreeted.server hsound
  exact ⟨p, d, rfl, hleaf, hkey, hserver, hgreeting⟩

/-- A server that has completed a connection has seen a leaf; and if it is a node's, that node has
completed the same connection as a client, having accepted the server's own leaf under its pin. -/
theorem server_agrees_with_client (hmessage : Function.Injective message)
    (hrun : Run H message site (.fresh h) ls t) (hunforged : ∀ x ∈ ls, Unforged H message site x.1 x.2)
    (hdone : t.ends e = .completed g peer) (hserver : (site e.1).IsServer) :
    ∃ p, peer = some p ∧ Accepted site e p ∧ ∀ c, LeafOf site c p →
      ∃ d q, (site d.1).node.spkiDer = (site c).node.spkiDer ∧ (site d.1).IsClient ∧
        t.ends d = .completed g (some q) ∧ p.leaf = (site d.1).leaf ∧ q.leaf = (site e.1).leaf ∧
        Accepted site d q ∧ Admits (site d.1).verifier.cert.expected (site e.1).node.peerId := by
  have hsound := Run.sound hmessage hrun hunforged
  obtain ⟨p, rfl, haccepted, hsigned⟩ := hsound.completed e g peer hdone
  refine ⟨p, rfl, haccepted, fun c hc => ?_⟩
  have hfinished := hsigned c hc
  rw [covered_server hserver] at hfinished
  obtain ⟨d, hkey, hclient, hown, q, hq, hd⟩ := hfinished.client hsound
  obtain ⟨_, hq', haccepted', _⟩ := hsound.completed d g _ hd
  cases hq'
  refine ⟨d, q, hkey, hclient, hd, hown, hq, haccepted', ?_⟩
  obtain ⟨x509, hx, hadmits⟩ := haccepted'.admits
  have hid := (site e.1).peerId_leaf
  rw [← hq, peerIdFromLeafCertDer, hx, Option.some.injEq] at hid
  rwa [hid] at hadmits

end Runs

end World

def toyCrypto : HandshakeCrypto where
  DigitallySignedStruct := Bytes × Bytes
  Algorithms := Unit
  ringAlgorithms := ()
  verifyTls12Signature message cert dss _ := if dss = (cert, message) then .ok () else .error (.general "signature")
  verifyTls13Signature message cert dss _ := if dss = (cert, message) then .ok () else .error (.general "signature")

/-- A byte string whose end can be told. -/
def delimited : Bytes → Bytes
  | [] => [0]
  | b :: bs => 1 :: b :: delimited bs

theorem delimited_append_inj {xs ys us vs : Bytes} (h : delimited xs ++ us = delimited ys ++ vs) :
    xs = ys ∧ us = vs := by
  induction xs generalizing ys with
  | nil =>
    cases ys with
    | nil => simpa [delimited] using h
    | cons y ys => simp [delimited] at h
  | cons x xs ih =>
    cases ys with
    | nil => simp [delimited] at h
    | cons y ys =>
      simp only [delimited, List.cons_append, List.cons.injEq, true_and] at h
      obtain ⟨rfl, hrest⟩ := h
      obtain ⟨rfl, rfl⟩ := ih hrest
      exact ⟨rfl, rfl⟩

def Greeting.spelled (g : Greeting) : Bytes :=
  (match g.version with | .tls12 => 2 | .tls13 => 3) :: delimited g.hello

theorem Greeting.spelled_append_inj {g g' : Greeting} {us vs : Bytes}
    (h : g.spelled ++ us = g'.spelled ++ vs) : g = g' ∧ us = vs := by
  obtain ⟨version, hello⟩ := g
  obtain ⟨version', hello'⟩ := g'
  simp only [Greeting.spelled, List.cons_append, List.cons.injEq] at h
  obtain ⟨hversion, hrest⟩ := h
  obtain ⟨rfl, rfl⟩ := delimited_append_inj hrest
  cases version <;> cases version' <;> simp at hversion ⊢

def toyMessage : Covered → Bytes
  | .server g => 0 :: (g.spelled ++ [])
  | .client g serverLeaf clientLeaf => 1 :: (g.spelled ++ (delimited serverLeaf ++ (delimited clientLeaf ++ [])))

theorem toyMessage_injective : Function.Injective toyMessage := by
  intro x y h
  cases x with
  | server g =>
    cases y with
    | server g' =>
      obtain ⟨rfl, _⟩ := Greeting.spelled_append_inj (List.cons.inj h).2
      rfl
    | client g' l c => simp [toyMessage] at h
  | client g l c =>
    cases y with
    | server g' => simp [toyMessage] at h
    | client g' l' c' =>
      obtain ⟨rfl, hleaves⟩ := Greeting.spelled_append_inj (List.cons.inj h).2
      obtain ⟨rfl, hrest⟩ := delimited_append_inj hleaves
      obtain ⟨rfl, _⟩ := delimited_append_inj hrest
      rfl

theorem toy_fromPem_one : NodeCert.fromPem toyBackend "c\x01" "k\x01" =
    .ok ⟨"c\x01", "k\x01", [1], [1], [1], ⟨List.Vector.replicate 32 1⟩⟩ := by decide +kernel

theorem toy_fromPem_two : NodeCert.fromPem toyBackend "c\x02" "k\x02" =
    .ok ⟨"c\x02", "k\x02", [2], [2], [2], ⟨List.Vector.replicate 32 2⟩⟩ := by decide +kernel

def listeningSite : Site toyBackend where
  node := ⟨"c\x01", "k\x01", [1], [1], [1], ⟨List.Vector.replicate 32 1⟩⟩
  tls := .server ⟨⟨.newSpkiPinned none ⟨0⟩ .off ⟨0⟩, [[1]], [1]⟩, ⟨0⟩, ⟨0⟩⟩
  returned := .fromPem toy_fromPem_one
  configured := .serverSpkiPinned (show serverConfigSpkiPinned toyBackend _ .off 0 = .ok _ from rfl)

def dialingSite : Site toyBackend where
  node := ⟨"c\x02", "k\x02", [2], [2], [2], ⟨List.Vector.replicate 32 2⟩⟩
  tls := .client ⟨⟨.newSpkiPinned (some ⟨List.Vector.replicate 32 1⟩) ⟨1⟩ .off ⟨1⟩, [[2]], [2]⟩, ⟨1⟩, ⟨1⟩⟩
  returned := .fromPem toy_fromPem_two
  configured := .clientSpkiPinned
    (show clientConfigSpkiPinned toyBackend _ (some ⟨List.Vector.replicate 32 1⟩) .off 1 = .ok _ from rfl)

def toySites (c : ℕ) : Site toyBackend := if c = 0 then listeningSite else dialingSite

def toyGreeting : Greeting := ⟨.tls13, [5]⟩
def shows (leaf : Bytes) : Presentation := ⟨leaf, [], "peer.dig", [], 0⟩

def toyHandshake : List (Move toyCrypto) :=
  [.greet (0, 0) toyGreeting, .greet (1, 0) toyGreeting, .present (1, 0) (shows [1]), .store (1, 0),
    .prove (1, 0) ([1], toyMessage (.server toyGreeting)), .finish (1, 0), .present (0, 0) (shows [2]), .store (0, 0),
    .prove (0, 0) ([2], toyMessage (.client toyGreeting [1] [2])), .finish (0, 0)]

def World.seen (e : End) (s : World) : Option Greeting × Option Presentation × List (End × Covered) :=
  ((s.ends e).greeting, (s.ends e).peer, s.signed)

abbrev toyPlay : World → List (Move toyCrypto) → Option World := World.play toyCrypto toyMessage toySites

theorem toyHandshake_seen :
    ((toyPlay (.fresh noHeap) (toyHandshake.take 4)).map (World.seen (1, 0)) =
      some (some toyGreeting, some (shows [1]), [((0, 0), .server toyGreeting)])) ∧
    (toyPlay (.fresh noHeap) (toyHandshake.take 8)).map (World.seen (0, 0)) =
      some (some toyGreeting, some (shows [2]),
        [((0, 0), .server toyGreeting), ((1, 0), .client toyGreeting [1] [2])]) := by
  constructor <;> decide +kernel

theorem toyHandshake_unforged {ls : List (World × Move toyCrypto)} {t : World}
    (hrun : World.Run toyCrypto toyMessage toySites (.fresh noHeap) ls t)
    (hls : ls.map Prod.snd = toyHandshake) : ∀ x ∈ ls, World.Unforged toyCrypto toyMessage toySites x.1 x.2 := by
  rintro ⟨u, m⟩ hx
  obtain ⟨before, after, hmoves, hu⟩ := hrun.reached hx
  rw [hls] at hmoves
  have hbefore : before = toyHandshake.take before.length := by rw [hmoves, List.take_left]
  have hm : toyHandshake[before.length]? = some m := by rw [hmoves]; simp
  have hshort : before.length < 10 := by
    have hlength := congrArg List.length hmoves
    have hten : toyHandshake.length = 10 := rfl
    simp only [hten, List.length_append, List.length_cons] at hlength
    omega
  rw [hbefore] at hu
  generalize before.length = n at hm hshort hu
  obtain ⟨hclient, hserver⟩ := toyHandshake_seen
  by_cases hfifth : n = 4
  · subst hfifth
    rw [toyPlay, World.play, hu, Option.map_some, Option.some.injEq, World.seen, Prod.mk.injEq, Prod.mk.injEq] at hclient
    obtain ⟨hgreeting, hpeer, hsigned⟩ := hclient
    cases hm
    exact World.unforged_of_signed (d := (0, 0)) hgreeting hpeer (by rw [hsigned]; decide) ⟨⟨[1], []⟩, rfl, rfl⟩
  · by_cases hninth : n = 8
    · subst hninth
      rw [toyPlay, World.play, hu, Option.map_some, Option.some.injEq, World.seen, Prod.mk.injEq, Prod.mk.injEq] at hserver
      obtain ⟨hgreeting, hpeer, hsigned⟩ := hserver
      cases hm
      exact World.unforged_of_signed (d := (1, 0)) hgreeting hpeer (by rw [hsigned]; decide) ⟨⟨[2], []⟩, rfl, rfl⟩
    · interval_cases n <;> first | contradiction | (cases hm; trivial)

def Stage.completion : Stage → Option (Greeting × Option Presentation)
  | completed g peer => some (g, peer)
  | _ => none

theorem Stage.completion_eq_some {c : Stage} {g : Greeting} {peer : Option Presentation} :
    c.completion = some (g, peer) ↔ c = .completed g peer := by
  cases c <;> simp [completion]

theorem toyHandshake_runs : ∃ ls t, ls.map Prod.snd = toyHandshake ∧
    World.Run toyCrypto toyMessage toySites (.fresh noHeap) ls t ∧
    t.ends (1, 0) = .completed toyGreeting (some (shows [1])) ∧
    t.ends (0, 0) = .completed toyGreeting (some (shows [2])) := by
  have hends : (toyPlay (.fresh noHeap) toyHandshake).map
      (fun t => ((t.ends (1, 0)).completion, (t.ends (0, 0)).completion)) =
      some (some (toyGreeting, some (shows [1])), some (toyGreeting, some (shows [2]))) := by decide +kernel
  obtain ⟨t, ht, hobs⟩ := Option.map_eq_some_iff.mp hends
  obtain ⟨ls, hls, hrun⟩ := History.of_replay ht
  rw [Prod.mk.injEq] at hobs
  obtain ⟨hclient, hserver⟩ := hobs
  exact ⟨ls, t, hls, hrun, Stage.completion_eq_some.mp hclient, Stage.completion_eq_some.mp hserver⟩

theorem toyHandshake_noCollision (ls : List (World × Move toyCrypto)) (hls : ls.map Prod.snd = toyHandshake) :
    World.NoCollision toySites ls 0 := by
  intro u e p x509 hu hx hdigest
  have hmem : Move.present e p ∈ toyHandshake := by
    rw [← hls]
    exact List.mem_map_of_mem (f := Prod.snd) hu
  simp only [toyHandshake, List.mem_cons, Move.present.injEq, reduceCtorEq, List.not_mem_nil, or_false, false_or] at hmem
  rcases hmem with ⟨_, rfl⟩ | ⟨_, rfl⟩
  · cases hx
    rfl
  · cases hx
    exact absurd hdigest (by decide)

theorem pinned_client_reaches_node_toy : ∃ ls t, World.Run toyCrypto toyMessage toySites (.fresh noHeap) ls t ∧
    ∃ p d, some (shows [1]) = some p ∧ World.LeafOf toySites 0 p ∧
      (toySites d.1).node.spkiDer = (toySites 0).node.spkiDer ∧ (toySites d.1).IsServer ∧
      (t.ends d).greeting = some toyGreeting := by
  obtain ⟨ls, t, hls, hrun, hclient, _⟩ := toyHandshake_runs
  exact ⟨ls, t, hrun, World.pinned_client_reaches_node toyMessage_injective hrun (toyHandshake_unforged hrun hls)
    hclient ⟨_, rfl⟩ rfl (toyHandshake_noCollision ls hls)⟩

theorem server_agrees_with_client_toy : ∃ ls t, World.Run toyCrypto toyMessage toySites (.fresh noHeap) ls t ∧
    ∃ d q, (toySites d.1).IsClient ∧ t.ends d = .completed toyGreeting (some q) ∧ q.leaf = [1] := by
  obtain ⟨ls, t, hls, hrun, _, hserver⟩ := toyHandshake_runs
  obtain ⟨p, hp, _, hagree⟩ := World.server_agrees_with_client toyMessage_injective hrun
    (toyHandshake_unforged hrun hls) hserver ⟨_, rfl⟩
  cases hp
  obtain ⟨d, q, _, hclient, hd, _, hq, _⟩ := hagree 1 ⟨⟨[2], []⟩, rfl, rfl⟩
  exact ⟨ls, t, hrun, d, q, hclient, hd, hq⟩

end DigTls
