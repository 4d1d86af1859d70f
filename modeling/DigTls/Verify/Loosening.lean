import DigTls.Verify.Completion

/-! # Looser configurations keep every connection

A network moves from one policy to the next, and from any issuer to its own authority, node by node. What
completes under the stricter configurations also completes under the looser ones: with the pin dropped or
kept, the policy the same or a weaker one, the chain asked for or not.
-/
namespace DigTls
open EffectPrograms
variable {B : Backend}

def BindingPolicy.strictness : BindingPolicy → ℕ
  | off => 0
  | opportunistic => 1
  | required => 2

/-- The second verifier asks for nothing that the first one does not. -/
structure CertVerifier.Looser (v v' : CertVerifier) : Prop where
  pin : v'.expected = none ∨ v'.expected = v.expected
  policy : v'.bindingPolicy.strictness ≤ v.bindingPolicy.strictness
  chain : v'.requireCaChain = true → v.requireCaChain = true

theorem evaluate_looser {outcome : BindingOutcome} {policy policy' : BindingPolicy} {k : Option (Octets 48)}
    (h : evaluate outcome policy = .ok k) (hle : policy'.strictness ≤ policy.strictness) :
    ∃ k', evaluate outcome policy' = .ok k' := by
  rcases evaluate_ok_iff.mp h with ⟨rfl, _⟩ | ⟨_, b, rfl, _⟩ | ⟨rfl, rfl, _⟩
  · cases policy' with
    | off => exact ⟨none, rfl⟩
    | opportunistic | required => simp [BindingPolicy.strictness] at hle
  · cases policy' <;> exact ⟨_, rfl⟩
  · cases policy' with
    | off | opportunistic => exact ⟨none, rfl⟩
    | required => simp [BindingPolicy.strictness] at hle

theorem CertVerifier.Looser.accepts {v v' : CertVerifier} (h : v.Looser v') {usage : KeyUsage} {leaf : Bytes}
    {intermediates : List Bytes} {now : Time} (haccepts : (judge B usage v leaf intermediates now).Accepts) :
    (judge B usage v' leaf intermediates now).Accepts := by
  obtain ⟨hchain, x509, hx, hadmits, k, hk⟩ := judge_accepts_iff.mp haccepts
  have hadmits' : Admits v'.expected (peerIdFromTlsSpkiDer B x509.subjectPki) := by
    rcases h.pin with hpin | hpin
    · rw [hpin]
      exact admits_none _
    · rwa [hpin]
  exact judge_accepts_iff.mpr ⟨fun hc => hchain (h.chain hc), x509, hx, hadmits', evaluate_looser hk h.policy⟩

/-- A configuration of the same node for the same side, whose verifier is looser. -/
structure Site.Looser (σ σ' : Site B) : Prop where
  node : σ'.node = σ.node
  server : σ.IsServer → σ'.IsServer
  client : σ.IsClient → σ'.IsClient
  verifier : σ.verifier.cert.Looser σ'.verifier.cert

theorem Site.usage_server {σ : Site B} (h : σ.IsServer) : σ.verifier.usage = .clientAuth := by
  obtain ⟨tls, htls⟩ := h
  rw [verifier, htls]
  rfl

theorem Site.usage_client {σ : Site B} (h : σ.IsClient) : σ.verifier.usage = .serverAuth := by
  obtain ⟨tls, htls⟩ := h
  rw [verifier, htls]
  rfl

theorem Site.Looser.leaf {σ σ' : Site B} (h : σ.Looser σ') : σ'.leaf = σ.leaf := by
  rw [σ'.leaf_eq, σ.leaf_eq, h.node]

theorem Site.Looser.usage {σ σ' : Site B} (h : σ.Looser σ') : σ'.verifier.usage = σ.verifier.usage := by
  rcases σ.isServer_or_isClient with hside | hside
  · rw [Site.usage_server hside, Site.usage_server (h.server hside)]
  · rw [Site.usage_client hside, Site.usage_client (h.client hside)]

namespace World
variable {H : HandshakeCrypto} {message : Covered → Bytes} {site site' : ℕ → Site B} {s s' t : World} {e : End}
  {c c' : Stage} {g : Greeting} {p : Presentation}

/-- How an end of the looser world goes along with one of the stricter: it waits for the proof of
possession before it lets its verifier look, and does not look at all where the other one fails. -/
inductive Behind (site : ℕ → Site B) (e : End) : Stage → Stage → Prop
  | idle : Behind site e .idle .idle
  | greeted (g : Greeting) : Behind site e (.greeted g) (.greeted g)
  | verifying {g : Greeting} {p : Presentation} {rest : Verification Unit}
      (accepts : rest.Forall (fun _ => True) fun _ => Accepted site e p) :
      Behind site e (.verifying g p rest) (.greeted g)
  | authenticated (g : Greeting) (p : Presentation) : Behind site e (.authenticated g p) (.authenticated g p)
  | completed (g : Greeting) (peer : Option Presentation) : Behind site e (.completed g peer) (.completed g peer)
  | failed (g : Greeting) : Behind site e (.failed g) (.greeted g)

theorem Behind.of_idle (h : Behind site e .idle c) : c = .idle := by
  cases h
  rfl

theorem Behind.of_greeted (h : Behind site e (.greeted g) c) : c = .greeted g := by
  cases h
  rfl

theorem Behind.of_verifying {rest : Verification Unit} (h : Behind site e (.verifying g p rest) c) :
    c = .greeted g ∧ rest.Forall (fun _ => True) fun _ => Accepted site e p := by
  cases h with
  | verifying accepts => exact ⟨rfl, accepts⟩

theorem Behind.of_authenticated (h : Behind site e (.authenticated g p) c) : c = .authenticated g p := by
  cases h
  rfl

theorem Behind.of_completed {peer : Option Presentation} (h : Behind site e (.completed g peer) c) :
    c = .completed g peer := by
  cases h
  rfl

/-- The two worlds have signed the same and go along with one another end by end. -/
structure Matches (site : ℕ → Site B) (s s' : World) : Prop where
  signed : s'.signed = s.signed
  ends : ∀ e, Behind site e (s.ends e) (s'.ends e)

theorem Matches.move (h : Matches site s s') (hc : Behind site e c c') : Matches site (s.move e c) (s'.move e c') := by
  refine ⟨h.signed, fun d => ?_⟩
  by_cases hde : d = e
  · subst hde
    simpa using hc
  · rw [move_ends_of_ne hde, move_ends_of_ne hde]
    exact h.ends d

/-- A step of the stricter world that the looser one waits out. -/
theorem Matches.wait (h : Matches site s s') (hc : Behind site e c (s'.ends e)) : Matches site (s.move e c) s' := by
  refine ⟨h.signed, fun d => ?_⟩
  by_cases hde : d = e
  · subst hde
    simpa using hc
  · rw [move_ends_of_ne hde]
    exact h.ends d

theorem Matches.sign (h : Matches site s s') (e : End) (k : Covered) : Matches site (s.sign e k) (s'.sign e k) :=
  ⟨congrArg (· ++ [(e, k)]) h.signed, h.ends⟩

theorem Matches.heap (h : Matches site s s') (heap : Heap) : Matches site s { s' with heap := heap } :=
  ⟨h.signed, h.ends⟩

section Looser
variable (hloose : ∀ c, (site c).Looser (site' c))
include hloose

theorem covered_looser (e : End) (g : Greeting) (p : Presentation) : covered site' e g p = covered site e g p := by
  rcases (site e.1).isServer_or_isClient with hside | hside
  · rw [covered_server hside, covered_server ((hloose e.1).server hside), (hloose e.1).leaf]
  · rw [covered_client hside, covered_client ((hloose e.1).client hside)]

theorem proven_looser {dss : H.DigitallySignedStruct} (h : Proven H message site e g p dss) :
    Proven H message site' e g p dss := by
  rw [Proven, PeerVerifier.verifyHandshake_eq] at h ⊢
  rwa [covered_looser hloose]

theorem unforged_looser {dss : H.DigitallySignedStruct} (h : Unforged H message site s (.prove e dss))
    (hs : s.ends e = .verifying g p (.done ())) (hproven : Proven H message site e g p dss)
    (hsigned : s'.signed = s.signed) (hs' : s'.ends e = .verifying g p (.done ())) :
    Unforged H message site' s' (.prove e dss) := by
  intro g' p' c hi _ hleaf
  rw [hs'] at hi
  cases hi
  obtain ⟨x509, hx, hspki⟩ := hleaf
  rw [(hloose c).node] at hspki
  obtain ⟨k, ⟨d, hkey, hd⟩, hk⟩ := h g p c hs hproven ⟨x509, hx, hspki⟩
  refine ⟨k, ⟨d, ?_, ?_⟩, ?_⟩
  · rw [(hloose d.1).node, (hloose c).node]
    exact hkey
  · rwa [hsigned]
  · rw [covered_looser hloose]
    exact hk

theorem exec_looser (haccepted : Accepted site e p) (h : Heap) :
    ∃ h', exec cells ((site' e.1).verifier.verify B p) h = (.ok (), h') := by
  refine ⟨_, Prod.ext ?_ rfl⟩
  rw [PeerVerifier.verify_eq, verifyCert_eq, exec_program, effect_ok_iff, (hloose e.1).usage]
  exact (hloose e.1).verifier.accepts haccepted

/-- A step of the stricter world, and what the looser one does meanwhile. -/
theorem Matches.step {m : Move H} (hmatch : Matches site s s') (hgenuine : Unforged H message site s m)
    (hstep : s.step H message site m = some t) : ∃ t', Gets H message site' s' t' ∧ Matches site t t' := by
  have hend := hmatch.ends
  cases step_cases hstep with
  | @greetServer e g hi hside =>
    have hidle := (hi ▸ hend e).of_idle
    obtain ⟨tls, htls⟩ := (hloose e.1).server hside
    have hgreet : s'.step H message site' (.greet e g) = some ((s'.move e (.greeted g)).sign e (.server g)) := by
      simp only [World.step, hidle, htls]
    exact ⟨_, .step hgreet trivial, (hmatch.move (.greeted g)).sign e (.server g)⟩
  | @greetClient e g hi hside =>
    have hidle := (hi ▸ hend e).of_idle
    obtain ⟨tls, htls⟩ := (hloose e.1).client hside
    have hgreet : s'.step H message site' (.greet e g) = some (s'.move e (.greeted g)) := by
      simp only [World.step, hidle, htls]
    exact ⟨_, .step hgreet trivial, hmatch.move (.greeted g)⟩
  | @present e g p hi =>
    have hgreeted := (hi ▸ hend e).of_greeted
    refine ⟨s', .refl s', hmatch.wait ?_⟩
    rw [hgreeted]
    exact .verifying (verify_accepts _ _)
  | @absent e g hi =>
    have hgreeted := (hi ▸ hend e).of_greeted
    refine ⟨s', .refl s', hmatch.wait ?_⟩
    rw [hgreeted]
    exact .failed g
  | @store e g p op next hi =>
    obtain ⟨hgreeted, haccepts⟩ := (hi ▸ hend e).of_verifying
    have hwaits : Behind site e (.verifying g p (next ())) (s'.ends e) := by
      rw [hgreeted]
      exact .verifying (haccepts.2 ())
    exact ⟨s', .refl s', ⟨(hmatch.wait hwaits).signed, (hmatch.wait hwaits).ends⟩⟩
  | @reject e g p err hi =>
    obtain ⟨hgreeted, _⟩ := (hi ▸ hend e).of_verifying
    refine ⟨s', .refl s', hmatch.wait ?_⟩
    rw [hgreeted]
    exact .failed g
  | @prove e g p dss hi hproven =>
    obtain ⟨hgreeted, haccepted⟩ := (hi ▸ hend e).of_verifying
    obtain ⟨h', hexec⟩ := exec_looser hloose haccepted s'.heap
    have hunforged : Unforged H message site' { s'.move e (.verifying g p (.done ())) with heap := h' } (.prove e dss) :=
      unforged_looser hloose hgenuine hi hproven hmatch.signed (move_ends_self ..)
    have hgets := gets_authenticated hgreeted hexec (proven_looser hloose hproven) hunforged
    exact ⟨_, hgets, (hmatch.move (.authenticated g p)).heap h'⟩
  | @disprove e g p dss hi =>
    obtain ⟨hgreeted, _⟩ := (hi ▸ hend e).of_verifying
    refine ⟨s', .refl s', hmatch.wait ?_⟩
    rw [hgreeted]
    exact .failed g
  | @finishClient e g p hi hside =>
    have hthere := (hi ▸ hend e).of_authenticated
    obtain ⟨tls, htls⟩ := (hloose e.1).client hside
    have hfinish : s'.step H message site' (.finish e) =
        some ((s'.move e (.completed g (some p))).sign e (.client g p.leaf (site' e.1).leaf)) := by
      simp only [World.step, hthere, htls]
    rw [(hloose e.1).leaf] at hfinish
    exact ⟨_, .step hfinish trivial, (hmatch.move (.completed g (some p))).sign e _⟩
  | @finishServer e g p hi hside =>
    have hthere := (hi ▸ hend e).of_authenticated
    obtain ⟨tls, htls⟩ := (hloose e.1).server hside
    have hfinish : s'.step H message site' (.finish e) = some (s'.move e (.completed g (some p))) := by
      simp only [World.step, hthere, htls]
    exact ⟨_, .step hfinish trivial, hmatch.move (.completed g (some p))⟩
  | @resume e k g peer hi hk =>
    have hidle := (hi ▸ hend e).of_idle
    have hthere := (hk ▸ hend (e.1, k)).of_completed
    have hresume : s'.step H message site' (.resume e k) = some (s'.move e (.completed g peer)) := by
      simp only [World.step, hidle, hthere]
    exact ⟨_, .step hresume trivial, hmatch.move (.completed g peer)⟩

/-- Whatever has been signed and completed under the stricter configurations, without a forged
signature, can be signed and completed under the looser ones, without one as well. -/
theorem loosening_keeps_connections {h h' : Heap} (hgets : Gets H message site (.fresh h) s) :
    ∃ s', Gets H message site' (.fresh h') s' ∧ s'.signed = s.signed ∧
      ∀ e g peer, s.ends e = .completed g peer → s'.ends e = .completed g peer := by
  have hrun : ∀ ls s, Run H message site (.fresh h) ls s → (∀ l ∈ ls, Unforged H message site l.1 l.2) →
      ∃ s', Gets H message site' (.fresh h') s' ∧ Matches site s s' := by
    intro ls s hrun hgenuine
    induction hrun with
    | start => exact ⟨_, .refl _, ⟨rfl, fun _ => .idle⟩⟩
    | @snoc u v ls m _ last ih =>
      obtain ⟨u', hu', hmatch⟩ := ih fun l hl => hgenuine l (List.mem_append_left _ hl)
      obtain ⟨v', hv', hmatch'⟩ := hmatch.step hloose (hgenuine (u, m) (by simp)) last
      exact ⟨v', hu'.trans hv', hmatch'⟩
  obtain ⟨ls, hls, hgenuine⟩ := hgets
  obtain ⟨s', hs', hmatch⟩ := hrun ls s hls hgenuine
  refine ⟨s', hs', hmatch.signed, fun e g peer hdone => ?_⟩
  exact (hdone ▸ hmatch.ends e).of_completed

end Looser

end World

theorem dialing_returned : Returned toyBackend dialingSite.node := dialingSite.returned

def trustingSite : Site toyBackend where
  node := dialingSite.node
  tls := .client ⟨⟨.newSpkiPinned none ⟨1⟩ .off ⟨1⟩, [[2]], [2]⟩, ⟨1⟩, ⟨1⟩⟩
  returned := dialing_returned
  configured := .clientSpkiPinned (show clientConfigSpkiPinned toyBackend _ none .off 1 = .ok _ from rfl)

def trustingSites (c : ℕ) : Site toyBackend := if c = 0 then listeningSite else trustingSite

theorem toySites_looser (c : ℕ) : (toySites c).Looser (trustingSites c) := by
  by_cases hc : c = 0
  · subst hc
    exact ⟨rfl, id, id, ⟨Or.inr rfl, le_rfl, id⟩⟩
  · rw [toySites, trustingSites, if_neg hc, if_neg hc]
    have hclient : dialingSite.IsServer → trustingSite.IsServer := by
      rintro ⟨tls, htls⟩
      cases htls
    exact ⟨rfl, hclient, fun _ => ⟨_, rfl⟩, ⟨Or.inl rfl, le_rfl, id⟩⟩

theorem loosening_keeps_connections_toy : ∃ t, World.Gets toyCrypto toyMessage trustingSites (.fresh noHeap) t ∧
    t.ends (1, 0) = .completed toyGreeting (some (shows [1])) ∧
    t.ends (0, 0) = .completed toyGreeting (some (shows [2])) := by
  obtain ⟨ls, s, hls, hrun, hclient, hserver⟩ := toyHandshake_runs
  have hgets : World.Gets toyCrypto toyMessage toySites (.fresh noHeap) s :=
    ⟨ls, hrun, toyHandshake_unforged hrun hls⟩
  obtain ⟨t, ht, _, hkept⟩ : ∃ t, World.Gets toyCrypto toyMessage trustingSites (.fresh noHeap) t ∧ _ ∧ _ :=
    World.loosening_keeps_connections toySites_looser hgets
  exact ⟨t, ht, hkept _ _ _ hclient, hkept _ _ _ hserver⟩

end DigTls
