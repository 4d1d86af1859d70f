import DigTls.Verify.Minted
import DigTls.Verify.Mutual
import DigTls.Verify.SealTarget
import DigTls.Verify.Substitution

/-! # The holder of a captured key is at the other end

A sealing layer encrypts to the BLS key that came with a connection. The binding ties that key to the
SPKI of the leaf, and the proof of possession ties the leaf to the connection: together the one who
can open what is sealed is the one who is connected, with no pin given beforehand.
-/
namespace DigTls
open EffectPrograms PosixVolume

namespace World
variable {B : Backend} {H : HandshakeCrypto} {message : Covered → Bytes} {site : ℕ → Site B}
  {bls : ℕ → B.SecretKey} {t : World} {h : Heap} {ls : List (World × Move H)} {e : End} {g : Greeting}
  {p : Presentation} {c : ℕ}

/-- The verifier of the end accepts the leaf and captures this key with it. -/
def SealsTo (site : ℕ → Site B) (e : End) (p : Presentation) (key : Octets 48) : Prop :=
  ∃ id, judge B (site e.1).verifier.usage (site e.1).verifier.cert p.leaf p.intermediates p.now =
    .accepted id (some (some key))

/-- What verifies under the BLS key of a node, on a leaf shown in the run, is a binding to the SPKI of
a node with that key. -/
def OnlyBinds (site : ℕ → Site B) (bls : ℕ → B.SecretKey) (ls : List (World × Move H)) : Prop :=
  ∀ u e p binding, (u, Move.present e p) ∈ ls → presentedBinding B p.leaf = some binding →
    ∀ c msg, publicKeyBytes B (bls c) = binding.blsPub →
      verifySignature B binding.blsPub msg binding.blsSig = true →
      ∃ c', publicKeyBytes B (bls c') = binding.blsPub ∧ msg = bindingMessage (site c').node.spkiDer

/-- The leaf that brought a node's BLS key is the leaf of a node with that key. -/
theorem leafOf_sealed (hrun : Run H message site (.fresh h) ls t) (hp : (t.ends e).peer = some p)
    (hbinds : OnlyBinds site bls ls) (hseal : SealsTo site e p (publicKeyBytes B (bls c))) :
    ∃ c', publicKeyBytes B (bls c') = publicKeyBytes B (bls c) ∧ LeafOf site c' p := by
  obtain ⟨u, d, hu⟩ := hrun.presented hp
  obtain ⟨id, hjudge⟩ := hseal
  obtain ⟨_, _, x509, value, sig, hx, _, hvalue, hattests⟩ := fullyChecked_of_accepted hjudge
  have hbinding : presentedBinding B p.leaf = some ⟨publicKeyBytes B (bls c), sig⟩ := by
    simp [presentedBinding, hx, hvalue, hattests.parsed]
  obtain ⟨c', hkey, hmsg⟩ := hbinds u d p _ hu hbinding c _ rfl hattests.signed
  exact ⟨c', hkey, x509, hx, bindingMessage_injective hmsg⟩

/-- Whoever holds the BLS key that an end captured is connected to it: a node with that key shares the
greeting of a completed connection, on the other side, and as a client it has accepted the leaf of
this end. -/
theorem seal_target_is_connected (hmessage : Function.Injective message)
    (hrun : Run H message site (.fresh h) ls t) (hunforged : ∀ x ∈ ls, Unforged H message site x.1 x.2)
    (hbinds : OnlyBinds site bls ls) (hdone : t.ends e = .completed g (some p))
    (hseal : SealsTo site e p (publicKeyBytes B (bls c))) :
    ∃ c' d, publicKeyBytes B (bls c') = publicKeyBytes B (bls c) ∧ LeafOf site c' p ∧
      (site d.1).node.spkiDer = (site c').node.spkiDer ∧ (t.ends d).greeting = some g ∧
      ((site e.1).IsClient → (site d.1).IsServer) ∧
      ((site e.1).IsServer → (site d.1).IsClient ∧ p.leaf = (site d.1).leaf ∧
        ∃ q, t.ends d = .completed g (some q) ∧ q.leaf = (site e.1).leaf ∧ Accepted site d q) := by
  have hsound := Run.sound hmessage hrun hunforged
  obtain ⟨c', hkey, hleaf⟩ := leafOf_sealed hrun (by rw [hdone]; rfl) hbinds hseal
  obtain ⟨_, hp, _, hsigned⟩ := hsound.completed e g _ hdone
  cases hp
  rcases (site e.1).isServer_or_isClient with hserver | hclient
  · have hfinished := hsigned c' hleaf
    rw [covered_server hserver] at hfinished
    obtain ⟨d, hspki, hside, hown, q, hq, hd⟩ := hfinished.client hsound
    obtain ⟨_, hq', haccepted, _⟩ := hsound.completed d g _ hd
    cases hq'
    refine ⟨c', d, hkey, hleaf, hspki, by rw [hd]; rfl, ?_, ?_⟩
    · exact fun hclient => absurd hclient ((site e.1).not_isClient hserver)
    · exact fun _ => ⟨hside, hown, q, hd, hq, haccepted⟩
  · have hgreeted := hsigned c' hleaf
    rw [covered_client hclient] at hgreeted
    obtain ⟨d, hspki, hside, hgreeting⟩ := hgreeted.server hsound
    refine ⟨c', d, hkey, hleaf, hspki, hgreeting, fun _ => hside, ?_⟩
    exact fun hserver => absurd hclient ((site e.1).not_isClient hserver)

end World

def boundNode : NodeCert :=
  ⟨onceSignedBackend.certificatePem (toyLeaf 1 7), "k\x01", toyLeaf 1 7, [1], [1], ⟨List.Vector.replicate 32 1⟩⟩

theorem toyLeaf_parse : onceSignedBackend.parseX509Certificate (toyLeaf 1 7) =
    .ok ⟨[1], [⟨digBlsBindingOidStr, (toyLeaf 1 7).tail⟩]⟩ := rfl

theorem onceSigned_reads (der : Bytes) :
    (onceSignedBackend.certs (asBytes (onceSignedBackend.certificatePem der))).head? = some (.ok der) :=
  congrArg List.head? (toyCerts_pem der)

theorem boundNode_fromPem : NodeCert.fromPem onceSignedBackend boundNode.certPem boundNode.keyPem = .ok boundNode := by
  have hkey : onceSignedBackend.keyPairFromPem boundNode.keyPem = .ok (1 : UInt8) := toy_keyPairFromPem 1
  rw [NodeCert.fromPem_eq hkey]
  exact NodeCert.fromParts_eq_ok.mpr ⟨toyLeaf 1 7, _, onceSigned_reads (toyLeaf 1 7), toyLeaf_parse, rfl, rfl⟩

theorem onceSigned_fromPem_two : NodeCert.fromPem onceSignedBackend "c\x02" "k\x02" =
    .ok ⟨"c\x02", "k\x02", [2], [2], [2], ⟨List.Vector.replicate 32 2⟩⟩ := toy_fromPem_two

def boundSite : Site onceSignedBackend where
  node := boundNode
  tls := .server ⟨⟨.newSpkiPinned none ⟨0⟩ .off ⟨0⟩, [toyLeaf 1 7], [1]⟩, ⟨0⟩, ⟨0⟩⟩
  returned := .fromPem boundNode_fromPem
  configured := .serverSpkiPinned (show serverConfigSpkiPinned onceSignedBackend _ .off 0 = .ok _ from rfl)

def requiringSite : Site onceSignedBackend where
  node := ⟨"c\x02", "k\x02", [2], [2], [2], ⟨List.Vector.replicate 32 2⟩⟩
  tls := .client ⟨⟨.newSpkiPinned none ⟨1⟩ .required ⟨1⟩, [[2]], [2]⟩, ⟨1⟩, ⟨1⟩⟩
  returned := .fromPem onceSigned_fromPem_two
  configured := .clientSpkiPinned (show clientConfigSpkiPinned onceSignedBackend _ none .required 1 = .ok _ from rfl)

def sealingSites (c : ℕ) : Site onceSignedBackend := if c = 0 then boundSite else requiringSite

def sealingHandshake : List (Move toyCrypto) :=
  [.greet (0, 0) toyGreeting, .greet (1, 0) toyGreeting, .present (1, 0) (shows (toyLeaf 1 7)), .store (1, 0),
    .store (1, 0), .prove (1, 0) (toyLeaf 1 7, toyMessage (.server toyGreeting)), .finish (1, 0)]

theorem sealingHandshake_seen :
    (World.play toyCrypto toyMessage sealingSites (.fresh noHeap) (sealingHandshake.take 5)).map (World.seen (1, 0)) =
      some (some toyGreeting, some (shows (toyLeaf 1 7)), [((0, 0), .server toyGreeting)]) := by decide +kernel

theorem sealingHandshake_unforged {ls : List (World × Move toyCrypto)} {t : World}
    (hrun : World.Run toyCrypto toyMessage sealingSites (.fresh noHeap) ls t)
    (hls : ls.map Prod.snd = sealingHandshake) :
    ∀ x ∈ ls, World.Unforged toyCrypto toyMessage sealingSites x.1 x.2 := by
  rintro ⟨u, m⟩ hx
  obtain ⟨before, after, hmoves, hu⟩ := hrun.reached hx
  rw [hls] at hmoves
  have hbefore : before = sealingHandshake.take before.length := by rw [hmoves, List.take_left]
  have hm : sealingHandshake[before.length]? = some m := by rw [hmoves]; simp
  have hshort : before.length < 7 := by
    have hlength := congrArg List.length hmoves
    have hseven : sealingHandshake.length = 7 := rfl
    simp only [hseven, List.length_append, List.length_cons] at hlength
    omega
  rw [hbefore] at hu
  generalize before.length = n at hm hshort hu
  have hclient := sealingHandshake_seen
  by_cases hsixth : n = 5
  · subst hsixth
    rw [World.play, hu, Option.map_some, Option.some.injEq, World.seen, Prod.mk.injEq, Prod.mk.injEq] at hclient
    obtain ⟨hgreeting, hpeer, hsigned⟩ := hclient
    cases hm
    exact World.unforged_of_signed (d := (0, 0)) hgreeting hpeer (by rw [hsigned]; decide)
      ⟨_, toyLeaf_parse, rfl⟩
  · interval_cases n <;> first | exact absurd rfl hsixth | (cases hm; trivial)

/-- Both nodes have key 7, which verifies for one message only. -/
theorem sealingHandshake_binds {ls : List (World × Move toyCrypto)} :
    World.OnlyBinds sealingSites (fun _ => (7 : UInt8)) ls := by
  intro u e p binding _ _ c msg hkey hsig
  have hverified : binding.blsSig = toySign binding.blsPub msg ∧ binding.blsPub = List.Vector.replicate 48 7 ∧
      msg = bindingMessage [1] := of_decide_eq_true hsig
  exact ⟨0, hkey, hverified.2.2⟩

theorem seal_target_is_connected_toy : ∃ ls t, World.Run toyCrypto toyMessage sealingSites (.fresh noHeap) ls t ∧
    ∃ c d, publicKeyBytes onceSignedBackend ((fun _ => 7 : ℕ → UInt8) c) = List.Vector.replicate 48 7 ∧
      World.LeafOf sealingSites c (shows (toyLeaf 1 7)) ∧ (sealingSites d.1).IsServer ∧
      (t.ends d).greeting = some toyGreeting := by
  have hend : (World.play toyCrypto toyMessage sealingSites (.fresh noHeap) sealingHandshake).map
      (fun t => (t.ends (1, 0)).completion) =
      some (some (toyGreeting, some (shows (toyLeaf 1 7)))) := by decide +kernel
  obtain ⟨t, ht, hobs⟩ := Option.map_eq_some_iff.mp hend
  obtain ⟨ls, hls, hrun⟩ := History.of_replay ht
  have hdone : t.ends (1, 0) = .completed toyGreeting (some (shows (toyLeaf 1 7))) := Stage.completion_eq_some.mp hobs
  have hseal : World.SealsTo sealingSites (1, 0) (shows (toyLeaf 1 7))
      (publicKeyBytes onceSignedBackend ((fun _ => 7 : ℕ → UInt8) 0)) :=
    ⟨⟨List.Vector.replicate 32 1⟩, by decide +kernel⟩
  obtain ⟨c, d, hkey, hleaf, _, hgreeting, hserver, _⟩ := World.seal_target_is_connected (c := 0)
    toyMessage_injective hrun (sealingHandshake_unforged hrun hls) sealingHandshake_binds hdone hseal
  exact ⟨ls, t, hrun, c, d, hkey, hleaf, hserver ⟨_, rfl⟩, hgreeting⟩

end DigTls
