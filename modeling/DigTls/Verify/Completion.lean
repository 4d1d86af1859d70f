import DigTls.Verify.Minted
import DigTls.Verify.Mutual

/-! # Honest handshakes go through

Whatever has happened in the world, a server and a client that have yet to greet can complete a
connection, provided their leaves are minted and the client is not pinned to another peer. Each then
holds the peer id of the other, and its BLS key unless the policy is off.
-/
namespace DigTls
open EffectPrograms

namespace World
variable {B : Backend} {H : HandshakeCrypto} {message : Covered → Bytes} {site : ℕ → Site B}
  {s t u : World} {e d x : End} {g : Greeting} {p : Presentation}

def Gets (H : HandshakeCrypto) (message : Covered → Bytes) (site : ℕ → Site B) (s t : World) : Prop :=
  ∃ ls, Run H message site s ls t ∧ ∀ l ∈ ls, Unforged H message site l.1 l.2

theorem Gets.refl (s : World) : Gets H message site s s := ⟨[], .start s, by simp⟩

theorem Gets.trans (h : Gets H message site s t) (h' : Gets H message site t u) : Gets H message site s u := by
  obtain ⟨ls, hrun, hgenuine⟩ := h
  obtain ⟨ls', hrun', hgenuine'⟩ := h'
  refine ⟨ls ++ ls', hrun.append hrun', fun l hl => ?_⟩
  rcases List.mem_append.mp hl with hl | hl
  · exact hgenuine l hl
  · exact hgenuine' l hl

theorem Gets.step {m : Move H} (hstep : s.step H message site m = some t) (hgenuine : Unforged H message site s m) :
    Gets H message site s t :=
  ⟨[(s, m)], .single hstep, by simpa using hgenuine⟩

/-- A verification that nobody disturbs. -/
theorem gets_verified {rest : Verification Unit} {h : Heap} (hx : s.ends x = .verifying g p rest)
    (hexec : exec cells rest s.heap = (.ok (), h)) :
    Gets H message site s { s.move x (.verifying g p (.done ())) with heap := h } := by
  induction rest generalizing s with
  | done a =>
    obtain rfl : s.heap = h := congrArg Prod.snd hexec
    have hsame : ({ s.move x (.verifying g p (.done ())) with heap := s.heap } : World) = s := by
      simp only [move]
      rw [← hx, Function.update_eq_self]
    rw [hsame]
    exact .refl s
  | raise err => cases hexec
  | call op next ih =>
    have hstep : s.step H message site (.store x) =
        some { s.move x (.verifying g p (next ())) with heap := (Heap.run op s.heap).2 } := by
      simp only [World.step, hx]
    refine (Gets.step hstep trivial).trans ?_
    have hrest := ih () (s := { s.move x (.verifying g p (next ())) with heap := (Heap.run op s.heap).2 })
      (by simp [move]) hexec
    simpa only [move, Function.update_idem] using hrest

theorem gets_authenticated {h : Heap} {dss : H.DigitallySignedStruct} (hx : s.ends x = .greeted g)
    (haccepts : exec cells ((site x.1).verifier.verify B p) s.heap = (.ok (), h))
    (hproven : Proven H message site x g p dss)
    (hgenuine : Unforged H message site { s.move x (.verifying g p (.done ())) with heap := h } (.prove x dss)) :
    Gets H message site s { s.move x (.authenticated g p) with heap := h } := by
  have hpresent : s.step H message site (.present x p) =
      some (s.move x (.verifying g p ((site x.1).verifier.verify B p))) := by
    simp only [World.step, hx]
  have hverified : Gets H message site (s.move x (.verifying g p ((site x.1).verifier.verify B p)))
      { (s.move x (.verifying g p ((site x.1).verifier.verify B p))).move x (.verifying g p (.done ())) with
        heap := h } :=
    gets_verified (move_ends_self ..) haccepts
  have hprove : ({ s.move x (.verifying g p (.done ())) with heap := h } : World).step H message site (.prove x dss) =
      some { s.move x (.authenticated g p) with heap := h } := by
    obtain ⟨a, ha⟩ := hproven
    simp [World.step, move, ha]
  simp only [move, Function.update_idem] at hverified
  exact ((Gets.step hpresent trivial).trans hverified).trans (.step hprove hgenuine)

/-- The node of this site has been minted with this authority, for this BLS key. -/
structure Mints (site : ℕ → Site B) (c : ℕ) (ca : DigCa B) (m : NodeCert.Minting B) : Prop where
  minted : NodeCert.generateSignedBy ca m = .ok (site c).node
  nonIdentity : NonIdentity B m.blsSk

theorem Mints.accepted (L : CratesAgree B) {c : ℕ} {ca : DigCa B} {m : NodeCert.Minting B} (hm : Mints site c ca m)
    {w : PeerVerifier} {h : Heap} (hp : p.leaf = (site c).leaf) (hforce : LeafInForce w ca m p.now)
    (hpin : w.cert.expected = none ∨ w.cert.expected = some (site c).node.peerId) :
    AcceptedAs B w p h (site c).node.peerId (publicKeyBytes B m.blsSk) :=
  minted_accepted L hm.minted hm.nonIdentity (hp.trans (site c).leaf_eq) hforce hpin

end World

end DigTls
