import DigTls.Effects.Once
import DigTls.Verify.Verifier

/-! # The trust anchor is decoded once

The DER of the shipped certificate sits in a static cell, which the first verification that needs it
fills while the others wait. The verifiers are modelled without that cell; here they have it, and any
number of them at a time do what they would do without it.
-/
namespace DigTls
open EffectPrograms
variable (B : Backend)

/-- What the cell is filled with: the first certificate of the shipped PEM, or nothing. -/
def shippedDer : Bytes := ((B.certs (PosixVolume.asBytes digCaCertPem)).head?.bind Except.toOption).getD []

/-- What is made of the bytes in the cell. -/
def anchorDer (der : Bytes) : Except DigTlsError Bytes :=
  if der.isEmpty then .error (.ca "embedded DigNetwork CA certificate is missing or unparseable") else .ok der

theorem embeddedCaCertDer_eq : embeddedCaCertDer B = anchorDer (shippedDer B) := rfl

def digCaTrustAnchorDer : Except DigTlsError Bytes := embeddedCaCertDer B

/-- The chain check, given what `embedded_ca_cert_der` answers. -/
def chainWith (caDer : Except DigTlsError Bytes) (endEntity : Bytes) (intermediates : List Bytes) (now : Time)
    (usage : KeyUsage) : Except TlsError Unit := do
  let caDer ← caDer.mapError fun e => .general s!"DigNetwork CA: {e.display}"
  let anchor ← (B.anchorFromTrustedCert caDer).mapError fun e =>
    .general s!"DigNetwork CA is not a valid trust anchor: {e}"
  let ee ← (B.endEntityTryFrom endEntity).mapError fun e =>
    .general s!"peer leaf is not a valid certificate: {e}"
  (B.verifyForUsage ee chainSigAlgs [anchor] intermediates now usage).mapError fun e =>
    .general s!"peer leaf does not chain to the DigNetwork CA: {e}"

theorem verifyChainToDigCa_eq (endEntity : Bytes) (intermediates : List Bytes) (now : Time) (usage : KeyUsage) :
    verifyChainToDigCa B endEntity intermediates now usage =
      chainWith B (embeddedCaCertDer B) endEntity intermediates now usage := rfl

abbrev SharedVerification (α : Type) : Type := OnceProgram CellOp CellOp.Res Bytes TlsError α

def verifyChainShared (endEntity : Bytes) (intermediates : List Bytes) (now : Time) (usage : KeyUsage) :
    SharedVerification Unit :=
  .call .value fun der => .ofExcept (chainWith B (anchorDer der) endEntity intermediates now usage)

def verifyCertShared (usage : KeyUsage) (v : CertVerifier) (endEntity : Bytes) (intermediates : List Bytes)
    (now : Time) : SharedVerification Unit := do
  if v.requireCaChain then verifyChainShared B endEntity intermediates now usage
  let _ ← (pinAndBind B endEntity v.expected v.captured v.bindingPolicy v.capturedBls).sharing Bytes
  return ()

theorem supply_ofExcept {α : Type} (der : Bytes) (r : Except TlsError α) :
    (.ofExcept r : SharedVerification α).supply der = .ofExcept r := by
  cases r <;> rfl

theorem verifyCertShared_supplied (usage : KeyUsage) (v : CertVerifier) (endEntity : Bytes)
    (intermediates : List Bytes) (now : Time) :
    (verifyCertShared B usage v endEntity intermediates now).supply (shippedDer B) =
      verifyCert B usage v endEntity intermediates now := by
  have htail : ((pinAndBind B endEntity v.expected v.captured v.bindingPolicy v.capturedBls).sharing Bytes >>=
      fun _ => (.done () : SharedVerification Unit)).supply (shippedDer B) =
      pinAndBind B endEntity v.expected v.captured v.bindingPolicy v.capturedBls >>= fun _ => .done () := by
    rw [Program.supply_bind, Program.supply_sharing]
    rfl
  have hchain : (verifyChainShared B endEntity intermediates now usage).supply (shippedDer B) =
      .ofExcept (verifyChainToDigCa B endEntity intermediates now usage) := by
    rw [verifyChainToDigCa_eq, embeddedCaCertDer_eq]
    exact supply_ofExcept (shippedDer B) _
  unfold verifyCertShared verifyCert
  cases v.requireCaChain with
  | false => exact htail
  | true =>
    simp only [if_true]
    rw [Program.supply_bind, hchain]
    exact congrArg _ (funext fun _ => htail)

def PeerVerifier.verifyShared (w : PeerVerifier) (p : Presentation) : SharedVerification Unit :=
  verifyCertShared B w.usage w.cert p.leaf p.intermediates p.now

/-- The calls of the crate that come to the cell. -/
inductive AnchorCall where
  | verify (w : PeerVerifier) (p : Presentation)
  | trustAnchorDer

inductive AnchorReply where
  | verified
  | anchor (der : Except DigTlsError Bytes)

def AnchorCall.shared : AnchorCall → SharedVerification AnchorReply
  | verify w p => w.verifyShared B p >>= fun _ => .done .verified
  | trustAnchorDer => .call .value fun der => .done (.anchor (anchorDer der))

def AnchorCall.plain : AnchorCall → Verification AnchorReply
  | verify w p => w.verify B p >>= fun _ => .done .verified
  | trustAnchorDer => .done (.anchor (digCaTrustAnchorDer B))

theorem AnchorCall.supplied_shared : OncePool.supplied (shippedDer B) (AnchorCall.shared B) = AnchorCall.plain B := by
  funext c
  cases c with
  | verify w p =>
    have hverify : (w.verifyShared B p).supply (shippedDer B) = w.verify B p := by
      rw [PeerVerifier.verify_eq]
      exact verifyCertShared_supplied B w.usage w.cert p.leaf p.intermediates p.now
    rw [OncePool.supplied, AnchorCall.shared, Program.supply_bind, hverify]
    rfl
  | trustAnchorDer => rfl

/-- Calls at any time, in any interleaving: the cells and the answers that they can come to with the
shared cell are those they can come to without it; the certificate is decoded once at most, and each
call can go on at once or after a step of the one that decodes. -/
theorem shared_anchor_unseen (h : Heap) :
    (∀ p, (∃ ls s, OncePool.Run cells (shippedDer B) (AnchorCall.shared B) (.idle h) ls s ∧
        s.plain (shippedDer B) = p) ↔ ∃ ls, Pool.Run cells (AnchorCall.plain B) (.idle h) ls p) ∧
      ∀ ls s, OncePool.Run cells (shippedDer B) (AnchorCall.shared B) (.idle h) ls s → s.computed ≤ 1 ∧
        ∀ i c op next, s.task i = some (c, .call op next) →
          (s.step cells (shippedDer B) (AnchorCall.shared B) (.go i)).isSome ∨
            ∃ j t, s.step cells (shippedDer B) (AnchorCall.shared B) (.go j) = some t ∧
              (t.step cells (shippedDer B) (AnchorCall.shared B) (.go i)).isSome := by
  refine ⟨fun p => ?_, fun ls s hrun => ?_⟩
  · rw [← AnchorCall.supplied_shared]
    exact OncePool.run_iff
  · have hsound := OncePool.Run.sound hrun
    refine ⟨?_, fun i c op next htask => hsound.unblocked htask⟩
    cases hcell : s.cell with
    | full v => exact (hsound.full v hcell).2.le
    | empty | busy j =>
      have hnone : s.computed = 0 := hsound.vacant fun v hv => by simp [hcell] at hv
      omega

end DigTls
