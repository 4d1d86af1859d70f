import DigTls.Verify.Verifier
import DigTls.Peer.ToyBackend

/-! # Which leaves the verifiers accept

A verification call decides by pure checks and then performs at most two stores. `judge`
is the decision alone; the program of a call is the decision played out (`verifyCert_eq`).
Acceptance, the stored values and the untouched cells are all read off the decision.
-/
namespace DigTls
open EffectPrograms

/-- How a call ends: refused with both cells untouched, refused after the peer id was
stored, or accepted; `key` is the value stored as BLS key, when one is stored at all. -/
inductive Decision where
  | refusedUnseen (error : TlsError)
  | refusedSeen (peerId : PeerId) (error : TlsError)
  | accepted (peerId : PeerId) (key : Option (Option (Octets 48)))
  deriving DecidableEq

namespace Decision

def program (v : CertVerifier) : Decision → Verification Unit
  | refusedUnseen e => .raise e
  | refusedSeen id e => .call (.storePeerId v.captured.cell (some id)) fun _ => .raise e
  | accepted id none => .call (.storePeerId v.captured.cell (some id)) fun _ => .done ()
  | accepted id (some k) => .call (.storePeerId v.captured.cell (some id)) fun _ =>
      .call (.storeBlsPub v.capturedBls.cell k) fun _ => .done ()

def Accepts : Decision → Prop
  | accepted _ _ => True
  | _ => False

end Decision

variable (B : Backend)

def Admits (expected : Option PeerId) (id : PeerId) : Prop := ∀ pinned, expected = some pinned → id = pinned

instance (expected : Option PeerId) (id : PeerId) : Decidable (Admits expected id) :=
  decidable_of_iff (expected.all (id = ·)) (by cases expected <;> simp [Admits])

@[simp] theorem admits_none (id : PeerId) : Admits none id := by simp [Admits]
@[simp] theorem admits_some (pinned id : PeerId) : Admits (some pinned) id ↔ id = pinned := by
  simp [Admits]

def judgeSeen (v : CertVerifier) (leaf : Bytes) (id : PeerId) : Decision :=
  if Admits v.expected id then
    if v.bindingPolicy = .off then .accepted id none
    else
      match evaluate (verifyBindingFromLeafCert B leaf) v.bindingPolicy with
      | .ok key => .accepted id (some key)
      | .error reason => .refusedSeen id (rejectedBinding id reason)
  else .refusedSeen id (mismatch (v.expected.getD id) id)

def judge (usage : KeyUsage) (v : CertVerifier) (leaf : Bytes) (intermediates : List Bytes)
    (now : Time) : Decision :=
  match if v.requireCaChain then verifyChainToDigCa B leaf intermediates now usage else .ok () with
  | .error e => .refusedUnseen e
  | .ok () =>
    match peerIdFromLeafCertDer B leaf with
    | none => .refusedUnseen (.general "peer leaf certificate could not be parsed as X.509")
    | some id => judgeSeen B v leaf id

variable {B}

theorem applyPolicy_eq (v : CertVerifier) (leaf : Bytes) (id : PeerId)
    (hadm : Admits v.expected id) :
    (.call (.storePeerId v.captured.cell (some id)) fun _ =>
      applyPolicy B leaf id v.bindingPolicy v.capturedBls >>= fun _ => .done () : Verification Unit) =
      (judgeSeen B v leaf id).program v := by
  unfold judgeSeen applyPolicy
  rw [if_pos hadm]
  by_cases hoff : v.bindingPolicy = .off
  · simp [hoff, Decision.program]
  · cases he : evaluate (verifyBindingFromLeafCert B leaf) v.bindingPolicy with
    | ok key => simp [hoff, storeBlsPub, Decision.program]
    | error reason => simp [hoff, Decision.program]

theorem enforcePin_of_admits {expected : Option PeerId} {id : PeerId} (hadm : Admits expected id) :
    enforcePin expected id = .done () := by
  cases expected with
  | none => rfl
  | some pinned =>
    rw [admits_some] at hadm
    simp [enforcePin, hadm]

theorem pinAndBind_eq (v : CertVerifier) (leaf : Bytes) :
    (pinAndBind B leaf v.expected v.captured v.bindingPolicy v.capturedBls >>= fun _ => .done ()) =
      Decision.program v (match peerIdFromLeafCertDer B leaf with
        | none => .refusedUnseen (.general "peer leaf certificate could not be parsed as X.509")
        | some id => judgeSeen B v leaf id) := by
  unfold pinAndBind derivePeerId
  cases hid : peerIdFromLeafCertDer B leaf with
  | none => rfl
  | some id =>
    by_cases hadm : Admits v.expected id
    · rw [← applyPolicy_eq v leaf id hadm]
      simp [storePeerId, enforcePin_of_admits hadm, Program.bind_assoc']
    · cases hexp : v.expected with
      | none => simp [hexp] at hadm
      | some pinned =>
        have hne : id ≠ pinned := by simpa [hexp] using hadm
        simp [judgeSeen, hexp, hne, storePeerId, enforcePin, Decision.program]

/-- A verification call is its decision, played out on the cells. -/
theorem verifyCert_eq (usage : KeyUsage) (v : CertVerifier) (leaf : Bytes)
    (intermediates : List Bytes) (now : Time) :
    verifyCert B usage v leaf intermediates now =
      (judge B usage v leaf intermediates now).program v := by
  have htail := pinAndBind_eq (B := B) v leaf
  unfold verifyCert judge
  cases hc : v.requireCaChain with
  | false => exact htail
  | true =>
    cases hv : verifyChainToDigCa B leaf intermediates now usage with
    | error e => rfl
    | ok => exact htail

def Decision.effect (v : CertVerifier) (h : Heap) : Decision → Except TlsError Unit × Heap
  | refusedUnseen e => (.error e, h)
  | refusedSeen id e => (.error e, (Heap.run (.storePeerId v.captured.cell (some id)) h).2)
  | accepted id none => (.ok (), (Heap.run (.storePeerId v.captured.cell (some id)) h).2)
  | accepted id (some k) =>
    (.ok (), (Heap.run (.storeBlsPub v.capturedBls.cell k)
      (Heap.run (.storePeerId v.captured.cell (some id)) h).2).2)

theorem exec_program (v : CertVerifier) (d : Decision) (h : Heap) :
    exec cells (d.program v) h = d.effect v h := by
  cases d with
  | accepted id key => cases key <;> rfl
  | _ => rfl

theorem effect_ok_iff (v : CertVerifier) (d : Decision) (h : Heap) :
    (d.effect v h).1 = .ok () ↔ d.Accepts := by
  cases d with
  | accepted id key => cases key <;> simp [Decision.effect, Decision.Accepts]
  | _ => simp [Decision.effect, Decision.Accepts]

/-- Path validation to the shipped authority, for one key usage. -/
def ChainsToDigCa (B : Backend) (usage : KeyUsage) (leaf : Bytes) (intermediates : List Bytes)
    (now : Time) : Prop :=
  ∃ ca anchor ee, embeddedCaCertDer B = .ok ca ∧ B.anchorFromTrustedCert ca = .ok anchor ∧
    B.endEntityTryFrom leaf = .ok ee ∧
    B.verifyForUsage ee chainSigAlgs [anchor] intermediates now usage = .ok ()

/-- A 145-byte extension value whose 48-byte key is a point of the group and whose 96-byte
signature verifies under that key over the context followed by the leaf's own SPKI. -/
def SelfAttested (B : Backend) (value spki : Bytes) : Prop :=
  value.length = 145 ∧ ∃ (pk : Octets 48) (sig : Octets 96),
    (value.drop 1).take 48 = pk.toList ∧ (value.drop 49).take 96 = sig.toList ∧
    g1SubgroupCheck B pk = true ∧ verifySignature B pk (bindingSigContext ++ spki) sig = true

def BindingAllowed (B : Backend) (policy : BindingPolicy) (x509 : X509) : Prop :=
  policy = .off ∨ (bindingValue x509 = none ∧ policy = .opportunistic) ∨
    ∃ value, bindingValue x509 = some value ∧ SelfAttested B value x509.subjectPki

/-- What is asked of a leaf beyond the chain: it parses, fits the pin, and its binding
suits the policy. -/
def LeafAllowed (B : Backend) (expected : Option PeerId) (policy : BindingPolicy)
    (leaf : Bytes) : Prop :=
  ∃ x509, B.parseX509Certificate leaf = .ok x509 ∧
    Admits expected (peerIdFromTlsSpkiDer B x509.subjectPki) ∧ BindingAllowed B policy x509

/-- A leaf whose binding extension, if any, is of the version this verifier understands. -/
def VersionOneOrUnbound (B : Backend) (leaf : Bytes) : Prop :=
  ∀ x509, B.parseX509Certificate leaf = .ok x509 →
    ∀ value, bindingValue x509 = some value → value.head? = some bindingVersionV1

theorem verifyChainToDigCa_ok_iff {leaf : Bytes} {intermediates : List Bytes} {now : Time}
    {usage : KeyUsage} : verifyChainToDigCa B leaf intermediates now usage = .ok () ↔
      ChainsToDigCa B usage leaf intermediates now := by
  unfold verifyChainToDigCa ChainsToDigCa
  cases hca : embeddedCaCertDer B with
  | error e => simp [Except.mapError, bind, Except.bind]
  | ok ca =>
    cases ha : B.anchorFromTrustedCert ca with
    | error e => simp [Except.mapError, bind, Except.bind, ha]
    | ok anchor =>
      cases hee : B.endEntityTryFrom leaf with
      | error e => simp [Except.mapError, bind, Except.bind, ha]
      | ok ee =>
        cases hv : B.verifyForUsage ee chainSigAlgs [anchor] intermediates now usage <;>
          simp [Except.mapError, bind, Except.bind, ha, hv]

theorem parse_eq_some_iff {value : Bytes} {binding : CertBlsBinding} :
    parseBindingExtensionValue value = some binding ↔
      value.head? = some bindingVersionV1 ∧ value.length = 145 ∧
        (value.drop 1).take 48 = binding.blsPub.toList ∧
        (value.drop 49).take 96 = binding.blsSig.toList := by
  unfold parseBindingExtensionValue
  have hlen : bindingV1Len = 145 := rfl
  constructor
  · intro h
    split_ifs at h with hv
    cases h
    exact ⟨hv.1, hv.2, rfl, rfl⟩
  · rintro ⟨hver, hl, hpub, hsig⟩
    rw [dif_pos ⟨hver, hl⟩]
    rcases binding with ⟨pub,sig⟩
    simp only [Option.some.injEq, CertBlsBinding.mk.injEq]
    exact ⟨Subtype.ext hpub, Subtype.ext hsig⟩

theorem selfAttested_iff {value spki : Bytes} (hver : value.head? = some bindingVersionV1) :
    SelfAttested B value spki ↔ ∃ binding, Attests B value spki binding := by
  constructor
  · rintro ⟨hl, pk, sig, hpk, hsig, hg, hs⟩
    exact ⟨⟨pk, sig⟩, parse_eq_some_iff.mpr ⟨hver, hl, hpk, hsig⟩, hg, hs⟩
  · rintro ⟨binding, hp, hg, hs⟩
    obtain ⟨_, hl, hpk, hsig⟩ := parse_eq_some_iff.mp hp
    exact ⟨hl, binding.blsPub, binding.blsSig, hpk, hsig, hg, hs⟩

/-- The policy table, on a leaf of an understood version. -/
theorem evaluate_allows_iff {policy : BindingPolicy} {x509 : X509}
    (hver : ∀ value, bindingValue x509 = some value → value.head? = some bindingVersionV1) :
    (∃ k, evaluate (verifyBinding B x509) policy = .ok k) ↔ BindingAllowed B policy x509 := by
  constructor
  · rintro ⟨k, hk⟩
    rcases evaluate_ok_iff.mp hk with ⟨hoff, _⟩ | ⟨_, b, hb, _⟩ | ⟨hopp, habs, _⟩
    · exact Or.inl hoff
    · obtain ⟨value, binding, hval, hatt, _⟩ := verifyBinding_bound_iff.mp hb
      exact Or.inr (Or.inr ⟨value, hval, (selfAttested_iff (hver value hval)).mpr ⟨binding, hatt⟩⟩)
    · exact Or.inr (Or.inl ⟨verifyBinding_absent_iff.mp habs, hopp⟩)
  · rintro (hoff | ⟨hval, hopp⟩ | ⟨value, hval, hatt⟩)
    · exact ⟨none, evaluate_ok_iff.mpr (Or.inl ⟨hoff, rfl⟩)⟩
    · exact ⟨none, evaluate_ok_iff.mpr (Or.inr (Or.inr ⟨hopp, verifyBinding_absent_iff.mpr hval, rfl⟩))⟩
    · obtain ⟨binding, hb⟩ := (selfAttested_iff (hver value hval)).mp hatt
      have hbound := verifyBinding_bound_iff.mpr ⟨value, binding, hval, hb, rfl⟩
      by_cases hoff : policy = .off
      · exact ⟨none, evaluate_ok_iff.mpr (Or.inl ⟨hoff, rfl⟩)⟩
      · exact ⟨_, evaluate_ok_iff.mpr (Or.inr (Or.inl ⟨hoff, _, hbound, rfl⟩))⟩

/-- The decision accepts exactly the leaves that pass the chain (when it is required), parse,
fit the pin and satisfy the policy table. -/
theorem judge_accepts_iff {usage : KeyUsage} {v : CertVerifier} {leaf : Bytes}
    {intermediates : List Bytes} {now : Time} :
    (judge B usage v leaf intermediates now).Accepts ↔
      (v.requireCaChain = true → ChainsToDigCa B usage leaf intermediates now) ∧
      ∃ x509, B.parseX509Certificate leaf = .ok x509 ∧
        Admits v.expected (peerIdFromTlsSpkiDer B x509.subjectPki) ∧
        ∃ k, evaluate (verifyBinding B x509) v.bindingPolicy = .ok k := by
  have hseen : ∀ x509, B.parseX509Certificate leaf = .ok x509 →
      ((judgeSeen B v leaf (peerIdFromTlsSpkiDer B x509.subjectPki)).Accepts ↔
        Admits v.expected (peerIdFromTlsSpkiDer B x509.subjectPki) ∧
        ∃ k, evaluate (verifyBinding B x509) v.bindingPolicy = .ok k) := by
    intro x509 hx
    unfold judgeSeen
    by_cases hadm : Admits v.expected (peerIdFromTlsSpkiDer B x509.subjectPki)
    · by_cases hoff : v.bindingPolicy = .off
      · simp [hadm, hoff, Decision.Accepts, evaluate]
      · simp only [hadm, hoff, ↓reduceIte, verifyBindingFromLeafCert, hx, true_and]
        cases evaluate (verifyBinding B x509) v.bindingPolicy <;> simp [Decision.Accepts]
    · simp [hadm, Decision.Accepts]
  have htail : Decision.Accepts (match peerIdFromLeafCertDer B leaf with
      | none => .refusedUnseen (.general "peer leaf certificate could not be parsed as X.509")
      | some id => judgeSeen B v leaf id) ↔
      ∃ x509, B.parseX509Certificate leaf = .ok x509 ∧
        Admits v.expected (peerIdFromTlsSpkiDer B x509.subjectPki) ∧
        ∃ k, evaluate (verifyBinding B x509) v.bindingPolicy = .ok k := by
    unfold peerIdFromLeafCertDer
    cases hx : B.parseX509Certificate leaf with
    | error e => simp [Decision.Accepts]
    | ok x509 => simpa using hseen x509 hx
  unfold judge
  cases hc : v.requireCaChain with
  | false => simpa using htail
  | true =>
    simp only [↓reduceIte, forall_const, ← verifyChainToDigCa_ok_iff]
    cases hv : verifyChainToDigCa B leaf intermediates now usage with
    | error e => simp [Decision.Accepts]
    | ok => simpa using htail

theorem verifyCert_ok_iff {usage : KeyUsage} {v : CertVerifier} {leaf : Bytes}
    {intermediates : List Bytes} {now : Time} {h : Heap} (hver : VersionOneOrUnbound B leaf) :
    (exec cells (verifyCert B usage v leaf intermediates now) h).1 = .ok () ↔
      (v.requireCaChain = true → ChainsToDigCa B usage leaf intermediates now) ∧
        LeafAllowed B v.expected v.bindingPolicy leaf := by
  rw [verifyCert_eq, exec_program, effect_ok_iff, judge_accepts_iff]
  refine and_congr Iff.rfl (exists_congr fun x509 => and_congr_right fun hx => ?_)
  exact and_congr Iff.rfl (evaluate_allows_iff (hver x509 hx))

/-- What acceptance leaves in the cells: the leaf's peer id, and under a policy that looks at
bindings the key it evaluates to. -/
theorem judge_accepted {usage : KeyUsage} {v : CertVerifier} {leaf : Bytes}
    {intermediates : List Bytes} {now : Time} {id : PeerId} {key : Option (Option (Octets 48))}
    (h : judge B usage v leaf intermediates now = .accepted id key) :
    ∃ x509, B.parseX509Certificate leaf = .ok x509 ∧ id = peerIdFromTlsSpkiDer B x509.subjectPki ∧
      (v.bindingPolicy = .off ∧ key = none ∨ v.bindingPolicy ≠ .off ∧
        ∃ k, key = some k ∧ evaluate (verifyBinding B x509) v.bindingPolicy = .ok k) := by
  unfold judge at h
  split at h
  · cases h
  · unfold peerIdFromLeafCertDer at h
    cases hx : B.parseX509Certificate leaf with
    | error e => simp [hx] at h
    | ok x509 =>
      simp only [hx, judgeSeen, verifyBindingFromLeafCert] at h
      split_ifs at h with hadm hoff
      · cases h
        exact ⟨x509, rfl, rfl, Or.inl ⟨hoff, rfl⟩⟩
      · cases he : evaluate (verifyBinding B x509) v.bindingPolicy with
        | error reason => simp [he] at h
        | ok k =>
          simp only [he, Decision.accepted.injEq] at h
          obtain ⟨rfl, rfl⟩ := h
          exact ⟨x509, rfl, rfl, Or.inr ⟨hoff, k, rfl, he⟩⟩

section Exactly
variable (expected : Option PeerId) (captured : CapturedPeerId) (policy : BindingPolicy)
  (capturedBls : CapturedBlsPub) (leaf : Bytes) (intermediates : List Bytes) (name : String)
  (ocsp : Bytes) (now : Time) (h : Heap)

/-- All four verifiers accept exactly the specified leaves. -/
theorem verifiers_accept_exactly (hver : VersionOneOrUnbound B leaf) :
    ((exec cells ((DigServerCertVerifier.new expected captured policy capturedBls).verifyServerCert
        B leaf intermediates name ocsp now) h).1 = .ok () ↔
      ChainsToDigCa B .serverAuth leaf intermediates now ∧ LeafAllowed B expected policy leaf) ∧
    ((exec cells ((DigServerCertVerifier.newSpkiPinned expected captured policy
        capturedBls).verifyServerCert B leaf intermediates name ocsp now) h).1 = .ok () ↔
      LeafAllowed B expected policy leaf) ∧
    ((exec cells ((DigClientCertVerifier.new expected captured policy capturedBls).verifyClientCert
        B leaf intermediates now) h).1 = .ok () ↔
      ChainsToDigCa B .clientAuth leaf intermediates now ∧ LeafAllowed B expected policy leaf) ∧
    ((exec cells ((DigClientCertVerifier.newSpkiPinned expected captured policy
        capturedBls).verifyClientCert B leaf intermediates now) h).1 = .ok () ↔
      LeafAllowed B expected policy leaf) := by
  refine ⟨?_, ?_, ?_, ?_⟩
  · exact (verifyCert_ok_iff hver).trans (by simp [DigServerCertVerifier.new])
  · exact (verifyCert_ok_iff hver).trans (by simp [DigServerCertVerifier.newSpkiPinned])
  · exact (verifyCert_ok_iff hver).trans (by simp [DigClientCertVerifier.new])
  · exact (verifyCert_ok_iff hver).trans (by simp [DigClientCertVerifier.newSpkiPinned])

end Exactly

theorem toyLeaf_versionOne : VersionOneOrUnbound toyBackend (toyLeaf 1 7) := by
  intro x509 hx value hv
  cases hx
  cases hv
  rfl

theorem verifiers_accept_exactly_toyLeaf :
    VersionOneOrUnbound toyBackend (toyLeaf 1 7) ∧
    ((exec cells ((DigClientCertVerifier.newSpkiPinned none ⟨0⟩ .required ⟨0⟩).verifyClientCert
        toyBackend (toyLeaf 1 7) [] 0) ⟨fun _ => none, fun _ => none⟩).1 = .ok () ↔
      LeafAllowed toyBackend none .required (toyLeaf 1 7)) :=
  ⟨toyLeaf_versionOne, (verifiers_accept_exactly none ⟨0⟩ .required ⟨0⟩ (toyLeaf 1 7) [] "peer.dig"
    [] 0 ⟨fun _ => none, fun _ => none⟩ toyLeaf_versionOne).2.2.2⟩

end DigTls
