import DigTls.Verify.Acceptance

/-! # Nobody is accepted under another peer's BLS key

A run mixes honest peers, which touch their BLS key only to mint bindings for TLS keys of
their own, with presentations of arbitrary leaves. The signature scheme is ideal in the run:
a presented signature verifies under an honest key only for a message the holder of that key
has signed before. An accepted leaf that is bound to an honest key then carries the SPKI of a
binding its holder minted.
-/
namespace DigTls
open EffectPrograms
variable {B : Backend}

/-- One act of a run. The leaf of a presentation may come from anybody. -/
inductive Act (B : Backend) where
  | mint (sk : B.SecretKey) (params : CertificateParams) (keyPair : B.KeyPair)
  | present (w : PeerVerifier) (p : Presentation)

/-- The messages honest holders have signed: `attachBinding` signs one for each minting. -/
def signedMessages (acts : List (Act B)) : List (B.SecretKey × Bytes) :=
  acts.filterMap fun
    | .mint sk _ keyPair => some (sk, bindingMessage (B.publicKeyDer keyPair))
    | .present _ _ => none

/-- The binding a leaf presents, verified or not. -/
def presentedBinding (B : Backend) (leaf : Bytes) : Option CertBlsBinding :=
  match B.parseX509Certificate leaf with
  | .error _ => none
  | .ok x509 => (bindingValue x509).bind parseBindingExtensionValue

/-- The signature scheme in this run: one holder for each key, and no presented signature
verifies for a message that the holder of its key has not signed before. -/
structure IdealScheme (B : Backend) (honest : B.SecretKey → Prop) (acts : List (Act B)) : Prop where
  oneHolder : ∀ sk sk', publicKeyBytes B sk = publicKeyBytes B sk' → sk = sk'
  unforged : ∀ before w p after, acts = before ++ .present w p :: after →
    ∀ binding, presentedBinding B p.leaf = some binding →
    ∀ sk, honest sk → publicKeyBytes B sk = binding.blsPub →
    ∀ msg, verifySignature B binding.blsPub msg binding.blsSig = true →
    ∃ holder, publicKeyBytes B holder = binding.blsPub ∧ (holder, msg) ∈ signedMessages before

/-- The SPKIs of a run: those minted for and those presented. -/
def InvolvedSpki (acts : List (Act B)) (spki : Bytes) : Prop :=
  (∃ sk params keyPair, Act.mint sk params keyPair ∈ acts ∧ B.publicKeyDer keyPair = spki) ∨
  ∃ w p x509, Act.present w p ∈ acts ∧ B.parseX509Certificate p.leaf = .ok x509 ∧
    x509.subjectPki = spki

theorem mem_signedMessages {acts : List (Act B)} {sk : B.SecretKey} {msg : Bytes}
    (h : (sk, msg) ∈ signedMessages acts) :
    ∃ params keyPair, Act.mint sk params keyPair ∈ acts ∧
      bindingMessage (B.publicKeyDer keyPair) = msg := by
  obtain ⟨act, hmem, hact⟩ := List.mem_filterMap.mp h
  cases act with
  | mint sk' params keyPair =>
    simp only [Option.some.injEq, Prod.mk.injEq] at hact
    obtain ⟨rfl, rfl⟩ := hact
    exact ⟨params, keyPair, hmem, rfl⟩
  | present w p => simp at hact

/-- The extension a minting attaches holds the holder's signature of a message listed for it. -/
theorem attached_signed {acts : List (Act B)} {sk : B.SecretKey} {params : CertificateParams} {keyPair : B.KeyPair}
    (h : Act.mint sk params keyPair ∈ acts) :
    ∃ msg, (sk, msg) ∈ signedMessages acts ∧ (attachBinding B params keyPair sk).customExtensions =
      params.customExtensions ++ [⟨digBlsBindingOid,
        encodeBindingExtensionValue (publicKeyBytes B sk) (signMessage B sk msg)⟩] :=
  ⟨_, List.mem_filterMap.mpr ⟨_, h, rfl⟩, rfl⟩

/-- A leaf accepted with a verified key presents a binding with that key whose signature
verifies over the leaf's own SPKI, and the peer id captured with it is of the same SPKI. -/
theorem accepted_bound {w : PeerVerifier} {p : Presentation} {h h' : Heap} {b : Octets 48}
    (hpol : w.cert.bindingPolicy ≠ .off) (hrun : exec cells (w.verify B p) h = (.ok (), h'))
    (hkey : w.cert.capturedBls.get h' = some b) :
    ∃ x509 binding, B.parseX509Certificate p.leaf = .ok x509 ∧
      presentedBinding B p.leaf = some binding ∧ binding.blsPub = b ∧
      verifySignature B binding.blsPub (bindingMessage x509.subjectPki) binding.blsSig = true ∧
      w.cert.captured.get h' = some (peerIdFromTlsSpkiDer B x509.subjectPki) := by
  rw [PeerVerifier.verify_eq, verifyCert_eq, exec_program] at hrun
  cases hd : judge B w.usage w.cert p.leaf p.intermediates p.now with
  | refusedUnseen e => simp [hd, Decision.effect] at hrun
  | refusedSeen id e => simp [hd, Decision.effect] at hrun
  | accepted id key =>
    obtain ⟨x509, hx, rfl, ⟨hoff, _⟩ | ⟨_, k, rfl, he⟩⟩ := judge_accepted hd
    · exact absurd hoff hpol
    · rw [hd] at hrun
      simp only [Decision.effect, Prod.mk.injEq, true_and] at hrun
      subst hrun
      have hk : k = some b := by simpa [CapturedBlsPub.get, Heap.run] using hkey
      subst hk
      have hbound : verifyBinding B x509 = .bound b := by
        rcases evaluate_ok_iff.mp he with ⟨_, hk⟩ | ⟨_, b', hb', hk⟩ | ⟨_, _, hk⟩
        · cases hk
        · cases hk
          exact hb'
        · cases hk
      obtain ⟨value, binding, hval, hatt, hpub⟩ := verifyBinding_bound_iff.mp hbound
      refine ⟨x509, binding, hx, ?_, hpub, hatt.signed, ?_⟩
      · simp [presentedBinding, hx, hval, hatt.parsed]
      · simp [CapturedPeerId.get, Heap.run]

/-- End-to-end anti-substitution: a leaf accepted with an honest peer's BLS key has an SPKI
that this peer minted a binding for, and the captured peer id belongs to no other SPKI of the
run. -/
theorem accepted_key_is_its_holders {honest : B.SecretKey → Prop} {before after : List (Act B)}
    {w : PeerVerifier} {p : Presentation} {h h' : Heap} {sk : B.SecretKey}
    (hideal : IdealScheme B honest (before ++ .present w p :: after))
    (hcollide : ∀ spki spki', InvolvedSpki (before ++ .present w p :: after) spki →
      InvolvedSpki (before ++ .present w p :: after) spki' → B.sha256 spki = B.sha256 spki' →
      spki = spki')
    (hpol : w.cert.bindingPolicy ≠ .off) (hrun : exec cells (w.verify B p) h = (.ok (), h'))
    (hhonest : honest sk) (hkey : w.cert.capturedBls.get h' = some (publicKeyBytes B sk)) :
    ∃ params keyPair x509, Act.mint sk params keyPair ∈ before ∧
      B.parseX509Certificate p.leaf = .ok x509 ∧ x509.subjectPki = B.publicKeyDer keyPair ∧
      w.cert.captured.get h' = some (peerIdFromTlsSpkiDer B (B.publicKeyDer keyPair)) ∧
      ∀ spki, InvolvedSpki (before ++ .present w p :: after) spki →
        peerIdFromTlsSpkiDer B spki = peerIdFromTlsSpkiDer B (B.publicKeyDer keyPair) →
        spki = B.publicKeyDer keyPair := by
  obtain ⟨x509, binding, hx, hpres, hpub, hsig, hid⟩ := accepted_bound hpol hrun hkey
  obtain ⟨holder, hholder, hsigned⟩ :=
    hideal.unforged before w p after rfl binding hpres sk hhonest hpub.symm _ hsig
  have hsame : holder = sk := hideal.oneHolder _ _ (hholder.trans hpub)
  subst hsame
  obtain ⟨params, keyPair, hmint, hmsg⟩ := mem_signedMessages hsigned
  have hspki : B.publicKeyDer keyPair = x509.subjectPki := bindingMessage_injective hmsg
  refine ⟨params, keyPair, x509, hmint, hx, hspki.symm, by rw [hspki]; exact hid, ?_⟩
  intro spki hinv heq
  have hinv' : InvolvedSpki (before ++ .present w p :: after) (B.publicKeyDer keyPair) :=
    Or.inl ⟨holder, params, keyPair, List.mem_append_left _ hmint, rfl⟩
  exact hcollide _ _ hinv hinv' (by simpa [peerIdFromTlsSpkiDer] using heq)

def onceSignedBackend : Backend :=
  { toyBackend with
    augVerify := fun (sig : Octets 96) (pk : Octets 48) (msg : Bytes) =>
      decide (sig = toySign pk msg ∧ pk = List.Vector.replicate 48 7 ∧ msg = bindingMessage [1]) }

def pinnedOne : PeerVerifier :=
  .server (DigServerCertVerifier.newSpkiPinned (some ⟨List.Vector.replicate 32 1⟩) ⟨0⟩ .required ⟨0⟩)

def genuine : Presentation := ⟨toyLeaf 1 7, [], "peer.dig", [], 0⟩

def mintThenPresent : List (Act onceSignedBackend) :=
  [.mint (7 : UInt8) toyParams (1 : UInt8), .present pinnedOne genuine]

theorem mintThenPresent_ideal : IdealScheme onceSignedBackend (fun _ => True) mintThenPresent where
  oneHolder sk sk' h := by
    have hhead := congrArg (fun pk : Octets 48 => pk.toList.head?) h
    change (List.replicate 48 sk).head? = (List.replicate 48 sk').head? at hhead
    simpa using hhead
  unforged before w p after hacts binding hpres sk hhonest hpub msg hsig := by
    have hbefore : before = [.mint (7 : UInt8) toyParams (1 : UInt8)] := by
      rcases before with _ | ⟨a, _ | ⟨b, rest⟩⟩
      · simp [mintThenPresent] at hacts
      · simp only [mintThenPresent, List.cons_append, List.cons.injEq] at hacts
        rw [← hacts.1]
      · simp [mintThenPresent] at hacts
    have hverified : binding.blsPub = List.Vector.replicate 48 7 ∧ msg = bindingMessage [1] := by
      have hv := of_decide_eq_true hsig
      exact hv.2
    subst hbefore
    refine ⟨(7 : UInt8), hverified.1.symm, ?_⟩
    rw [hverified.2]
    exact List.mem_singleton.mpr rfl

theorem genuine_accepted :
    exec cells (pinnedOne.verify onceSignedBackend genuine) ⟨fun _ => none, fun _ => none⟩ =
      (.ok (), (exec cells (pinnedOne.verify onceSignedBackend genuine)
        ⟨fun _ => none, fun _ => none⟩).2) := by
  have hok : (exec cells (pinnedOne.verify onceSignedBackend genuine)
      ⟨fun _ => none, fun _ => none⟩).1 = .ok () := by decide +kernel
  rw [← hok]

theorem accepted_key_is_its_holders_mintThenPresent :
    ∃ params keyPair x509,
      Act.mint (7 : UInt8) params keyPair ∈
        ([.mint (7 : UInt8) toyParams (1 : UInt8)] : List (Act onceSignedBackend)) ∧
      onceSignedBackend.parseX509Certificate genuine.leaf = .ok x509 ∧
      x509.subjectPki = onceSignedBackend.publicKeyDer keyPair := by
  obtain ⟨params, keyPair, x509, hmint, hx, hspki, _⟩ :=
    @accepted_key_is_its_holders onceSignedBackend (fun _ => True)
      [.mint (7 : UInt8) toyParams (1 : UInt8)] [] pinnedOne genuine ⟨fun _ => none, fun _ => none⟩
      (exec cells (pinnedOne.verify onceSignedBackend genuine) ⟨fun _ => none, fun _ => none⟩).2
      (7 : UInt8)
      mintThenPresent_ideal (by
        intro spki spki' h h' heq
        have hone : ∀ s, InvolvedSpki mintThenPresent s → s = [1] := by
          rintro s (⟨sk, ps, kp, hm, rfl⟩ | ⟨w, p, y, hm, hy, rfl⟩)
          · rcases List.mem_pair.mp hm with hm | hm <;> cases hm
            rfl
          · rcases List.mem_pair.mp hm with hm | hm <;> cases hm
            cases hy
            rfl
        rw [hone _ h, hone _ h'])
      (by decide) genuine_accepted trivial (by decide +kernel)
  exact ⟨params, keyPair, x509, hmint, hx, hspki⟩

end DigTls
