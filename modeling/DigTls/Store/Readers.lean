import DigTls.Effects.Watchers
import DigTls.Store.Retirement

/-! # Reading beside a rotation

While one process rotates, any number of others load the current and the previous identity, each
again and again. They take no lock, and the rotation may fail or be cut short at any of its calls.
What they find is the retiring identity, then for a while two files that do not go together, then the
new identity; and never the way back.
-/
namespace DigTls
open EffectPrograms PosixVolume
variable {B : Backend} {α β ι : Type}

def Call.Asks : Call B → Prop
  | .loadOrGenerate _ | .loadPrevious => True
  | .rotate _ | .retirePrevious => False

section Answers
variable {level : ℕ → Volume String → Prop} {k l : ℕ} {path : String}

theorem answers_ofExcept {x r : Except DigTlsError α}
    (h : (Program.ofExcept x : Task α).Answers (posix String) level k r l) : r = x ∧ k ≤ l := by
  cases x <;> exact h

theorem answers_pathExists {r : Except DigTlsError Bool}
    (h : (pathExists path).Answers (posix String) level k r l) :
    ∃ j s, k ≤ j ∧ j ≤ l ∧ level j s ∧ r = .ok (s.contents path).isSome := by
  obtain ⟨j, s, a, t, hkj, hs, hdoes, rfl, hjl⟩ := h
  refine ⟨j, s, hkj, hjl, hs, ?_⟩
  cases hdoes with
  | works => rw [Volume.contents_isSome]; rfl
  | fails failed => cases failed

theorem answers_readToString {r : Except DigTlsError String}
    (h : (readToString path).Answers (posix String) level k r l) :
    (∃ j s text, k ≤ j ∧ j ≤ l ∧ level j s ∧ s.contents path = some (asBytes text) ∧ r = .ok text) ∨
      ∃ i, r = .error (.io i) := by
  obtain ⟨j, s, a, t, hkj, hs, hdoes, hrest⟩ := h
  cases hdoes with
  | fails failed =>
    cases failed with
    | readToString _ _ e => exact Or.inr ⟨e, hrest.1⟩
  | works =>
    have htext := (run_readToString path s).2
    change ((orFail (Volume.run (.readToString path) s).1).Answers _ _ _ _ _) at hrest
    cases ha : (Volume.run (.readToString path) s).1 with
    | error e =>
      rw [ha] at hrest
      exact Or.inr ⟨e, hrest.1⟩
    | ok text =>
      rw [ha] at hrest
      exact Or.inl ⟨j, s, text, hkj, hrest.2, hs, htext text ha, hrest.1⟩

theorem answers_bothExist {slot : Slot} {r : Except DigTlsError Bool}
    (h : (bothExist slot).Answers (posix String) level k r l) :
    ∃ b, r = .ok b ∧ k ≤ l ∧ (b = false → ∃ j s, k ≤ j ∧ level j s ∧
      (s.contents slot.cert = none ∨ s.contents slot.key = none)) ∧
      (b = true → ∃ j s j' s', k ≤ j ∧ j ≤ j' ∧ j' ≤ l ∧ level j s ∧ level j' s' ∧
        (s.contents slot.cert).isSome ∧ (s'.contents slot.key).isSome) := by
  have hkl := h.le
  rcases Program.Answers.of_bind h with ⟨b, i, hcert, hrest⟩ | ⟨e, _, he⟩
  · obtain ⟨j, s, hkj, hji, hs, hb⟩ := answers_pathExists hcert
    obtain rfl := Except.ok.inj hb
    cases hthere : (s.contents slot.cert).isSome with
    | false =>
      rw [hthere] at hrest
      have hmissing : s.contents slot.cert = none := by simpa using hthere
      exact ⟨false, hrest.1, hkl, fun _ => ⟨j, s, hkj, hs, Or.inl hmissing⟩, by simp⟩
    | true =>
      rw [hthere] at hrest
      obtain ⟨j', s', hij', hj'l, hs', hr⟩ := answers_pathExists hrest
      refine ⟨_, hr, hkl, fun hno => ?_, fun hyes => ?_⟩
      · have hmissing : s'.contents slot.key = none := by simpa using hno
        exact ⟨j', s', by omega, hs', Or.inr hmissing⟩
      · exact ⟨j, s, j', s', hkj, by omega, hj'l, hs, hs', hthere, hyes⟩
  · obtain ⟨_, _, _, _, _, hr⟩ := answers_pathExists he
    cases hr

theorem answers_loadSlot {slot : Slot} {r : Except DigTlsError NodeCert}
    (h : (loadSlot B slot).Answers (posix String) level k r l) :
    (∃ j s j' s' certPem keyPem, k ≤ j ∧ j ≤ j' ∧ j' ≤ l ∧ level j s ∧ level j' s' ∧
      s.contents slot.cert = some (asBytes certPem) ∧ s'.contents slot.key = some (asBytes keyPem) ∧
      r = NodeCert.fromPem B certPem keyPem) ∨ ∃ i, r = .error (.io i) := by
  rcases Program.Answers.of_bind h with ⟨certPem, i, hcert, hrest⟩ | ⟨e, rfl, he⟩
  · rcases answers_readToString hcert with ⟨j, s, _, hkj, hji, hs, htext, heq⟩ | ⟨_, habsurd⟩
    · cases heq
      rcases Program.Answers.of_bind hrest with ⟨keyPem, i', hkey, hparse⟩ | ⟨e, rfl, he⟩
      · rcases answers_readToString hkey with ⟨j', s', _, hij', hj'i', hs', htext', heq⟩ | ⟨_, habsurd⟩
        · cases heq
          obtain ⟨hr, hi'l⟩ := answers_ofExcept hparse
          exact Or.inl ⟨j, s, j', s', certPem, keyPem, hkj, by omega, by omega, hs, hs', htext, htext', hr⟩
        · cases habsurd
      · rcases answers_readToString he with ⟨_, _, _, _, _, _, _, habsurd⟩ | ⟨i, hi⟩
        · cases habsurd
        · cases hi
          exact Or.inr ⟨i, rfl⟩
    · cases habsurd
  · rcases answers_readToString he with ⟨_, _, _, _, _, _, _, habsurd⟩ | ⟨i, hi⟩
    · cases habsurd
    · cases hi
      exact Or.inr ⟨i, rfl⟩

theorem answers_map {g : α → β} {p : Task α} {r : Except DigTlsError β}
    (h : (p >>= fun a => .done (g a)).Answers (posix String) level k r l) :
    ∃ r', p.Answers (posix String) level k r' l ∧ r = r'.map g := by
  rcases Program.Answers.of_bind h with ⟨a, j, ha, hr, hjl⟩ | ⟨e, rfl, he⟩
  · exact ⟨.ok a, ha.later hjl, hr⟩
  · exact ⟨.error e, he, rfl⟩

end Answers

def Rotated (p x : NodeCert) (s : Volume String) (k : ℕ) (u : Volume String) : Prop :=
  k ≤ 4 ∧ RotationStage p x k s u

section Stages
variable {p x : NodeCert} {s u : Volume String} {j k l : ℕ}

/-- Of the current slot both files are there at all times. -/
theorem Rotated.current (h : Rotated p x s k u) (hp : Holds B s currentSlot p) :
    u.contents certFile = some (asBytes (if 3 ≤ k then x.certPem else p.certPem)) ∧
      u.contents keyFile = some (asBytes (if 4 ≤ k then x.keyPem else p.keyPem)) := by
  have hcert : s.contents certFile = some (asBytes p.certPem) := hp.cert
  have hkey : s.contents keyFile = some (asBytes p.keyPem) := hp.key
  rw [h.2.cert, h.2.key, hcert, hkey]
  constructor <;> split <;> rfl

theorem Rotated.previous (h : Rotated p x s k u)
    (hfree : s.contents certFilePrev = none ∧ s.contents keyFilePrev = none) :
    u.contents certFilePrev = (if 1 ≤ k then some (asBytes p.certPem) else none) ∧
      u.contents keyFilePrev = (if 2 ≤ k then some (asBytes p.keyPem) else none) := by
  rw [h.2.prevCert, h.2.prevKey, hfree.1, hfree.2]
  exact ⟨rfl, rfl⟩

/-- The answers to the reading calls beside a rotation from `p` to `x`. -/
inductive Finds (p x : NodeCert) : Call B → Except DigTlsError Reply → Prop
  | retiring (m : NodeCert.Minting B) : Finds p x (.loadOrGenerate m) (.ok (.node p))
  | torn (m : NodeCert.Minting B) : Finds p x (.loadOrGenerate m) (.error mismatched)
  | minted (m : NodeCert.Minting B) : Finds p x (.loadOrGenerate m) (.ok (.node x))
  | unfilled : Finds p x .loadPrevious (.ok (.previous none))
  | kept : Finds p x .loadPrevious (.ok (.previous (some p)))
  | failed {c : Call B} (hc : c.Asks) (i : IoError) : Finds p x c (.error (.io i))

/-- The answers that a call can give which starts after `k` writes of the rotation and ends after `l`. -/
inductive Window (p x : NodeCert) (k l : ℕ) : Except DigTlsError Reply → Prop
  | retiring (hk : k ≤ 2) : Window p x k l (.ok (.node p))
  | torn (hk : k ≤ 3) (hl : 3 ≤ l) : Window p x k l (.error mismatched)
  | minted (hl : 4 ≤ l) : Window p x k l (.ok (.node x))
  | unfilled (hk : k ≤ 1) : Window p x k l (.ok (.previous none))
  | kept (hl : 2 ≤ l) : Window p x k l (.ok (.previous (some p)))
  | failed (i : IoError) : Window p x k l (.error (.io i))

/-- What may be answered after an answer: who has seen the new certificate does not find the retiring
identity any more, but finds it as the previous one. -/
structure Follows (p x : NodeCert) (r r' : Except DigTlsError Reply) : Prop where
  minted : r = .ok (.node x) → r' ≠ .ok (.node p) ∧ r' ≠ .error mismatched ∧ r' ≠ .ok (.previous none)
  torn : r = .error mismatched → r' ≠ .ok (.node p) ∧ r' ≠ .ok (.previous none)
  kept : r = .ok (.previous (some p)) → r' ≠ .ok (.previous none)

theorem Window.follows {r r' : Except DigTlsError Reply} {k' l' : ℕ} (h : Window p x k l r)
    (h' : Window p x k' l' r') (hlk : l ≤ k') (hne : p ≠ x) : Follows p x r r' := by
  constructor
  · rintro rfl
    have hl : 4 ≤ l := by
      cases h with
      | retiring => exact absurd rfl hne
      | minted hl => exact hl
    refine ⟨?_, ?_, ?_⟩
    · rintro rfl
      cases h' with
      | retiring hk => omega
      | minted => exact hne rfl
    · rintro rfl
      cases h' with
      | torn hk => omega
    · rintro rfl
      cases h' with
      | unfilled hk => omega
  · rintro rfl
    have hl : 3 ≤ l := by
      cases h with
      | torn _ hl => exact hl
    refine ⟨?_, ?_⟩
    · rintro rfl
      cases h' with
      | retiring hk => omega
      | minted => exact hne rfl
    · rintro rfl
      cases h' with
      | unfilled hk => omega
  · rintro rfl
    have hl : 2 ≤ l := by
      cases h with
      | kept hl => exact hl
    rintro rfl
    cases h' with
    | unfilled hk => omega

/-- A load beside the rotation: the certificate is read first. -/
theorem answers_load (hp : Holds B s currentSlot p) (hx : NodeCert.fromPem B x.certPem x.keyPem = .ok x)
    (hfresh : p.spkiDer ≠ x.spkiDer) (m : NodeCert.Minting B) {r : Except DigTlsError Reply}
    (h : ((Call.loadOrGenerate m).program .unix).Answers (posix String) (Rotated p x s) k r l) :
    Finds p x (.loadOrGenerate m) r ∧ Window p x k l r := by
  obtain ⟨r', hload, rfl⟩ := answers_map h
  rcases Program.Answers.of_bind hload with ⟨b, i, hboth, hslot⟩ | ⟨e, rfl, he⟩
  · obtain ⟨b', hb', hki, hmissing, _⟩ := answers_bothExist hboth
    obtain rfl := Except.ok.inj hb'
    cases b with
    | false =>
      obtain ⟨j, u, _, hu, hgone⟩ := hmissing rfl
      obtain ⟨hcert, hkey⟩ := hu.current hp
      rcases hgone with hgone | hgone
      · cases hcert.symm.trans hgone
      · cases hkey.symm.trans hgone
    | true =>
      rcases answers_loadSlot hslot with
        ⟨j, u, j', v, certPem, keyPem, hij, hjj', hj'l, hu, hv, hcert, hkey, rfl⟩ | ⟨i, rfl⟩
      · have hcertPem := asBytes_injective (Option.some.inj (hcert.symm.trans (hu.current hp).1))
        have hkeyPem := asBytes_injective (Option.some.inj (hkey.symm.trans (hv.current hp).2))
        have hlast := hv.1
        rw [hcertPem, hkeyPem]
        by_cases hj : 3 ≤ j
        · rw [if_pos hj]
          by_cases hj' : 4 ≤ j'
          · rw [if_pos hj', hx]
            exact ⟨.minted m, .minted (by omega)⟩
          · rw [if_neg hj', NodeCert.fromPem_mixed hx hp.genuine hfresh.symm]
            exact ⟨.torn m, .torn (by omega) (by omega)⟩
        · rw [if_neg hj]
          by_cases hj' : 4 ≤ j'
          · rw [if_pos hj', NodeCert.fromPem_mixed hp.genuine hx hfresh]
            exact ⟨.torn m, .torn (by omega) (by omega)⟩
          · rw [if_neg hj', hp.genuine]
            exact ⟨.retiring m, .retiring (by omega)⟩
      · have hasks : (Call.loadOrGenerate m).Asks := trivial
        exact ⟨.failed hasks i, .failed i⟩
  · obtain ⟨_, habsurd, _⟩ := answers_bothExist he
    cases habsurd

theorem answers_previous (hp : Holds B s currentSlot p)
    (hfree : s.contents certFilePrev = none ∧ s.contents keyFilePrev = none) {r : Except DigTlsError Reply}
    (h : ((Call.loadPrevious (B := B)).program .unix).Answers (posix String) (Rotated p x s) k r l) :
    Finds p x (Call.loadPrevious (B := B)) r ∧ Window p x k l r := by
  obtain ⟨r', hload, rfl⟩ := answers_map h
  rcases Program.Answers.of_bind hload with ⟨b, i, hboth, hslot⟩ | ⟨e, rfl, he⟩
  · obtain ⟨b', hb', hki, hmissing, hthere⟩ := answers_bothExist hboth
    obtain rfl := Except.ok.inj hb'
    cases b with
    | false =>
      obtain ⟨rfl, _⟩ := hslot
      obtain ⟨j, u, hkj, hu, hgone⟩ := hmissing rfl
      have hj : j ≤ 1 := by
        by_contra hj
        obtain ⟨hcert, hkey⟩ := hu.previous hfree
        rw [if_pos (by omega)] at hcert hkey
        rcases hgone with hgone | hgone
        · cases hcert.symm.trans hgone
        · cases hkey.symm.trans hgone
      exact ⟨.unfilled, .unfilled (by omega)⟩
    | true =>
      obtain ⟨_, _, i', w, _, _, hi'i, _, hw, _, hkeyThere⟩ := hthere rfl
      have hi : 2 ≤ i := by
        by_contra hi
        obtain ⟨_, hkey⟩ := hw.previous hfree
        rw [if_neg (by omega)] at hkey
        have hkeyThere : (w.contents keyFilePrev).isSome := hkeyThere
        rw [hkey] at hkeyThere
        cases hkeyThere
      obtain ⟨r'', hnode, rfl⟩ := answers_map hslot
      rcases answers_loadSlot hnode with
        ⟨j, u, j', v, certPem, keyPem, hij, hjj', hj'l, hu, hv, hcert, hkey, rfl⟩ | ⟨i, rfl⟩
      · have hprevCert := (hu.previous hfree).1
        have hprevKey := (hv.previous hfree).2
        rw [if_pos (by omega)] at hprevCert hprevKey
        rw [asBytes_injective (Option.some.inj (hcert.symm.trans hprevCert)),
          asBytes_injective (Option.some.inj (hkey.symm.trans hprevKey)), hp.genuine]
        exact ⟨.kept, .kept (by omega)⟩
      · have hasks : (Call.loadPrevious (B := B)).Asks := trivial
        exact ⟨.failed hasks i, .failed i⟩
  · obtain ⟨_, habsurd, _⟩ := answers_bothExist he
    cases habsurd

theorem orFail_looks {I : Volume String → Prop} (r : Except IoError α) : (orFail r).Looks (posix String) I := by
  cases r <;> trivial

theorem pathExists_looks {I : Volume String → Prop} {path : String} {f : Bool → Task α}
    (h : ∀ v, I v → (f (v.contents path).isSome).Looks (posix String) I) :
    (pathExists path >>= f).Looks (posix String) I := by
  rintro v a w hv hdoes
  cases hdoes with
  | works =>
    have hnext := h v hv
    rw [Volume.contents_isSome] at hnext
    exact ⟨rfl, hnext⟩
  | fails failed => cases failed

theorem readToString_looks {I : Volume String → Prop} (path : String) :
    (readToString path).Looks (posix String) I := by
  rintro v a w hv hdoes
  cases hdoes with
  | works => exact ⟨(run_readToString path v).1, orFail_looks _⟩
  | fails failed =>
    cases failed with
    | readToString => exact ⟨rfl, trivial⟩

theorem loadSlot_looks {I : Volume String → Prop} (slot : Slot) : (loadSlot B slot).Looks (posix String) I := by
  refine (readToString_looks _).bind fun certPem => (readToString_looks _).bind fun keyPem => ?_
  cases NodeCert.fromPem B certPem keyPem <;> trivial

/-- A load does not come to mint as long as the current pair is there. -/
theorem reading_looks (hp : Holds B s currentSlot p) {c : Call B} (hc : c.Asks) :
    (c.program .unix).Looks (posix String) fun u => ∃ k, Rotated p x s k u := by
  cases c with
  | loadOrGenerate m =>
    refine Program.Looks.bind ?_ fun _ => trivial
    rw [loadOrGenerate, bothExist, Program.bind_assoc']
    refine pathExists_looks fun u hu => ?_
    obtain ⟨k, hu⟩ := hu
    have hcert : (u.contents currentSlot.cert).isSome = true :=
      Option.isSome_iff_exists.mpr ⟨_, (hu.current hp).1⟩
    rw [hcert]
    refine pathExists_looks fun v hv => ?_
    obtain ⟨k', hv⟩ := hv
    have hkey : (v.contents currentSlot.key).isSome = true :=
      Option.isSome_iff_exists.mpr ⟨_, (hv.current hp).2⟩
    rw [hkey]
    exact loadSlot_looks _
  | loadPrevious =>
    refine Program.Looks.bind (Program.Looks.bind ?_ fun b => ?_) fun _ => trivial
    · refine pathExists_looks fun u _ => ?_
      cases (u.contents prevSlot.cert).isSome with
      | false => trivial
      | true => exact pathExists_looks (f := .done) fun _ _ => trivial
    · cases b with
      | false => trivial
      | true => exact (loadSlot_looks _).bind fun _ => trivial
  | rotate m => exact hc.elim
  | retirePrevious => exact hc.elim

/-- How far a rotation has got is the number of its renames. -/
theorem rotated_renames (hs : s.Wf) (hp : Holds B s currentSlot p) {m : NodeCert.Minting B}
    (hmint : NodeCert.generateSigned B m = .ok x) :
    Ensures (posix String) ((Call.rotate m).program .unix) s fun trace _ t =>
      Rotated p x s (renamed trace).length t := by
  refine Ensures.mono (results_rotate hs m) fun trace o t hleaves => ?_
  generalize renamed trace = ds at hleaves
  cases hleaves with
  | refused _ same _ =>
    refine ⟨by simp, ?_⟩
    exact ⟨same _ (by decide), same _ (by decide), same _ (by decide), same _ (by decide)⟩
  | @rotated _ p' x' k _ _ _ holds _ mint bound stage _ _ _ =>
    obtain rfl := holds.unique hp
    obtain rfl := Except.ok.inj (mint.symm.trans hmint)
    have hlength : ([certFilePrev, keyFilePrev, certFile, keyFile].take k).length = k := by
      rw [List.length_take]
      exact Nat.min_eq_left bound
    rw [hlength]
    exact ⟨bound, stage⟩

end Stages

section Beside
variable [DecidableEq ι]

def besideRotation (s : Volume String) (m : NodeCert.Minting B) (asks : ι → List (Call B)) :
    Scene (Op String) ι Op.Res DigTlsError Reply (List (Except DigTlsError Reply)) (Volume String) :=
  .opening s ((Call.rotate m).program .unix) fun i => .series ((asks i).map (Call.program .unix))

/-- Every reader finds the retiring identity, then nothing that goes together, then the new one, and
the retiring one in the previous slot from the time it may miss it in the current one; the rotation
goes as it would without them. -/
theorem reading_beside_rotation (hread : KeysReadBack B) {s : Volume String} {p x : NodeCert} (hs : s.Wf)
    (hp : Holds B s currentSlot p) (hfree : s.contents certFilePrev = none ∧ s.contents keyFilePrev = none)
    {m : NodeCert.Minting B} (hmint : NodeCert.generateSigned B m = .ok x) (hfresh : p.spkiDer ≠ x.spkiDer)
    {asks : ι → List (Call B)} (hasks : ∀ i, ∀ c ∈ asks i, c.Asks) {ls t}
    (hrun : Scene.Run (posix String) (besideRotation s m asks) ls t) :
    t.Alone (posix String) ((Call.rotate m).program .unix) s ∧
      ∀ i r, (t.lookers i).result = some r → ∃ rs, r = .ok rs ∧
        List.Forall₂ (Finds p x) (asks i) rs ∧ rs.Pairwise (Follows p x) := by
  have hx := NodeCert.fromPem_generated hread hmint
  have hne : p ≠ x := fun h => hfresh (congrArg NodeCert.spkiDer h)
  have hlooks : ∀ i, (Program.series ((asks i).map (Call.program .unix))).Looks (posix String)
      fun u => ∃ k, Rotated p x s k u := by
    intro i
    refine Program.Looks.series fun q hq => ?_
    obtain ⟨c, hc, rfl⟩ := List.mem_map.mp hq
    exact reading_looks hp (hasks i c hc)
  have hanswers : ∀ c : Call B, c.Asks → ∀ k r l,
      (c.program .unix).Answers (posix String) (Rotated p x s) k r l → Finds p x c r ∧ Window p x k l r := by
    intro c hc k r l h
    cases c with
    | loadOrGenerate m' => exact answers_load hp hx hfresh m' h
    | loadPrevious => exact answers_previous hp hfree h
    | rotate m' => exact hc.elim
    | retirePrevious => exact hc.elim
  have hrank : ∀ xs ys : List (Op String), (renamed xs).length ≤ (renamed (xs ++ ys)).length := by
    intro xs ys
    rw [renamed_append, List.length_append]
    exact Nat.le_add_right _ _
  obtain ⟨halone, htold⟩ := Scene.Run.sound hrank (fun op u => Volume.Partial.unchanged op u)
    (rotated_renames hs hp hmint) rfl hlooks hrun
  refine ⟨halone, fun i r hr => ?_⟩
  obtain ⟨rs, rfl, hseries⟩ := Program.Answers.of_series (htold i r hr)
  refine ⟨rs, rfl, ?_, ?_⟩
  · exact hseries.answered fun c hc k r l h => (hanswers c (hasks i c hc) k r l h).1
  · apply hseries.pairwise
    intro c hc d hd k r j j' r' l hfirst hsecond hjj'
    have hw := (hanswers c (hasks i c hc) k r j hfirst).2
    have hw' := (hanswers d (hasks i d hd) j' r' l hsecond).2
    exact hw.follows hw' hjj' hne

end Beside

def toyTurns : List (Scene.Turn Unit) :=
  .replicate 4 (.looks ()) ++ .replicate 25 .writes ++ .replicate 8 (.looks ()) ++ .replicate 8 .writes ++
    .replicate 4 (.looks ())

def toyAsks : Unit → List (Call toyBackend) := fun _ =>
  [.loadOrGenerate (toyMint 3 9), .loadOrGenerate (toyMint 3 9), .loadPrevious, .loadOrGenerate (toyMint 3 9)]

theorem reading_beside_rotation_toy : ∃ ls t,
    Scene.Run (posix String) (besideRotation settledDir (toyMint 2 8) toyAsks) ls t ∧
      (t.lookers ()).result = some (.ok [.ok (.node toyNodeOne), .error mismatched,
        .ok (.previous (some toyNodeOne)), .ok (.node toyNodeTwo)]) ∧
      Follows toyNodeOne toyNodeTwo (.error mismatched) (.ok (.node toyNodeTwo)) := by
  have hplay : (replay (Scene.act (posix String)) (besideRotation settledDir (toyMint 2 8) toyAsks) toyTurns).map
      (fun t => (t.lookers ()).result) = some (some (.ok [.ok (.node toyNodeOne), .error mismatched,
        .ok (.previous (some toyNodeOne)), .ok (.node toyNodeTwo)])) := by decide +kernel
  obtain ⟨t, ht, hresult⟩ := Option.map_eq_some_iff.mp hplay
  obtain ⟨ls, _, hacts⟩ := History.of_replay ht
  have hrun : Scene.Run (posix String) (besideRotation settledDir (toyMint 2 8) toyAsks) ls t :=
    hacts.mono fun _ _ _ => Scene.act_step
  obtain ⟨_, hsettled⟩ := @run_settled noLoss
  have hp : Holds toyBackend settledDir currentSlot toyNodeOne := loadSlot_ok_iff.mp (by decide +kernel)
  have hfree : settledDir.contents certFilePrev = none ∧ settledDir.contents keyFilePrev = none := by
    decide +kernel
  have hmint : NodeCert.generateSigned toyBackend (toyMint 2 8) = .ok toyNodeTwo := by decide +kernel
  obtain ⟨_, htold⟩ := reading_beside_rotation toy_keysReadBack (run_wf emptyDir_vacant.wf hsettled) hp hfree
    hmint (by decide) (by simp [toyAsks, Call.Asks]) hrun
  obtain ⟨rs, hrs, _, hfollows⟩ := htold () _ hresult
  cases hrs
  refine ⟨ls, t, hrun, hresult, ?_⟩
  exact List.rel_of_pairwise_cons (List.Pairwise.of_cons hfollows) (by simp)

end DigTls
