import DigTls.Store.Runs
import DigTls.Peer.ToyBackend

/-! # Rotation against crashes

Each of the four writes of a rotation is atomic, the rotation is not: the current pair is
replaced file by file. As long as no rotation is cut between those two renames, the current
slot holds a whole identity at all times, the one before the last interrupted rotation or the
one it minted, and deleting the previous slot costs nothing.
-/
namespace DigTls
open EffectPrograms PosixVolume
variable {B : Backend}

/-- The identities a load may return after this event, given those it could return before: the
one an answer told of, or, when a rotation was interrupted, the one current before it and the
one it minted. -/
def expectedAfter (known : List NodeCert) : Volume String × Event B → List NodeCert
  | (u, .call c _ o) =>
    match o, c with
    | some (.ok r), _ => r.current.elim known fun x => [x]
    | none, .rotate m | some (.error (.io _)), .rotate m =>
      (currentIdentity B u).toList ++ (NodeCert.generateSigned B m).toOption.toList
    | _, _ => known
  | (_, .powerLoss) => known

def expected (ls : List (Volume String × Event B)) : List NodeCert := ls.foldl expectedAfter []

/-- Some call has answered with a current identity. -/
def Settled (ls : List (Volume String × Event B)) : Prop :=
  ∃ x ∈ ls, ∃ c trace r node, x.2 = .call c trace (some (.ok r)) ∧ r.current = some node

section Events
variable {ls : List (Volume String × Event B)} {s : Volume String} {c : Call B}
  {trace : List (Op String)} {o : Option (Except DigTlsError Reply)} {r : Reply} {node : NodeCert}

theorem answered_or (o : Option (Except DigTlsError Reply)) :
    (∃ r, o = some (.ok r)) ∨ ∀ r, o ≠ some (.ok r) := by
  rcases o with _ | e | r
  · exact Or.inr (by simp)
  · exact Or.inr (by simp)
  · exact Or.inl ⟨r, rfl⟩

theorem expected_snoc (x : Volume String × Event B) :
    expected (ls ++ [x]) = expectedAfter (expected ls) x := by
  simp [expected]

theorem expected_answer (h : r.current = some node) :
    expected (ls ++ [(s, .call c trace (some (.ok r)))]) = [node] := by
  rw [expected_snoc]
  simp [expectedAfter, h]

theorem expected_other (h : r.current = none) :
    expected (ls ++ [(s, .call c trace (some (.ok r)))]) = expected ls := by
  rw [expected_snoc]
  simp [expectedAfter, h]

theorem expected_unanswered (hno : ∀ r, o ≠ some (.ok r)) (hc : ∀ m, c ≠ .rotate m) :
    expected (ls ++ [(s, .call c trace o)]) = expected ls := by
  rw [expected_snoc]
  rcases o with _ | e | r
  · cases c <;> simp_all [expectedAfter]
  · cases c <;> cases e <;> simp_all [expectedAfter]
  · exact absurd rfl (hno r)

/-- An interrupted rotation leaves the identity current before it expected. -/
theorem mem_expected_rotate {m : NodeCert.Minting B} (hno : ∀ r, o ≠ some (.ok r))
    (hhold : Holds B s currentSlot node) (hmem : Settled ls → node ∈ expected ls) :
    Settled ls → node ∈ expected (ls ++ [(s, .call (.rotate m) trace o)]) := by
  intro hset
  have hcur := currentIdentity_of_holds hhold
  rw [expected_snoc]
  rcases o with _ | e | r
  · simp [expectedAfter, hcur]
  · cases e <;> simp_all [expectedAfter]
  · exact absurd rfl (hno r)

/-- An interrupted rotation makes the identity it minted expected. -/
theorem minted_mem_expected {m : NodeCert.Minting B} (hno : ∀ r, o ≠ some (.ok r)) (hio : IoOnly o)
    (hmint : NodeCert.generateSigned B m = .ok node) :
    node ∈ expected (ls ++ [(s, .call (.rotate m) trace o)]) := by
  rw [expected_snoc]
  rcases o with _ | e | r
  · simp [expectedAfter, hmint, Except.toOption]
  · obtain ⟨i, rfl⟩ := hio e rfl
    simp [expectedAfter, hmint, Except.toOption]
  · exact absurd rfl (hno r)

theorem settled_snoc {x : Volume String × Event B} : Settled (ls ++ [x]) ↔ Settled ls ∨
    ∃ c trace r node, x.2 = .call c trace (some (.ok r)) ∧ r.current = some node := by
  simp [Settled, or_and_right, exists_or]

theorem settled_unanswered (hno : ∀ r node, o = some (.ok r) → r.current ≠ some node) :
    Settled (ls ++ [(s, .call c trace o)]) ↔ Settled ls := by
  rw [settled_snoc]
  constructor
  · rintro (h | ⟨_, _, r, node, heq, hr⟩)
    · exact h
    · cases heq
      exact absurd hr (hno r node rfl)
  · exact Or.inl

end Events

/-- Either no identity was ever settled and nothing but a lone certificate is there, or the
current slot holds a whole identity, an expected one once one has been settled. -/
def Standing (ls : List (Volume String × Event B)) (t : Volume String) : Prop :=
  (t.contents keyFile = none ∧ t.contents certFilePrev = none ∧ t.contents keyFilePrev = none ∧
    ¬ Settled ls) ∨
  ∃ x, Holds B t currentSlot x ∧ (Settled ls → x ∈ expected ls)

section Standing
variable {ls : List (Volume String × Event B)} {s t : Volume String} {c : Call B}
  {trace : List (Op String)} {o : Option (Except DigTlsError Reply)}

theorem Standing.same (h : Standing ls s) (hsame : ∀ q ∈ slotFiles, t.contents q = s.contents q)
    (hset : Settled (ls ++ [(s, .call c trace o)]) ↔ Settled ls)
    (hexp : ∀ x, Holds B s currentSlot x → (Settled ls → x ∈ expected ls) → Settled ls →
      x ∈ expected (ls ++ [(s, .call c trace o)])) : Standing (ls ++ [(s, .call c trace o)]) t := by
  rcases h with ⟨hkey, hprevCert, hprevKey, hno⟩ | ⟨x, hx, hmem⟩
  · refine Or.inl ⟨?_, ?_, ?_, hset.not.mpr hno⟩
    · rw [hsame keyFile (by decide), hkey]
    · rw [hsame certFilePrev (by decide), hprevCert]
    · rw [hsame keyFilePrev (by decide), hprevKey]
  · refine Or.inr ⟨x, hx.of_same (by decide) hsame, ?_⟩
    rw [hset]
    exact hexp x hx hmem

theorem Standing.of_answer {x : NodeCert} {r : Reply} (hx : Holds B t currentSlot x)
    (hr : r.current = some x) : Standing (ls ++ [(s, .call c trace (some (.ok r)))]) t :=
  Or.inr ⟨x, hx, fun _ => by rw [expected_answer hr]; exact List.mem_singleton_self x⟩

theorem standing_call (hread : KeysReadBack B) (h : Standing ls s)
    (hleaves : CallLeaves B s c (renamed trace) o t)
    (hwhole : ¬ (Event.call c trace o).Torn) : Standing (ls ++ [(s, .call c trace o)]) t := by
  generalize hds : renamed trace = ds at hleaves
  cases hleaves with
  | loaded wf same answer =>
    rcases answered_or o with ⟨r, rfl⟩ | hok
    · obtain ⟨node, rfl, hnode⟩ := answer r rfl
      exact Standing.of_answer (hnode.of_same (by decide) same) rfl
    · refine h.same same (settled_unanswered fun r _ hr => absurd hr (hok r)) fun x _ hmem hset => ?_
      rw [expected_unanswered hok (by simp)]
      exact hmem hset
  | @minted m x k _ _ wf vacant mint bound stage errors answer =>
    have hgen := NodeCert.fromPem_generated hread mint
    rcases h with ⟨hkey, hprevCert, hprevKey, hno⟩ | ⟨y, hy, _⟩
    · by_cases hk : k = 2
      · subst hk
        have hx : Holds B t currentSlot x := ⟨stage.cert, stage.key, hgen⟩
        rcases answered_or o with ⟨r, rfl⟩ | hok
        · obtain ⟨rfl, _⟩ := answer r rfl
          exact Standing.of_answer hx rfl
        · refine Or.inr ⟨x, hx, fun hset => ?_⟩
          exact absurd ((settled_unanswered fun r _ hr => absurd hr (hok r)).mp hset) hno
      · have hunanswered : ∀ r, o ≠ some (.ok r) := fun r hr => hk (answer r hr).2
        refine Or.inl ⟨?_, stage.prevCert.trans hprevCert, stage.prevKey.trans hprevKey, ?_⟩
        · rw [stage.key, if_neg (by omega), hkey]
        · rwa [settled_unanswered fun r _ hr => absurd hr (hunanswered r)]
    · exact absurd vacant hy.not_vacant
  | refused wf same answer =>
    exact h.same same (settled_unanswered fun r _ hr => absurd hr (answer r))
      fun x hx hmem => mem_expected_rotate answer hx hmem
  | @rotated m p x k _ _ wf holds free mint bound stage errors answer _ =>
    have hk : k ≠ 3 := by
      intro hk
      exact hwhole (by rw [Event.Torn, hds]; exact (torn_stage bound).mpr hk)
    have hgen := NodeCert.fromPem_generated hread mint
    rcases h with ⟨hkey, _⟩ | ⟨y, hy, hmem⟩
    · exact absurd (Or.inr hkey) holds.not_vacant
    · obtain rfl := holds.unique hy
      rcases answered_or o with ⟨r, rfl⟩ | hok
      · obtain ⟨rfl, rfl⟩ := answer r rfl
        exact Standing.of_answer (stage.current_after le_rfl hgen) rfl
      · have hset : Settled (ls ++ [(s, .call (.rotate m) trace o)]) ↔ Settled ls :=
          settled_unanswered fun r _ hr => absurd hr (hok r)
        rcases Nat.lt_or_ge k 3 with hlt | hge
        · refine Or.inr ⟨p, stage.current_before (by omega) holds, ?_⟩
          rw [hset]
          exact mem_expected_rotate hok holds hmem
        · exact Or.inr ⟨x, stage.current_after (by omega) hgen,
            fun _ => minted_mem_expected hok errors mint⟩
  | previous wf same answer =>
    rcases answered_or o with ⟨r, rfl⟩ | hok
    · obtain ⟨node, rfl, _⟩ := answer r rfl
      refine h.same same (settled_unanswered fun r _ hr => by cases hr; simp [Reply.current]) ?_
      intro x _ hmem hset
      rw [expected_other rfl]
      exact hmem hset
    · refine h.same same (settled_unanswered fun r _ hr => absurd hr (hok r)) fun x _ hmem hset => ?_
      rw [expected_unanswered hok (by simp)]
      exact hmem hset
  | @retired k _ _ wf bound stage answer =>
    have hset : Settled (ls ++ [(s, .call .retirePrevious trace o)]) ↔ Settled ls := by
      refine settled_unanswered fun r node hr => ?_
      obtain ⟨rfl, _⟩ := answer r hr
      simp [Reply.current]
    rcases h with ⟨hkey, hprevCert, hprevKey, hno⟩ | ⟨x, hx, hmem⟩
    · refine Or.inl ⟨stage.key.trans hkey, ?_, ?_, hset.not.mpr hno⟩
      · rw [stage.prevCert]
        split_ifs <;> simp [hprevCert]
      · rw [stage.prevKey]
        split_ifs <;> simp [hprevKey]
    · refine Or.inr ⟨x, stage.current hx, ?_⟩
      rw [hset]
      intro hs
      rcases answered_or o with ⟨r, rfl⟩ | hok
      · obtain ⟨rfl, _⟩ := answer r rfl
        rw [expected_other rfl]
        exact hmem hs
      · rw [expected_unanswered hok (by simp)]
        exact hmem hs

end Standing

theorem run_standing (hread : KeysReadBack B) {s t : Volume String}
    {ls : List (Volume String × Event B)} (hvacant : Vacant s) (hrun : Run B noLoss s ls t)
    (hwhole : ∀ x ∈ ls, ¬ x.2.Torn) : Standing ls t := by
  induction hrun with
  | start =>
    exact Or.inl ⟨hvacant.contents _, hvacant.contents _, hvacant.contents _, by simp [Settled]⟩
  | @snoc t u ls e before last ih =>
    have hstanding := ih fun x hx => hwhole x (List.mem_append_left _ hx)
    have hlast := hwhole (t, e) (by simp)
    cases last with
    | call h => exact standing_call hread hstanding (call_leaves (run_wf hvacant.wf before) h) hlast
    | powerLoss h => exact h.elim

/-- While no rotation is cut between its two renames onto the current pair, an uninterrupted
load after any settled run returns an identity, and it is an expected one. -/
theorem load_returns_expected (hread : KeysReadBack B) {s t : Volume String}
    {ls : List (Volume String × Event B)} (hvacant : Vacant s) (hrun : Run B noLoss s ls t)
    (hsettled : Settled ls) (hwhole : ∀ x ∈ ls, ¬ x.2.Torn) (m : NodeCert.Minting B) :
    ∃ x ∈ expected ls, (exec (posix String) (loadOrGenerate .unix m) t).1 = .ok x := by
  rcases run_standing hread hvacant hrun hwhole with ⟨_, _, _, hno⟩ | ⟨x, hx, hmem⟩
  · exact absurd hsettled hno
  · exact ⟨x, hmem hsettled, by rw [exec_loadOrGenerate hx]⟩

def emptyDir : Volume String where
  depth := 1
  made := 1
  anchored := 1
  dirMode := 0o755#12
  umask := 0o022#12
  entry _ := none
  past _ := []
  inode _ := ⟨[], 0, false⟩
  next := 0

theorem toy_keysReadBack : KeysReadBack toyBackend := toy_keyPairFromPem

theorem emptyDir_vacant : Vacant emptyDir := fun _ => rfl

def toyMint (key sk : UInt8) : NodeCert.Minting toyBackend := ⟨sk, .ok key, 0⟩

def complete (c : Call toyBackend) (s : Volume String) : Except DigTlsError Reply × Volume String :=
  exec (posix String) (c.program .unix) s

theorem step_complete {loss : Volume String → Volume String → Prop} (c : Call toyBackend)
    (s : Volume String) :
    ∃ trace, Step loss s (.call c trace (some (complete c s).1)) (complete c s).2 := by
  obtain ⟨trace, h⟩ := outcome_exec (M := posix String) (c.program .unix) s
  exact ⟨trace, .call h⟩

def cut (n : ℕ) (c : Call toyBackend) (s : Volume String) : Option (List (Op String) × Volume String) :=
  cutAfter (posix String) n (c.program .unix) s

theorem step_cut {n : ℕ} {c : Call toyBackend} {s t : Volume String} {trace : List (Op String)}
    (h : cut n c s = some (trace, t)) : Step noLoss s (.call c trace none) t :=
  .call (outcome_cutAfter Volume.Partial.unchanged h)

def settledDir : Volume String := (complete (.loadOrGenerate (toyMint 1 7)) emptyDir).2

theorem settledDir_answer : ∃ node,
    (complete (.loadOrGenerate (toyMint 1 7)) emptyDir).1 = .ok (.node node) ∧ node.keyPem = "k\x01" := by
  refine ⟨⟨"c\x01", "k\x01", [1], [1], [1], ⟨List.Vector.replicate 32 1⟩⟩, ?_, rfl⟩
  decide +kernel

theorem torn_rotation_state : (cut 25 (.rotate (toyMint 2 8)) settledDir).map (fun r => (renamed r.1,
      (exec (posix String) (loadOrGenerate .unix (toyMint 3 9)) r.2).1,
      (exec (posix String) (loadSlot toyBackend prevSlot) r.2).1.isOk,
      (exec (posix String) (loadSlot toyBackend currentSlot)
        (complete .retirePrevious r.2).2).1)) =
    some ([certFilePrev, keyFilePrev, certFile],
      .error (.parse "cert/key mismatch: the certificate does not certify the supplied private key"),
      true,
      .error (.parse "cert/key mismatch: the certificate does not certify the supplied private key")) := by
  decide +kernel

theorem run_settled {loss : Volume String → Volume String → Prop} : ∃ trace, Run toyBackend loss emptyDir
    [(emptyDir, .call (.loadOrGenerate (toyMint 1 7)) trace
      (some (complete (.loadOrGenerate (toyMint 1 7)) emptyDir).1))] settledDir := by
  obtain ⟨trace, h⟩ := step_complete (.loadOrGenerate (toyMint 1 7)) emptyDir
  exact ⟨trace, .single h⟩

theorem settled_answer (trace : List (Op String)) :
    Settled [(emptyDir, Event.call (.loadOrGenerate (toyMint 1 7)) trace
      (some (complete (.loadOrGenerate (toyMint 1 7)) emptyDir).1))] := by
  obtain ⟨node, hnode, _⟩ := settledDir_answer
  refine ⟨_, List.mem_singleton_self _, .loadOrGenerate (toyMint 1 7), trace, .node node, node, ?_, rfl⟩
  rw [hnode]

theorem loadable_of_isOk {s : Volume String} {slot : Slot}
    (h : (exec (posix String) (loadSlot toyBackend slot) s).1.isOk = true) : Loadable toyBackend s slot := by
  cases hload : (exec (posix String) (loadSlot toyBackend slot) s).1 with
  | error e => simp [hload, Except.isOk, Except.toBool] at h
  | ok node => exact ⟨node, hload⟩

theorem run_torn : ∃ (ls : List (Volume String × Event toyBackend)) (t : Volume String),
    Run toyBackend noLoss emptyDir ls t ∧ Settled ls ∧
      (exec (posix String) (loadOrGenerate .unix (toyMint 3 9)) t).1 =
        .error (.parse "cert/key mismatch: the certificate does not certify the supplied private key") ∧
      Loadable toyBackend t prevSlot ∧
      ¬ Loadable toyBackend (complete .retirePrevious t).2 currentSlot := by
  obtain ⟨r, hr, hobs⟩ := Option.map_eq_some_iff.mp torn_rotation_state
  simp only [Prod.mk.injEq] at hobs
  obtain ⟨_, hload, hprev, hcur⟩ := hobs
  obtain ⟨trace, hrun⟩ := run_settled
  refine ⟨_, r.2, hrun.append (.single (step_cut hr)), ?_, hload, loadable_of_isOk hprev, ?_⟩
  · exact settled_snoc.mpr (Or.inl (settled_answer trace))
  · rintro ⟨node, hnode⟩
    rw [hcur] at hnode
    cases hnode

theorem interrupted_rotations_state : ((cut 10 (.rotate (toyMint 2 8)) settledDir).bind fun r =>
      (cut 20 (.rotate (toyMint 3 9)) r.2).map fun q =>
        (renamed r.1, renamed q.1, (exec (posix String) (loadSlot toyBackend prevSlot) q.2).1.isOk)) =
    some ([], [certFilePrev, keyFilePrev], true) := by
  decide +kernel

/-- The run of the first load and of two rotations, cut before the first rename and after the second one. -/
theorem run_interrupted : ∃ r q, cut 10 (.rotate (toyMint 2 8)) settledDir = some r ∧
    cut 20 (.rotate (toyMint 3 9)) r.2 = some q ∧ Loadable toyBackend q.2 prevSlot ∧
    ∃ ls : List (Volume String × Event toyBackend), Run toyBackend noLoss emptyDir ls q.2 ∧ Settled ls ∧
      ∀ x ∈ ls, ¬ x.2.Torn := by
  obtain ⟨r, hr, hthen⟩ := Option.bind_eq_some_iff.mp interrupted_rotations_state
  obtain ⟨q, hq, hobs⟩ := Option.map_eq_some_iff.mp hthen
  simp only [Prod.mk.injEq] at hobs
  obtain ⟨hfirst, hsecond, hprev⟩ := hobs
  obtain ⟨trace, hrun⟩ := run_settled
  have hcut := hrun.append (.single (step_cut hr))
  refine ⟨r, q, hr, hq, loadable_of_isOk hprev, _, hcut.append (.single (step_cut hq)), ?_, ?_⟩
  · exact settled_snoc.mpr (Or.inl (settled_snoc.mpr (Or.inl (settled_answer trace))))
  · intro x hx
    simp only [List.cons_append, List.nil_append, List.mem_cons, List.not_mem_nil, or_false] at hx
    rcases hx with rfl | rfl | rfl
    · exact id
    · simp [Event.Torn, hfirst]
    · simp [Event.Torn, hsecond, certFile, certFilePrev, keyFilePrev]

theorem load_returns_expected_settled : ∃ r q, cut 10 (.rotate (toyMint 2 8)) settledDir = some r ∧
    cut 20 (.rotate (toyMint 3 9)) r.2 = some q ∧
    ∃ ls : List (Volume String × Event toyBackend), Run toyBackend noLoss emptyDir ls q.2 ∧
      ∃ x ∈ expected ls, (exec (posix String) (loadOrGenerate .unix (toyMint 4 9)) q.2).1 = .ok x := by
  obtain ⟨r, q, hr, hq, _, ls, hrun, hsettled, hwhole⟩ := run_interrupted
  exact ⟨r, q, hr, hq, ls, hrun,
    load_returns_expected toy_keysReadBack emptyDir_vacant hrun hsettled hwhole (toyMint 4 9)⟩

/-- After a rotation that was cut at its third rename no load returns an identity, neither the old nor the
new one. -/
theorem torn_rotation_blocks_loading :
    ∃ (ls : List (Volume String × Event toyBackend)) (t : Volume String),
      Vacant emptyDir ∧ Run toyBackend noLoss emptyDir ls t ∧ Settled ls ∧
      ¬ ∃ x, (exec (posix String) (loadOrGenerate .unix (toyMint 3 9)) t).1 = .ok x := by
  obtain ⟨ls, t, hrun, hset, hload, _, _⟩ := run_torn
  refine ⟨ls, t, emptyDir_vacant, hrun, hset, ?_⟩
  rintro ⟨x, hx⟩
  rw [hload] at hx
  cases hx

/-- While no rotation is cut between its two renames onto the current pair, a retirement, cut
short or not, leaves a loadable current identity if any was loadable before. -/
theorem retire_keeps_identity (hread : KeysReadBack B) {s t u : Volume String}
    {ls : List (Volume String × Event B)} {trace : List (Op String)}
    {o : Option (Except DigTlsError Reply)} (hvacant : Vacant s) (hrun : Run B noLoss s ls t)
    (hwhole : ∀ x ∈ ls, ¬ x.2.Torn) (hretire : Step noLoss t (.call (B := B) .retirePrevious trace o) u)
    (hloadable : Loadable B t currentSlot ∨ Loadable B t prevSlot) : Loadable B u currentSlot := by
  cases hretire with
  | call h =>
    have hleaves := call_leaves (run_wf hvacant.wf hrun) h
    generalize renamed trace = ds at hleaves
    cases hleaves with
    | retired wf bound stage answer =>
      rcases run_standing hread hvacant hrun hwhole with ⟨hkey, hprevCert, _, _⟩ | ⟨x, hx, _⟩
      · rcases hloadable with h | h
        · obtain ⟨y, hy⟩ := loadable_iff.mp h
          exact absurd (Or.inr hkey) hy.not_vacant
        · obtain ⟨y, hy⟩ := loadable_iff.mp h
          exact absurd (Or.inl hprevCert) hy.not_vacant
      · exact loadable_iff.mpr ⟨x, stage.current hx⟩

theorem retire_keeps_identity_settled : ∃ r q, cut 10 (.rotate (toyMint 2 8)) settledDir = some r ∧
    cut 20 (.rotate (toyMint 3 9)) r.2 = some q ∧ Loadable toyBackend q.2 prevSlot ∧
    Loadable toyBackend (complete .retirePrevious q.2).2 currentSlot := by
  obtain ⟨r, q, hr, hq, hprev, ls, hrun, _, hwhole⟩ := run_interrupted
  obtain ⟨trace, hretire⟩ := step_complete .retirePrevious q.2
  exact ⟨r, q, hr, hq, hprev,
    retire_keeps_identity toy_keysReadBack emptyDir_vacant hrun hwhole hretire (Or.inr hprev)⟩

/-- After such a cut a retirement deletes the only identity left. -/
theorem torn_rotation_then_retire_loses_identity :
    ∃ (ls : List (Volume String × Event toyBackend)) (t u : Volume String) (trace : List (Op String))
      (o : Option (Except DigTlsError Reply)),
      Vacant emptyDir ∧ Run toyBackend noLoss emptyDir ls t ∧
      Step noLoss t (.call (B := toyBackend) .retirePrevious trace o) u ∧
      Loadable toyBackend t prevSlot ∧ ¬ Loadable toyBackend u currentSlot := by
  obtain ⟨ls, t, hrun, _, _, hprev, hcur⟩ := run_torn
  obtain ⟨trace, hretire⟩ := step_complete .retirePrevious t
  exact ⟨ls, t, _, trace, _, emptyDir_vacant, hrun, hretire, hprev, hcur⟩

end DigTls
