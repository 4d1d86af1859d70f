import DigTls.Store.Rotation
import DigTls.Store.Veiled

/-! # An identity survives until it is retired

A rotation refuses to start while it sees a file of the previous slot, copies the current pair
before it replaces anything, and nothing but a retirement deletes a slot file. So an identity
that is whole in the current slot stays whole in one of the two slots, unless an existence test
fails that would have found it: a load that misses the current pair mints over it.
-/
namespace DigTls
open EffectPrograms PosixVolume
variable {B : Backend} {hidden : Set String} {s t : Volume String} {p : NodeCert}

/-- The identity is whole in the current slot or in the previous one. -/
def Kept (B : Backend) (p : NodeCert) (s : Volume String) : Prop :=
  Holds B s currentSlot p ∨ Holds B s prevSlot p

/-- A call, and the names whose existence tests may fail in it. It may end or be cut short in `t`. -/
def VeiledStep (s : Volume String) (l : Call B × Set String) (t : Volume String) : Prop :=
  ∃ trace o, Outcome (veiled l.2) (l.1.program .unix) s trace o t

/-- The call sees what keeps it from overwriting the identity, or it writes to the other slot: a load
sees the current pair, and a rotation one of the files of the previous slot. -/
def Sees (B : Backend) (p : NodeCert) (s : Volume String) : Call B × Set String → Prop
  | (.loadOrGenerate _, hidden) => (certFile ∉ hidden ∧ keyFile ∉ hidden) ∨ Holds B s prevSlot p
  | (.rotate _, hidden) => (certFilePrev ∉ hidden ∨ keyFilePrev ∉ hidden) ∨ Holds B s currentSlot p
  | (.loadPrevious, _) | (.retirePrevious, _) => True

theorem Kept.of_same (h : Kept B p s) (hsame : ∀ q, t.contents q = s.contents q) : Kept B p t :=
  h.imp (fun h => h.congr (hsame _) (hsame _)) fun h => h.congr (hsame _) (hsame _)

theorem kept_load (hs : s.Wf) (h : Kept B p s) {m : NodeCert.Minting B}
    (hsees : Sees B p s (.loadOrGenerate m, hidden)) :
    Gives (veiled hidden) (Kept B p) (loadOrGenerate .unix m) s fun _ _ => True := by
  refine (looking_bothExist currentSlot).gives h fun both hboth => ?_
  cases both with
  | true => exact ((looking_loadSlot currentSlot).keeps h).mono fun _ _ _ _ => trivial
  | false =>
    have hprev : Holds B s prevSlot p := by
      rcases hsees with ⟨hcert, hkey⟩ | hprev
      · have hvacant : s.contents certFile = none ∨ s.contents keyFile = none :=
          hboth.imp (Or.resolve_right · hcert) (Or.resolve_right · hkey)
        exact h.resolve_left fun hcur => hcur.not_vacant hvacant
      · exact hprev
    have huntested : Untested (.ofExcept (NodeCert.generateSigned B m) >>= fun node => persistFresh .unix node) :=
      (untested_ofExcept _).bind untested_persistFresh
    refine (huntested.ensures hidden (results_mintFresh hs m)).mono fun trace o t hleaves => ⟨?_, fun _ _ => trivial⟩
    generalize renamed trace = ds at hleaves
    cases hleaves with
    | kept _ same _ => exact h.of_same same
    | wrote _ _ _ stage _ _ => exact Or.inr (hprev.congr stage.prevCert stage.prevKey)

theorem kept_rotate (hs : s.Wf) (h : Kept B p s) {m : NodeCert.Minting B}
    (hsees : Sees B p s (.rotate m, hidden)) :
    Gives (veiled hidden) (Kept B p) (rotate .unix m) s fun _ _ => True := by
  refine (looking_bothExist currentSlot).gives h fun both _ => ?_
  cases both with
  | false => exact Gives.raise h
  | true =>
    refine (looking_eitherExists prevSlot).gives h fun either heither => ?_
    cases either with
    | true => exact Gives.raise h
    | false =>
      have hcur : Holds B s currentSlot p := by
        rcases hsees with hseen | hcur
        · have hvacant : s.contents certFilePrev = none ∨ s.contents keyFilePrev = none :=
            hseen.imp heither.1.resolve_right heither.2.resolve_right
          exact h.resolve_right fun hprev => hprev.not_vacant hvacant
        · exact hcur
      refine (looking_loadSlot currentSlot).gives h fun y hy => ?_
      obtain rfl := hy.unique hcur
      have huntested : Untested (.ofExcept (NodeCert.generateSigned B m) >>= fun x => persistRotation .unix y x) :=
        (untested_ofExcept _).bind fun x => untested_persistRotation y x
      refine (huntested.ensures hidden (results_mintRotation hs y m)).mono fun trace o t hleaves =>
        ⟨?_, fun _ _ => trivial⟩
      generalize renamed trace = ds at hleaves
      cases hleaves with
      | kept _ same _ => exact h.of_same same
      | @wrote x k _ _ _ _ _ stage _ _ _ =>
        rcases Nat.lt_or_ge k 2 with hlt | hge
        · exact Or.inl (stage.current_before (by omega) hy)
        · exact Or.inr (stage.previous hge hy)

theorem kept_loadPrevious (h : Kept B p s) :
    Gives (veiled hidden) (Kept B p) (loadPrevious B) s fun _ _ => True := by
  refine (looking_bothExist prevSlot).gives h fun both _ => ?_
  cases both with
  | true => exact (looking_loadSlot prevSlot).gives h fun _ _ => Gives.done h trivial
  | false => exact Gives.done h trivial

/-- No call but a retirement takes the identity out of both slots, if it sees it. -/
theorem kept_step {l : Call B × Set String} (hs : s.Wf) (h : Kept B p s) (hstep : VeiledStep s l t)
    (hl : l.1 ≠ .retirePrevious ∧ Sees B p s l) : Kept B p t := by
  obtain ⟨c, hidden⟩ := l
  obtain ⟨hc, hsees⟩ := hl
  obtain ⟨trace, o, ho⟩ := hstep
  have hgives : Gives (veiled hidden) (Kept B p) (c.program .unix) s fun _ _ => True := by
    cases c with
    | loadOrGenerate m => exact (kept_load hs h hsees).bind fun _ _ ht _ => Gives.done ht trivial
    | rotate m => exact (kept_rotate hs h hsees).bind fun _ _ ht _ => Gives.done ht trivial
    | loadPrevious => exact (kept_loadPrevious h).bind fun _ _ ht _ => Gives.done ht trivial
    | retirePrevious => exact absurd rfl hc
  exact (hgives trace o t ho).1

theorem Kept.returned (h : Kept B p s) (m : NodeCert.Minting B) :
    (exec (posix String) (loadOrGenerate .unix m) s).1 = .ok p ∨
      (exec (posix String) (loadPrevious B) s).1 = .ok (some p) := by
  rcases h with h | h
  · exact Or.inl (by rw [exec_loadOrGenerate h])
  · exact Or.inr (by rw [exec_loadPrevious h])

/-- An identity whole in the current slot of a reachable state is byte for byte whole in one of
the slots in every later state, calls cut short at any step included, and loading returns it,
as long as there is no retirement and no failing test hides it from a call that would overwrite it. -/
theorem identity_kept_while_seen {s₀ : Volume String} {before ls : List (Volume String × Call B × Set String)}
    (hvacant : Vacant s₀) (hreach : History VeiledStep s₀ before s) (hp : Holds B s currentSlot p)
    (hrun : History VeiledStep s ls t) (hls : ∀ x ∈ ls, x.2.1 ≠ .retirePrevious)
    (hsees : ∀ x ∈ ls, Sees B p x.1 x.2) (m : NodeCert.Minting B) :
    ∀ u, u = t ∨ u ∈ ls.map Prod.fst → Kept B p u ∧
      ((exec (posix String) (loadOrGenerate .unix m) u).1 = .ok p ∨
        (exec (posix String) (loadPrevious B) u).1 = .ok (some p)) := by
  have hwf : ∀ (u : Volume String) (l : Call B × Set String) v, u.Wf → VeiledStep u l v → v.Wf := by
    rintro u l v hu ⟨trace, o, ho⟩
    exact wf_veiled hu ho
  have hs : s.Wf := hreach.invariant (C := fun _ _ => True) hvacant.wf (fun _ _ => trivial) fun u l v _ => hwf u l v
  obtain ⟨hstates, ht⟩ := hrun.everywhere (I := fun u => u.Wf ∧ Kept B p u) ⟨hs, Or.inl hp⟩
    (fun x hx => ⟨hls x hx, hsees x hx⟩)
    fun u l v hl hu hstep => ⟨hwf u l v hu.1 hstep, kept_step hu.1 hu.2 hstep hl⟩
  have hkept : ∀ u, u = t ∨ u ∈ ls.map Prod.fst → Kept B p u := by
    rintro u (rfl | hu)
    · exact ht.2
    · obtain ⟨x, hx, rfl⟩ := List.mem_map.mp hu
      exact (hstates x hx).2
  exact fun u hu => ⟨hkept u hu, (hkept u hu).returned m⟩

def toyNodeOne : NodeCert := ⟨"c\x01", "k\x01", [1], [1], [1], ⟨List.Vector.replicate 32 1⟩⟩
def toyNodeTwo : NodeCert := ⟨"c\x02", "k\x02", [2], [2], [2], ⟨List.Vector.replicate 32 2⟩⟩

theorem settledDir_holds : Holds toyBackend settledDir currentSlot toyNodeOne :=
  loadSlot_ok_iff.mp (by decide +kernel)

theorem reach_settled : History (VeiledStep (B := toyBackend)) emptyDir
    [(emptyDir, (.loadOrGenerate (toyMint 1 7), ∅))] settledDir := by
  obtain ⟨trace, ho⟩ := outcome_exec (M := posix String) ((Call.loadOrGenerate (toyMint 1 7)).program .unix) emptyDir
  exact .single ⟨trace, _, veiled_none.mpr ho⟩

/-- What a load answers and leaves that misses the current pair. -/
def overwritten (m : NodeCert.Minting toyBackend) (s : Volume String) : Except DigTlsError NodeCert × Volume String :=
  exec (posix String) (.ofExcept (NodeCert.generateSigned toyBackend m) >>= fun node => persistFresh .unix node) s

/-- A load that sees the certificate and misses the key mints over both. -/
theorem missed_overwrites (hidden : Set String) {m : NodeCert.Minting toyBackend} {x : NodeCert}
    (hcert : (s.contents certFile).isSome) (hkey : keyFile ∈ hidden) (hx : (overwritten m s).1 = .ok x) :
    ∃ trace, Outcome (veiled hidden) ((Call.loadOrGenerate m).program .unix) s trace (some (.ok (.node x)))
      (overwritten m s).2 := by
  obtain ⟨trace, ho⟩ := outcome_exec (M := posix String)
    (.ofExcept (NodeCert.generateSigned toyBackend m) >>= fun node => persistFresh .unix node) s
  have hmissed : Outcome (veiled hidden) (bothExist currentSlot) s [.pathExists certFile] (some (.ok false)) s := by
    refine Outcome.step ?_
    change Outcome _ (if (s.lookup certFile).isSome = true then pathExists keyFile else .done false) s _ _ _
    rw [← Volume.contents_isSome, hcert]
    exact .fault (.unseen hkey s) (.done false s)
  change Outcome _ _ s trace (some (overwritten m s).1) (overwritten m s).2 at ho
  rw [hx] at ho
  have hload : Outcome (veiled hidden) (loadOrGenerate .unix m) s _ _ _ := hmissed.bind (veiled_outcome hidden ho)
  exact ⟨_, hload.bind (.done (Reply.node x) _)⟩

/-- Both tests see their files, and in one load the test for the key fails: the load answers with a
second identity, and neither slot holds the first one any more. -/
theorem missed_identity_overwritten : ∃ ls t trace x, Vacant emptyDir ∧
    History (VeiledStep (B := toyBackend)) emptyDir ls settledDir ∧
    Holds toyBackend settledDir currentSlot toyNodeOne ∧
    Outcome (veiled {keyFile}) ((Call.loadOrGenerate (toyMint 2 8)).program .unix) settledDir trace
      (some (.ok (.node x))) t ∧ x ≠ toyNodeOne ∧ ¬ Kept toyBackend toyNodeOne t ∧
    (exec (posix String) (loadOrGenerate .unix (toyMint 3 9)) t).1 ≠ .ok toyNodeOne ∧
    (exec (posix String) (loadPrevious toyBackend) t).1 ≠ .ok (some toyNodeOne) := by
  have hminted : (overwritten (toyMint 2 8) settledDir).1 =
      .ok toyNodeTwo := by decide +kernel
  have hload : (exec (posix String) (loadOrGenerate .unix (toyMint 3 9)) (overwritten (toyMint 2 8) settledDir).2).1 ≠
      .ok toyNodeOne := by decide +kernel
  have hprevious : (exec (posix String) (loadPrevious toyBackend) (overwritten (toyMint 2 8) settledDir).2).1 ≠
      .ok (some toyNodeOne) := by decide +kernel
  obtain ⟨trace, ho⟩ := missed_overwrites {keyFile} (by decide +kernel) rfl hminted
  refine ⟨_, _, trace, _, emptyDir_vacant, reach_settled, settledDir_holds, ho, by decide, fun hkept => ?_, hload,
    hprevious⟩
  exact (hkept.returned (toyMint 3 9)).elim hload hprevious

/-- A rotation cut between its renames onto the current pair, and then a load that misses that pair
and mints over it: the first identity is in the previous slot. -/
theorem identity_kept_while_seen_torn : ∃ ls t, History (VeiledStep (B := toyBackend)) settledDir ls t ∧
    ls.map (fun x => x.2.2) = [∅, Set.univ] ∧ Kept toyBackend toyNodeOne t := by
  have hstate : (cut 25 (.rotate (toyMint 2 8)) settledDir).map (fun r =>
      ((exec (posix String) (loadSlot toyBackend prevSlot) r.2).1, (r.2.contents certFile).isSome,
        (overwritten (toyMint 3 9) r.2).1)) =
      some (.ok toyNodeOne, true, .ok ⟨"c\x03", "k\x03", [3], [3], [3], ⟨List.Vector.replicate 32 3⟩⟩) := by
    decide +kernel
  obtain ⟨⟨trace, u⟩, hcut, hleft⟩ := Option.map_eq_some_iff.mp hstate
  simp only [Prod.mk.injEq] at hleft
  obtain ⟨hprev, hcert, hminted⟩ := hleft
  obtain ⟨later, ho⟩ := missed_overwrites Set.univ hcert (Set.mem_univ _) hminted
  have hrotate : VeiledStep settledDir (.rotate (toyMint 2 8), ∅) u :=
    ⟨trace, none, veiled_none.mpr (outcome_cutAfter Volume.Partial.unchanged hcut)⟩
  have hrun : History (VeiledStep (B := toyBackend)) settledDir _ (overwritten (toyMint 3 9) u).2 :=
    (History.single hrotate).snoc (l := (.loadOrGenerate (toyMint 3 9), Set.univ)) ⟨later, _, ho⟩
  have hkept := identity_kept_while_seen emptyDir_vacant reach_settled settledDir_holds hrun (by simp)
    (by simp [Sees, settledDir_holds, loadSlot_ok_iff.mp hprev]) (toyMint 4 6) _ (Or.inl rfl)
  exact ⟨_, _, hrun, rfl, hkept.1⟩

end DigTls
