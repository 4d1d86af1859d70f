import DigTls.Store.SlotWrites
import Mathlib.Tactic.IntervalCases

/-! # The outcomes of a call on the directory

`CallLeaves` lists what a call may leave behind, cut short or not: how far it got with its
file changes, and what it answered if it answered. Everything later is derived from it.
-/
namespace DigTls
open EffectPrograms PosixVolume
variable {B : Backend}

def freshWrites (x : NodeCert) : List SlotWrite :=
  [⟨certFile, asBytes x.certPem, .no⟩, ⟨keyFile, asBytes x.keyPem, .yes⟩]

def rotationWrites (p x : NodeCert) : List SlotWrite :=
  [⟨certFilePrev, asBytes p.certPem, .no⟩, ⟨keyFilePrev, asBytes p.keyPem, .yes⟩,
    ⟨certFile, asBytes x.certPem, .no⟩, ⟨keyFile, asBytes x.keyPem, .yes⟩]

theorem persistFresh_eq (x : NodeCert) : persistFresh .unix x =
    createDirAll >>= fun _ => hardenDirPermissions .unix >>= fun _ =>
      writeSlots (freshWrites x) >>= fun _ => .done x := by
  simp [persistFresh, writeCert, writeKey, freshWrites, writeSlots, Program.bind_assoc']

theorem persistRotation_eq (p x : NodeCert) : persistRotation .unix p x =
    hardenDirPermissions .unix >>= fun _ =>
      writeSlots (rotationWrites p x) >>= fun _ => .done ⟨p, x⟩ := by
  simp [persistRotation, writeCert, writeKey, rotationWrites, writeSlots, Program.bind_assoc']

/-- The four files after the first `k` writes of a minting call. -/
structure FreshStage (x : NodeCert) (k : ℕ) (s t : Volume String) : Prop where
  cert : t.contents certFile = if 1 ≤ k then some (asBytes x.certPem) else s.contents certFile
  key : t.contents keyFile = if 2 ≤ k then some (asBytes x.keyPem) else s.contents keyFile
  prevCert : t.contents certFilePrev = s.contents certFilePrev
  prevKey : t.contents keyFilePrev = s.contents keyFilePrev

/-- The four files after the first `k` writes of a rotation. -/
structure RotationStage (p x : NodeCert) (k : ℕ) (s t : Volume String) : Prop where
  prevCert : t.contents certFilePrev = if 1 ≤ k then some (asBytes p.certPem) else s.contents certFilePrev
  prevKey : t.contents keyFilePrev = if 2 ≤ k then some (asBytes p.keyPem) else s.contents keyFilePrev
  cert : t.contents certFile = if 3 ≤ k then some (asBytes x.certPem) else s.contents certFile
  key : t.contents keyFile = if 4 ≤ k then some (asBytes x.keyPem) else s.contents keyFile

/-- The four files after the first `k` deletions of a retirement; a file that was not there
counts as deleted. -/
structure RetireStage (k : ℕ) (s t : Volume String) : Prop where
  cert : t.contents certFile = s.contents certFile
  key : t.contents keyFile = s.contents keyFile
  prevKey : t.contents keyFilePrev = if 1 ≤ k then none else s.contents keyFilePrev
  prevCert : t.contents certFilePrev = if 2 ≤ k then none else s.contents certFilePrev

theorem FreshStage.of_same {x : NodeCert} {k : ℕ} {s s' t : Volume String} (h : FreshStage x k s' t)
    (hsame : ∀ q, s'.contents q = s.contents q) : FreshStage x k s t :=
  ⟨by rw [h.cert, hsame], by rw [h.key, hsame], by rw [h.prevCert, hsame], by rw [h.prevKey, hsame]⟩

theorem RotationStage.of_same {p x : NodeCert} {k : ℕ} {s s' t : Volume String}
    (h : RotationStage p x k s' t) (hsame : ∀ q, s'.contents q = s.contents q) :
    RotationStage p x k s t :=
  ⟨by rw [h.prevCert, hsame], by rw [h.prevKey, hsame], by rw [h.cert, hsame], by rw [h.key, hsame]⟩

theorem freshWrites_slots (x : NodeCert) : ∀ w ∈ freshWrites x, w.path ∈ slotFiles := by
  simp [freshWrites, slotFiles]

theorem rotationWrites_slots (p x : NodeCert) : ∀ w ∈ rotationWrites p x, w.path ∈ slotFiles := by
  simp [rotationWrites, slotFiles]

theorem freshWrites_nodup (x : NodeCert) : ((freshWrites x).map SlotWrite.path).Nodup := by
  change [certFile, keyFile].Nodup
  decide

theorem rotationWrites_nodup (p x : NodeCert) : ((rotationWrites p x).map SlotWrite.path).Nodup := by
  change [certFilePrev, keyFilePrev, certFile, keyFile].Nodup
  decide

theorem freshStage_of_patch {x : NodeCert} {k : ℕ} (hk : k ≤ 2) {s t : Volume String}
    (h : ∀ q ∈ slotFiles, t.contents q = patch s.contents ((freshWrites x).take k) q) :
    FreshStage x k s t := by
  have hcert := h certFile (by decide)
  have hkey := h keyFile (by decide)
  have hprevCert := h certFilePrev (by decide)
  have hprevKey := h keyFilePrev (by decide)
  constructor
  all_goals
    interval_cases k <;>
    simp_all [freshWrites, patch, Function.update_apply, certFile, keyFile, certFilePrev, keyFilePrev]

theorem rotationStage_of_patch {p x : NodeCert} {k : ℕ} (hk : k ≤ 4) {s t : Volume String}
    (h : ∀ q ∈ slotFiles, t.contents q = patch s.contents ((rotationWrites p x).take k) q) :
    RotationStage p x k s t := by
  have hcert := h certFile (by decide)
  have hkey := h keyFile (by decide)
  have hprevCert := h certFilePrev (by decide)
  have hprevKey := h keyFilePrev (by decide)
  constructor
  all_goals
    interval_cases k <;>
    simp_all [rotationWrites, patch, Function.update_apply, certFile, keyFile, certFilePrev, keyFilePrev]

/-- What a call may leave: the files put in place, its answer if it gave one, the state. -/
inductive CallLeaves (B : Backend) (s : Volume String) :
    Call B → List String → Option (Except DigTlsError Reply) → Volume String → Prop
  | loaded {m : NodeCert.Minting B} {o : Option (Except DigTlsError Reply)} {t : Volume String}
      (wf : t.Wf) (same : ∀ q ∈ slotFiles, t.contents q = s.contents q)
      (answer : ∀ r, o = some (.ok r) → ∃ node, r = .node node ∧ Holds B s currentSlot node) :
      CallLeaves B s (.loadOrGenerate m) [] o t
  | minted {m : NodeCert.Minting B} {x : NodeCert} {k : ℕ} {o : Option (Except DigTlsError Reply)}
      {t : Volume String} (wf : t.Wf) (vacant : s.contents certFile = none ∨ s.contents keyFile = none)
      (mint : NodeCert.generateSigned B m = .ok x) (bound : k ≤ 2) (stage : FreshStage x k s t)
      (errors : IoOnly o) (answer : ∀ r, o = some (.ok r) → r = .node x ∧ k = 2) :
      CallLeaves B s (.loadOrGenerate m) ([certFile, keyFile].take k) o t
  | refused {m : NodeCert.Minting B} {o : Option (Except DigTlsError Reply)} {t : Volume String}
      (wf : t.Wf) (same : ∀ q ∈ slotFiles, t.contents q = s.contents q)
      (answer : ∀ r, o ≠ some (.ok r)) : CallLeaves B s (.rotate m) [] o t
  | rotated {m : NodeCert.Minting B} {p x : NodeCert} {k : ℕ} {o : Option (Except DigTlsError Reply)}
      {t : Volume String} (wf : t.Wf) (holds : Holds B s currentSlot p)
      (free : s.contents certFilePrev = none ∧ s.contents keyFilePrev = none)
      (mint : NodeCert.generateSigned B m = .ok x) (bound : k ≤ 4) (stage : RotationStage p x k s t)
      (errors : IoOnly o) (answer : ∀ r, o = some (.ok r) → r = .rotated ⟨p, x⟩ ∧ k = 4)
      (tidy : (∃ r, o = some (.ok r)) → Synced t ∧ ∀ d ∈ slotFiles, t.contents (tmpPath d) = none) :
      CallLeaves B s (.rotate m) ([certFilePrev, keyFilePrev, certFile, keyFile].take k) o t
  | previous {o : Option (Except DigTlsError Reply)} {t : Volume String}
      (wf : t.Wf) (same : ∀ q ∈ slotFiles, t.contents q = s.contents q)
      (answer : ∀ r, o = some (.ok r) → ∃ node, r = .previous node ∧
        ∀ n, node = some n → Holds B s prevSlot n) : CallLeaves B s .loadPrevious [] o t
  | retired {k : ℕ} {o : Option (Except DigTlsError Reply)} {t : Volume String}
      (wf : t.Wf) (bound : k ≤ 2) (stage : RetireStage k s t)
      (answer : ∀ r, o = some (.ok r) → r = .retired ∧ k = 2) : CallLeaves B s .retirePrevious [] o t

/-- What minting a first identity leaves: nothing, or some first part of its two writes. -/
inductive FreshLeaves (m : NodeCert.Minting B) (s : Volume String) :
    List String → Option (Except DigTlsError NodeCert) → Volume String → Prop
  | kept {o : Option (Except DigTlsError NodeCert)} {t : Volume String} (wf : t.Wf)
      (same : ∀ q, t.contents q = s.contents q) (unanswered : ∀ x, o ≠ some (.ok x)) : FreshLeaves m s [] o t
  | wrote {x : NodeCert} {k : ℕ} {o : Option (Except DigTlsError NodeCert)} {t : Volume String} (wf : t.Wf)
      (mint : NodeCert.generateSigned B m = .ok x) (bound : k ≤ 2) (stage : FreshStage x k s t)
      (errors : IoOnly o) (answer : ∀ y, o = some (.ok y) → y = x ∧ k = 2) :
      FreshLeaves m s ([certFile, keyFile].take k) o t

/-- What a rotation that has found `p` leaves: nothing, or some first part of its four writes. -/
inductive RotationLeaves (p : NodeCert) (m : NodeCert.Minting B) (s : Volume String) :
    List String → Option (Except DigTlsError RotatedNodeCert) → Volume String → Prop
  | kept {o : Option (Except DigTlsError RotatedNodeCert)} {t : Volume String} (wf : t.Wf)
      (same : ∀ q, t.contents q = s.contents q) (unanswered : ∀ r, o ≠ some (.ok r)) : RotationLeaves p m s [] o t
  | wrote {x : NodeCert} {k : ℕ} {o : Option (Except DigTlsError RotatedNodeCert)} {t : Volume String} (wf : t.Wf)
      (mint : NodeCert.generateSigned B m = .ok x) (bound : k ≤ 4) (stage : RotationStage p x k s t)
      (errors : IoOnly o) (answer : ∀ r, o = some (.ok r) → r = ⟨p, x⟩ ∧ k = 4)
      (tidy : (∃ r, o = some (.ok r)) → Synced t ∧ ∀ d ∈ slotFiles, t.contents (tmpPath d) = none) :
      RotationLeaves p m s ([certFilePrev, keyFilePrev, certFile, keyFile].take k) o t

section Calls
variable {s : Volume String}

theorem results_mintFresh (hs : s.Wf) (m : NodeCert.Minting B) :
    Results (.ofExcept (NodeCert.generateSigned B m) >>= fun node => persistFresh .unix node) s
      (FreshLeaves m s) := by
  cases hx : NodeCert.generateSigned B m with
  | error e => exact Ensures.raise (.kept hs (fun _ => rfl) (by simp))
  | ok x =>
    change Results (persistFresh .unix x) s _
    rw [persistFresh_eq]
    refine (quiet_createDirAll hs).bind_results (fun _ t ht hsame => ?_)
      fun o t ht hsame _ hno => .kept ht hsame hno
    refine (quiet_setDirPermissions ht _).bind_results (fun _ u hu hsame' => ?_)
      fun o u hu hsame' _ hno => .kept hu (fun q => (hsame' q).trans (hsame q)) hno
    refine Results.map ((results_writeSlots (freshWrites_slots x) hu).mono ?_)
    rintro ds o v ⟨hv, hio, _, k, hk, rfl, hpatch, hall⟩
    have hstage := (freshStage_of_patch hk hpatch).of_same fun q => (hsame' q).trans (hsame q)
    rw [List.map_take]
    refine .wrote hv hx hk hstage (hio.map _) fun y hy => ?_
    obtain ⟨b, hb, rfl⟩ := map_eq_ok.mp hy
    exact ⟨rfl, (hall ⟨b, hb⟩).1⟩

theorem results_mintRotation (hs : s.Wf) (p : NodeCert) (m : NodeCert.Minting B) :
    Results (.ofExcept (NodeCert.generateSigned B m) >>= fun x => persistRotation .unix p x) s
      (RotationLeaves p m s) := by
  cases hx : NodeCert.generateSigned B m with
  | error e => exact Ensures.raise (.kept hs (fun _ => rfl) (by simp))
  | ok x =>
    change Results (persistRotation .unix p x) s _
    rw [persistRotation_eq]
    refine (quiet_setDirPermissions hs _).bind_results (fun _ t ht hsame => ?_)
      fun o t ht hsame _ hno => .kept ht hsame hno
    refine Results.map ((results_writeSlots (rotationWrites_slots p x) ht).mono ?_)
    rintro ds o u ⟨hu, hio, _, k, hk, rfl, hpatch, hall⟩
    have hstage := (rotationStage_of_patch hk hpatch).of_same hsame
    rw [List.map_take]
    refine .wrote hu hx hk hstage (hio.map _) ?_ ?_
    · intro r hr
      obtain ⟨b, hb, rfl⟩ := map_eq_ok.mp hr
      exact ⟨rfl, (hall ⟨b, hb⟩).1⟩
    · rintro ⟨r, hr⟩
      obtain ⟨b, hb, _⟩ := map_eq_ok.mp hr
      obtain ⟨_, htidy⟩ := hall ⟨b, hb⟩
      refine ⟨htidy.synced.resolve_right (by simp [rotationWrites]), fun d hd => ?_⟩
      have hwritten : ∃ w ∈ rotationWrites p x, w.path = d := by
        simpa [rotationWrites, slotFiles, or_comm, or_left_comm, or_assoc, eq_comm] using hd
      obtain ⟨w, hw, rfl⟩ := hwritten
      exact htidy.unstaged w hw

theorem results_loadOrGenerate (hs : s.Wf) (m : NodeCert.Minting B) :
    Results ((Call.loadOrGenerate m).program .unix) s (CallLeaves B s (.loadOrGenerate m)) := by
  have kept : ∀ (o : Option (Except DigTlsError NodeCert)) t, t.Wf →
      (∀ q, t.contents q = s.contents q) → (∀ b, o ≠ some (.ok b)) →
      CallLeaves B s (.loadOrGenerate m) [] (o.map (Except.map .node)) t := by
    intro o t hwf hsame hno
    refine .loaded hwf (fun q _ => hsame q) fun r hr => ?_
    obtain ⟨a, ha, _⟩ := map_eq_ok.mp hr
    exact absurd ha (hno a)
  refine Results.map (reads_bothExist.bind ?_ (fun e => kept (some (.error e)) s hs (fun _ => rfl) (by simp))
    (kept none s hs (fun _ => rfl) (by simp)))
  intro b hb
  cases b with
  | true =>
    apply Results.mono reads_loadSlot
    rintro ds o t ⟨rfl, rfl, hholds⟩
    refine .loaded hs (fun _ _ => rfl) fun r hr => ?_
    obtain ⟨node, rfl, rfl⟩ := map_eq_ok.mp hr
    exact ⟨node, rfl, hholds node rfl⟩
  | false =>
    have hvacant : s.contents certFile = none ∨ s.contents keyFile = none := by
      have hboth := hb.symm
      simp only [Bool.and_eq_false_iff, Option.isSome_eq_false_iff, Option.isNone_iff_eq_none] at hboth
      exact hboth
    apply Results.mono (results_mintFresh hs m)
    intro ds o t hleaves
    cases hleaves with
    | kept wf same unanswered => exact kept o t wf same unanswered
    | wrote wf mint bound stage errors answer =>
      refine .minted wf hvacant mint bound stage (errors.map _) fun r hr => ?_
      obtain ⟨node, hnode, rfl⟩ := map_eq_ok.mp hr
      obtain ⟨rfl, hk⟩ := answer node hnode
      exact ⟨rfl, hk⟩

theorem results_rotate (hs : s.Wf) (m : NodeCert.Minting B) :
    Results ((Call.rotate m).program .unix) s (CallLeaves B s (.rotate m)) := by
  have kept : ∀ (o : Option (Except DigTlsError RotatedNodeCert)) t, t.Wf →
      (∀ q, t.contents q = s.contents q) → (∀ b, o ≠ some (.ok b)) →
      CallLeaves B s (.rotate m) [] (o.map (Except.map .rotated)) t := by
    intro o t hwf hsame hno
    refine .refused hwf (fun q _ => hsame q) fun r hr => ?_
    obtain ⟨a, ha, _⟩ := map_eq_ok.mp hr
    exact hno a ha
  have failed : ∀ e, CallLeaves B s (.rotate m) [] ((some (.error e)).map (Except.map .rotated)) s :=
    fun e => kept (some (.error e)) s hs (fun _ => rfl) (by simp)
  have cut : CallLeaves B s (.rotate m) []
      ((none : Option (Except DigTlsError RotatedNodeCert)).map (Except.map .rotated)) s :=
    kept none s hs (fun _ => rfl) (by simp)
  refine Results.map (reads_bothExist.bind ?_ failed cut)
  intro b _
  cases b with
  | false => exact Ensures.raise (failed _)
  | true =>
    refine reads_eitherExists.bind ?_ failed cut
    intro b hb
    cases b with
    | true => exact Ensures.raise (failed _)
    | false =>
      have hfree : s.contents certFilePrev = none ∧ s.contents keyFilePrev = none := by
        have hneither := hb.symm
        simp only [Bool.or_eq_false_iff, Option.isSome_eq_false_iff, Option.isNone_iff_eq_none] at hneither
        exact hneither
      refine reads_loadSlot.bind (fun p hp => ?_) failed cut
      apply Results.mono (results_mintRotation hs p m)
      intro ds o t hleaves
      cases hleaves with
      | kept wf same unanswered => exact kept o t wf same unanswered
      | wrote wf mint bound stage errors answer tidy =>
        refine .rotated wf hp hfree mint bound stage (errors.map _) (fun r hr => ?_) fun ⟨r, hr⟩ => ?_
        · obtain ⟨pair, hpair, rfl⟩ := map_eq_ok.mp hr
          obtain ⟨rfl, hk⟩ := answer pair hpair
          exact ⟨rfl, hk⟩
        · obtain ⟨pair, hpair, _⟩ := map_eq_ok.mp hr
          exact tidy ⟨pair, hpair⟩

theorem results_loadPrevious (hs : s.Wf) :
    Results ((Call.loadPrevious (B := B)).program .unix) s (CallLeaves B s .loadPrevious) := by
  refine Results.map (Results.mono loadPrevious_reads ?_)
  rintro ds o t ⟨rfl, rfl, hanswer⟩
  refine .previous hs (fun _ _ => rfl) fun r hr => ?_
  obtain ⟨node, hnode, rfl⟩ := map_eq_ok.mp hr
  refine ⟨node, rfl, ?_⟩
  rintro n rfl
  exact hanswer _ hnode

/-- One half of a retirement: the file is gone, or nothing has happened and no answer came. -/
def Dropped (path : String) (s : Volume String) (ds : List String)
    (o : Option (Except DigTlsError Unit)) (t : Volume String) : Prop :=
  ds = [] ∧ t.Wf ∧ (∀ q, q ≠ path → t.contents q = s.contents q) ∧
    (t.contents path = s.contents path ∧ (∀ b, o ≠ some (.ok b)) ∨ t.contents path = none)

theorem Dropped.nothing (hs : s.Wf) (path : String) {o : Option (Except DigTlsError Unit)}
    (hno : ∀ b, o ≠ some (.ok b)) : Dropped path s [] o s :=
  ⟨rfl, hs, fun _ _ => rfl, Or.inl ⟨rfl, hno⟩⟩

theorem results_removeFile (hs : s.Wf) {path : String} (hthere : (s.contents path).isSome) :
    Results (removeFile path) s (Dropped path s) := by
  obtain ⟨i, hi⟩ := Option.isSome_iff_exists.mp (Volume.contents_isSome ▸ hthere)
  refine Ensures.call_of_run (Volume.run_removeFile hi) ?_ ?_ ?_
  · have hap : Volume.Apart path s (s.relink path none) := .unlink hs
    refine Ensures.done ⟨rfl, hap.wf, hap.elsewhere, Or.inr ?_⟩
    rw [Volume.contents_eq_none_iff]
    exact Volume.lookup_relink_self (Volume.lookup_eq_some_iff.mp hi).1 none
  · rintro _ _ ⟨⟩
    exact Ensures.raise (.nothing hs path (by simp))
  · rintro _ ⟨⟩
    exact .nothing hs path (by simp)

theorem results_retireKey (hs : s.Wf) : Results retireKey s (Dropped keyFilePrev s) := by
  refine reads_pathExists.bind ?_ (fun e => .nothing hs _ (by simp)) (.nothing hs _ (by simp))
  intro b hb
  cases b with
  | false =>
    refine Results.done ⟨rfl, hs, fun _ _ => rfl, Or.inr ?_⟩
    simpa using hb.symm
  | true =>
    refine reads_fsRead.bind ?_ (fun e => .nothing hs _ (by simp)) (.nothing hs _ (by simp))
    exact fun _ _ => results_removeFile hs hb.symm

theorem results_retireCert (hs : s.Wf) : Results retireCert s (Dropped certFilePrev s) := by
  refine reads_pathExists.bind ?_ (fun e => .nothing hs _ (by simp)) (.nothing hs _ (by simp))
  intro b hb
  cases b with
  | false =>
    refine Results.done ⟨rfl, hs, fun _ _ => rfl, Or.inr ?_⟩
    simpa using hb.symm
  | true => exact results_removeFile hs hb.symm

theorem results_retirePrevious (hs : s.Wf) :
    Results ((Call.retirePrevious (B := B)).program .unix) s (CallLeaves B s .retirePrevious) := by
  refine Results.map (Results.bind ((results_retireKey hs).mono ?_))
  rintro ds o t ⟨rfl, ht, hother, hkey⟩
  have hcert := hother certFile (by decide)
  have hcurKey := hother keyFile (by decide)
  have hprevCert := hother certFilePrev (by decide)
  have stopped : ∀ o' : Option (Except DigTlsError Unit), (∀ b, o' ≠ some (.ok b)) →
      CallLeaves B s .retirePrevious [] (o'.map (Except.map fun _ => Reply.retired)) t := by
    intro o' hno
    have answer : ∀ r, o'.map (Except.map fun _ => Reply.retired) = some (.ok r) →
        ∀ k, r = .retired ∧ k = 2 := by
      intro r hr
      obtain ⟨b, hb, _⟩ := map_eq_ok.mp hr
      exact absurd hb (hno b)
    rcases hkey with ⟨hsame, _⟩ | hgone
    · exact .retired (k := 0) ht (by omega) ⟨hcert, hcurKey, by simpa using hsame, by simpa using hprevCert⟩
        fun r hr => answer r hr 0
    · exact .retired (k := 1) ht (by omega) ⟨hcert, hcurKey, by simpa using hgone, by simpa using hprevCert⟩
        fun r hr => answer r hr 1
  rcases o with _ | e | _
  · exact stopped none (by simp)
  · exact stopped (some (.error e)) (by simp)
  · have hgone : t.contents keyFilePrev = none := by
      rcases hkey with ⟨_, hno⟩ | hgone
      · exact absurd rfl (hno _)
      · exact hgone
    apply (results_retireCert ht).mono
    rintro ds o u ⟨rfl, hu, hother', hcertGone⟩
    have hfiles : ∀ k, 1 ≤ k → u.contents certFilePrev = (if 2 ≤ k then none else s.contents certFilePrev) →
        RetireStage k s u := by
      intro k hk hc
      refine ⟨(hother' certFile (by decide)).trans hcert, (hother' keyFile (by decide)).trans hcurKey, ?_, hc⟩
      rw [if_pos hk, hother' keyFilePrev (by decide), hgone]
    rcases hcertGone with ⟨hsame, hno⟩ | hnone
    · refine .retired (k := 1) hu (by omega) (hfiles 1 le_rfl (hsame.trans hprevCert)) fun r hr => ?_
      obtain ⟨b, hb, _⟩ := map_eq_ok.mp hr
      exact absurd hb (hno b)
    · refine .retired (k := 2) hu le_rfl (hfiles 2 (by omega) hnone) fun r hr => ?_
      obtain ⟨b, _, rfl⟩ := map_eq_ok.mp hr
      exact ⟨rfl, rfl⟩

/-- Whatever happens to a call from a well-formed volume is one of the listed outcomes. -/
theorem call_leaves {c : Call B} {trace : List (Op String)} {o : Option (Except DigTlsError Reply)}
    {t : Volume String} (hs : s.Wf) (h : Outcome (posix String) (c.program .unix) s trace o t) :
    CallLeaves B s c (renamed trace) o t := by
  cases c with
  | loadOrGenerate m => exact results_loadOrGenerate hs m _ _ _ h
  | rotate m => exact results_rotate hs m _ _ _ h
  | loadPrevious => exact results_loadPrevious hs _ _ _ h
  | retirePrevious => exact results_retirePrevious hs _ _ _ h

theorem CallLeaves.wf {c : Call B} {ds : List String} {o : Option (Except DigTlsError Reply)}
    {t : Volume String} (h : CallLeaves B s c ds o t) : t.Wf := by
  cases h <;> assumption

end Calls

end DigTls
