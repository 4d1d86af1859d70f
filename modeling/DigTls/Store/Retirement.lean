import DigTls.Store.Confinement
import DigTls.Store.Survival

/-! # Retirement against loss of power

A retirement deletes the two previous files and does not sync the directory, so until some
later slot write has synced it a loss of power may bring the retired key back. Once the
directory has been synced the key is gone for good.
-/
namespace DigTls
open EffectPrograms PosixVolume Volume
variable {B : Backend} {secret : Bytes} {s t : Volume String}

def used : Set String := {q | q ∈ directoryFiles}

/-- The names a retiring key is not kept under. -/
def usedElsewhere : Set String := {q | q ∈ directoryFiles ∧ q ≠ keyFilePrev}

theorem usedElsewhere_subset : usedElsewhere ⊆ used := fun _ h => h.1

theorem mem_directoryFiles {q : String} :
    q ∈ directoryFiles ↔ q ∈ slotFiles ∨ ∃ d ∈ slotFiles, tmpPath d = q := by
  simp [directoryFiles]

theorem tmpPath_mem : ∀ d ∈ slotFiles, tmpPath d ∈ usedElsewhere := by
  intro d hd
  refine ⟨mem_directoryFiles.mpr (Or.inr ⟨d, hd, rfl⟩), ?_⟩
  exact (tmpPath_not_slot d hd keyFilePrev (by decide)).symm

/-- What a loss of power may give back to the name of the retiring key does not contain the
secret. -/
def DeletionSynced (secret : Bytes) (s : Volume String) : Prop :=
  ∀ i, some i ∈ s.past keyFilePrev → ¬ secret <:+: (s.inode i).data

/-- The secret is nowhere but under the name of the retiring key, where it is listed as seen. -/
def Hidden (secret : Bytes) (seen : Set String) (s : Volume String) : Prop :=
  s.Tracked ∧ Confined secret seen usedElsewhere s

theorem Hidden.step {seen : Set String} {e : Event B} (hsub : usedElsewhere ⊆ seen) (hsecret : secret ≠ [])
    (h : Hidden secret seen s) (hstep : Step EntryLoss s e t) (hspares : e.Spares secret)
    (hsynced : e = .powerLoss → Confined secret seen seen s) : Hidden secret seen t := by
  cases hstep with
  | call ho =>
    refine ⟨h.1.outcome ho, ?_⟩
    have hkeeps := keeps_call hsub hsecret (hsub ⟨by decide, by decide⟩) (hsub ⟨by decide, by decide⟩)
      (fun d hd => hsub (tmpPath_mem d hd)) _ hspares
    exact (hkeeps s h.2 _ _ _ ho).1
  | powerLoss hloss => exact ⟨hloss.tracked h.1, (hsynced rfl).entryLoss hloss⟩

/-- Before the retirement a loss of power can only bring the secret back where it was. -/
theorem Hidden.run_before {ls : List (Volume String × Event B)} (hsecret : secret ≠ [])
    (h : Hidden secret usedElsewhere s) (hrun : Run B EntryLoss s ls t)
    (hspares : ∀ x ∈ ls, x.2.Spares secret) : Hidden secret usedElsewhere t :=
  hrun.invariant (C := fun _ e => e.Spares secret) h hspares fun _ _ _ hc hi hstep =>
    hi.step subset_rfl hsecret hstep hc fun _ => hi.2

theorem Hidden.run_after {ls : List (Volume String × Event B)} (hsecret : secret ≠ [])
    (h : Hidden secret used s) (hrun : Run B EntryLoss s ls t) (hspares : ∀ x ∈ ls, x.2.Spares secret)
    (hsynced : ∀ x ∈ ls, x.2 = .powerLoss → DeletionSynced secret x.1) :
    (∀ x ∈ ls, Hidden secret used x.1) ∧ Hidden secret used t := by
  refine hrun.everywhere (C := fun u e => e.Spares secret ∧ (e = .powerLoss → DeletionSynced secret u)) h
    (fun x hx => ⟨hspares x hx, hsynced x hx⟩) ?_
  rintro u e v ⟨hc, hsync⟩ hu hstep
  refine hu.step usedElsewhere_subset hsecret hstep hc fun he => ⟨hu.2.entries, fun q hq i hi => ?_⟩
  by_cases hkey : q = keyFilePrev
  · subst hkey
    exact hsync he i hi
  · exact hu.2.earlier q ⟨hq, hkey⟩ i hi

/-- After a whole rotation the retiring key is in its own file only. -/
theorem RotationStage.spares {p x : NodeCert} {q : String} {data : Bytes} (h : RotationStage p x 4 s t)
    (hp : ¬ secret <:+: asBytes p.certPem) (hx : x.Spares secret) (hq : q ∈ slotFiles)
    (hne : q ≠ keyFilePrev) (hc : t.contents q = some data) : ¬ secret <:+: data := by
  have hcert : t.contents certFile = some (asBytes x.certPem) := h.cert
  have hkey : t.contents keyFile = some (asBytes x.keyPem) := h.key
  have hprev : t.contents certFilePrev = some (asBytes p.certPem) := h.prevCert
  simp only [slotFiles, List.mem_cons, List.not_mem_nil, or_false] at hq
  rcases hq with rfl | rfl | rfl | rfl
  · exact Option.some.inj (hcert.symm.trans hc) ▸ hx.1
  · exact Option.some.inj (hkey.symm.trans hc) ▸ hx.2
  · exact Option.some.inj (hprev.symm.trans hc) ▸ hp
  · exact absurd rfl hne

/-- When a rotation has answered, the retiring key is in one place, and nothing is left that a
loss of power could undo. -/
theorem hidden_of_rotation {m : NodeCert.Minting B} {trace : List (Op String)} {p x : NodeCert}
    (hs : s.Tracked) (ho : Outcome (posix String) ((Call.rotate m).program .unix) s trace
      (some (.ok (.rotated ⟨p, x⟩))) t)
    (hp : ¬ secret <:+: asBytes p.certPem) (hx : (Call.rotate m).Spares secret) :
    Hidden secret usedElsewhere t := by
  have ht := hs.outcome ho
  have hleaves := call_leaves hs.toWf ho
  generalize renamed trace = ds at hleaves
  cases hleaves with
  | refused _ _ answer => exact absurd rfl (answer _)
  | rotated _ _ _ mint _ stage _ answer tidy =>
    obtain ⟨heq, rfl⟩ := answer _ rfl
    cases heq
    obtain ⟨hsynced, hstaged⟩ := tidy ⟨_, rfl⟩
    refine ⟨ht, fun q hq i hi => ?_, fun q _ i hi => ?_⟩
    · have hpresent : t.present = true := by
        by_contra habs
        rw [Bool.not_eq_true] at habs
        simp [(ht.absent habs q).1] at hi
      have hc := contents_of_lookup (lookup_eq_some_iff.mpr ⟨hpresent, hi⟩)
      rcases mem_directoryFiles.mp hq.1 with hslot | ⟨d, hd, rfl⟩
      · exact stage.spares hp (hx m rfl x mint) hslot hq.2 hc
      · rw [hstaged d hd] at hc
        cases hc
    · simp [hsynced q] at hi

theorem hidden_of_retirement {trace : List (Op String)} (hsecret : secret ≠ [])
    (h : Hidden secret usedElsewhere s)
    (hstep : Step EntryLoss s (.call (Call.retirePrevious (B := B)) trace (some (.ok .retired))) t) :
    Hidden secret used t := by
  obtain ⟨ht, hconf⟩ := h.step subset_rfl hsecret hstep (fun m hm => by cases hm) (by simp)
  refine ⟨ht, fun q hq i hi => ?_, hconf.earlier⟩
  by_cases hkey : q = keyFilePrev
  · subst hkey
    have hgone : t.contents keyFilePrev = none := by
      cases hstep with
      | call ho =>
        have hleaves := call_leaves h.1.toWf ho
        generalize renamed trace = ds at hleaves
        cases hleaves with
        | retired _ _ stage answer =>
          obtain ⟨_, rfl⟩ := answer _ rfl
          exact stage.prevKey
    rw [ht.entry_none hgone] at hi
    cases hi
  · exact hconf.entries q ⟨hq, hkey⟩ i hi

/-- No file the operations use contains the secret, and no load returns this identity as the
previous one. -/
structure Gone (B : Backend) (secret : Bytes) (p : NodeCert) (s : Volume String) : Prop where
  files : ∀ q ∈ directoryFiles, ∀ data, s.contents q = some data → ¬ secret <:+: data
  unloadable : ∀ trace t, ¬ Outcome (posix String) ((Call.loadPrevious (B := B)).program .unix) s trace
    (some (.ok (.previous (some p)))) t

theorem Hidden.gone {p : NodeCert} (h : Hidden secret used s) (hp : secret <:+: asBytes p.keyPem) :
    Gone B secret p s := by
  refine ⟨fun q hq data hc => h.2.contents hq hc, fun trace t ho => ?_⟩
  have hleaves := call_leaves h.1.toWf ho
  generalize renamed trace = ds at hleaves
  cases hleaves with
  | previous _ _ answer =>
    obtain ⟨node, hnode, hholds⟩ := answer _ rfl
    cases hnode
    have hkey : s.contents keyFilePrev = some (asBytes p.keyPem) := (hholds p rfl).key
    have hused : keyFilePrev ∈ directoryFiles := by decide
    exact h.2.contents hused hkey hp

theorem run_keeps_tracked {loss : Volume String → Volume String → Prop} {ls : List (Volume String × Event B)}
    (hs : s.Tracked) (hloss : ∀ u v, loss u v → u.Tracked → v.Tracked) (hrun : Run B loss s ls t) : t.Tracked := by
  refine hrun.invariant (C := fun _ _ => True) hs (fun _ _ => trivial) fun u e v _ hu hstep => ?_
  cases hstep with
  | call ho => exact hu.outcome ho
  | powerLoss h => exact hloss u v h hu

theorem run_tracked {ls : List (Volume String × Event B)} (hs : s.Tracked) (hrun : Run B EntryLoss s ls t) :
    t.Tracked := run_keeps_tracked hs (fun _ _ h => h.tracked) hrun

/-- After a rotation away from `p` and a retirement, `p` and every telling part of its key are
gone for good, whatever happens before, between and after, as long as no power is lost while the
deletion waits for a sync. -/
theorem retired_identity_gone {s₀ s₁ s₂ s₃ s₄ t : Volume String}
    {before mid after : List (Volume String × Event B)} {m : NodeCert.Minting B}
    {trace trace' : List (Op String)} {p x : NodeCert} (hs : s₀.Tracked)
    (hbefore : Run B EntryLoss s₀ before s₁)
    (hrotate : Step EntryLoss s₁ (.call (.rotate m) trace (some (.ok (.rotated ⟨p, x⟩)))) s₂)
    (hmid : Run B EntryLoss s₂ mid s₃)
    (hretire : Step EntryLoss s₃ (.call (Call.retirePrevious (B := B)) trace' (some (.ok .retired))) s₄)
    (hafter : Run B EntryLoss s₄ after t) (hkey : secret <:+: asBytes p.keyPem)
    (hcert : ¬ secret <:+: asBytes p.certPem) (hx : (Call.rotate m).Spares secret)
    (hspares : ∀ y ∈ mid ++ after, y.2.Spares secret)
    (hsynced : ∀ y ∈ after, y.2 = .powerLoss → DeletionSynced secret y.1) :
    ∀ u, u = t ∨ u ∈ after.map Prod.fst → Gone B secret p u := by
  have hsecret : secret ≠ [] := by
    rintro rfl
    exact hcert List.nil_infix
  have hrotated : Hidden secret usedElsewhere s₂ := by
    cases hrotate with
    | call ho => exact hidden_of_rotation (run_tracked hs hbefore) ho hcert hx
  have hwaiting := hrotated.run_before hsecret hmid fun y hy => hspares y (List.mem_append_left _ hy)
  have hretired := hidden_of_retirement hsecret hwaiting hretire
  obtain ⟨hstates, ht⟩ := hretired.run_after hsecret hafter
    (fun y hy => hspares y (List.mem_append_right _ hy)) hsynced
  rintro u (rfl | hu)
  · exact ht.gone hkey
  · obtain ⟨y, hy, rfl⟩ := List.mem_map.mp hu
    exact (hstates y hy).gone hkey

theorem keeps_undoable_removeFile {s₀ : Volume String} (path : String) :
    Keeps (posix String) (Undoable s₀) (removeFile path) fun _ => True := by
  refine Keeps.call (fun s hs => hs.removeFile path) ?_ ?_ keeps_orFail
  · rintro s _ _ ⟨⟩
    exact id
  · rintro s _ ⟨⟩
    exact id

/-- Whatever a retirement has done, a loss of power right after it may bring back every file
that was there before. -/
theorem retirement_undone {trace : List (Op String)} {o : Option (Except DigTlsError Reply)}
    (hs : s.Tracked)
    (ho : Outcome (posix String) ((Call.retirePrevious (B := B)).program .unix) s trace o t) :
    EntryLoss t { s with anchored := s.made, past := fun _ => [] } := by
  have hkeeps : Keeps (posix String) (Undoable s) ((Call.retirePrevious (B := B)).program .unix)
      fun _ => True :=
    Keeps.bind (keeps_retirePrevious fun path _ => keeps_undoable_removeFile path) fun _ _ => Keeps.done trivial
  exact (hkeeps s (Undoable.refl s) _ _ _ ho).1.entryLoss hs

theorem emptyDir_tracked : emptyDir.Tracked := ⟨emptyDir_vacant.wf, by simp [emptyDir], by simp [emptyDir], le_rfl⟩

def rotatedDir : Volume String := (complete (.rotate (toyMint 2 8)) settledDir).2

def retiredDir : Volume String := (complete .retirePrevious rotatedDir).2

theorem rotatedDir_answer :
    (complete (.rotate (toyMint 2 8)) settledDir).1 = .ok (.rotated ⟨toyNodeOne, toyNodeTwo⟩) := by
  decide +kernel

theorem retiredDir_answer : (complete .retirePrevious rotatedDir).1 = .ok .retired := by decide +kernel

theorem retirement_undone_by_power_loss : ∃ before trace trace' t,
    Run toyBackend EntryLoss emptyDir before settledDir ∧
    Step EntryLoss settledDir
      (.call (.rotate (toyMint 2 8)) trace (some (.ok (.rotated ⟨toyNodeOne, toyNodeTwo⟩)))) rotatedDir ∧
    Step EntryLoss rotatedDir
      (.call (Call.retirePrevious (B := toyBackend)) trace' (some (.ok .retired))) retiredDir ∧
    EntryLoss retiredDir t ∧ t.contents keyFilePrev = some (asBytes toyNodeOne.keyPem) ∧
    (complete .loadPrevious t).1 = .ok (.previous (some toyNodeOne)) := by
  obtain ⟨trace₀, hload⟩ := @run_settled EntryLoss
  obtain ⟨trace, hrotate⟩ := @step_complete EntryLoss (.rotate (toyMint 2 8)) settledDir
  obtain ⟨trace', hretire⟩ := outcome_exec (M := posix String)
    ((Call.retirePrevious (B := toyBackend)).program .unix) rotatedDir
  have htracked : rotatedDir.Tracked := run_tracked emptyDir_tracked (hload.append (.single hrotate))
  refine ⟨_, trace, trace', _, hload, ?_, ?_, retirement_undone htracked hretire, ?_, ?_⟩
  · exact rotatedDir_answer ▸ hrotate
  · exact retiredDir_answer ▸ Step.call hretire
  · decide +kernel
  · decide +kernel

def rotatedAgain : Volume String := (complete (.rotate (toyMint 3 9)) retiredDir).2

theorem toyMint_spares {key sk : UInt8} (node : NodeCert)
    (hmint : NodeCert.generateSigned toyBackend (toyMint key sk) = .ok node)
    (hnode : node.Spares [107, 1]) : (Call.rotate (toyMint key sk)).Spares [107, 1] := by
  rintro m ⟨⟩ x hx
  rw [hmint] at hx
  exact Except.ok.inj hx ▸ hnode

/-- The retired toy identity after one more rotation, which syncs the directory, and a loss of
power. -/
theorem retired_identity_gone_rotated :
    Gone toyBackend [107, 1] toyNodeOne
      { rotatedAgain with anchored := rotatedAgain.made, past := fun _ => [] } := by
  obtain ⟨trace₀, hload⟩ := @run_settled EntryLoss
  obtain ⟨trace, hrotate⟩ := @step_complete EntryLoss (.rotate (toyMint 2 8)) settledDir
  obtain ⟨trace', hretire⟩ := @step_complete EntryLoss .retirePrevious rotatedDir
  obtain ⟨trace'', hagain⟩ := @step_complete EntryLoss (.rotate (toyMint 3 9)) retiredDir
  have hbefore := hload.append (.single hrotate)
  have htracked := run_tracked emptyDir_tracked ((hbefore.append (.single hretire)).append (.single hagain))
  have hloss : EntryLoss rotatedAgain { rotatedAgain with anchored := rotatedAgain.made, past := fun _ => [] } :=
    (Undoable.refl _).entryLoss htracked
  have hafter : Run toyBackend EntryLoss retiredDir
      [(retiredDir, .call (.rotate (toyMint 3 9)) trace'' (some (complete (.rotate (toyMint 3 9)) retiredDir).1)),
        (rotatedAgain, .powerLoss)] { rotatedAgain with anchored := rotatedAgain.made, past := fun _ => [] } :=
    (History.single hagain).append (.single (.powerLoss hloss))
  have hpast : rotatedAgain.past keyFilePrev = [] := by decide +kernel
  have hsynced : DeletionSynced [107, 1] rotatedAgain := by
    intro i hi
    rw [hpast] at hi
    cases hi
  rw [rotatedDir_answer] at hrotate
  rw [retiredDir_answer] at hretire
  refine retired_identity_gone emptyDir_tracked hload hrotate (.start _) hretire hafter ?_ ?_ ?_ ?_ ?_
    _ (Or.inl rfl)
  · decide +kernel
  · decide +kernel
  · exact toyMint_spares toyNodeTwo (by decide +kernel) ⟨by decide +kernel, by decide +kernel⟩
  · refine List.forall_mem_cons.mpr ⟨?_, List.forall_mem_singleton.mpr trivial⟩
    exact toyMint_spares ⟨"c\x03", "k\x03", [3], [3], [3], ⟨List.Vector.replicate 32 3⟩⟩
      (by decide +kernel) ⟨by decide +kernel, by decide +kernel⟩
  · refine List.forall_mem_cons.mpr ⟨fun he => ?_, ?_⟩
    · cases he
    · refine List.forall_mem_singleton.mpr fun _ => ?_
      dsimp only
      exact hsynced

end DigTls
