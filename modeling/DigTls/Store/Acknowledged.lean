import DigTls.Store.Durability
import DigTls.Store.Machine

/-! # An acknowledged identity against loss of power

When a first load or a rotation has answered, both files of the current slot have one version
left, the new one. Every later call but a rotation leaves it so, and then a loss of power can
only take the identity by taking the directory itself, whose own entry no call ever syncs.
-/
namespace DigTls
open EffectPrograms PosixVolume Volume
variable {B : Backend} {α : Type} {s t u : Volume String} {path : String}

/-- The current slot has one version, and it is this identity. -/
structure Stable (x : NodeCert) (s : Volume String) : Prop where
  cert : Versions certFile (· = some (asBytes x.certPem)) s
  key : Versions keyFile (· = some (asBytes x.keyPem)) s

theorem gives_tracked (hs : s.Tracked) (p : Task α) : Gives (posix String) Tracked p s fun _ _ => True :=
  fun _ _ _ h => ⟨hs.outcome h, fun _ _ => trivial⟩

theorem gives_of_reads {p : Task α} {A : α → Prop} (h : Reads s p A) (hs : s.Tracked) :
    Gives (posix String) Tracked p s fun a t => t = s ∧ A a := by
  intro trace o t ho
  obtain ⟨_, rfl, hA⟩ := h trace o t ho
  exact ⟨hs, fun a ha => ⟨rfl, hA a ha⟩⟩

theorem gives_atomicWrite (hs : s.Tracked) (dest : String) (contents : Bytes) (secret : Secret) :
    Gives (posix String) Tracked (atomicWrite .unix dest contents secret) s fun _ t =>
      Versions dest (· = some contents) t ∧
      ∀ path P, path ≠ dest → path ≠ tmpPath dest → Versions path P s → Versions path P t := by
  intro trace o t ho
  have hleaves := write_leaves hs ho
  refine ⟨hs.outcome ho, ?_⟩
  rintro ⟨⟩ rfl
  exact ⟨hleaves.answered, fun path P hd htmp hv => hleaves.other hs hv hd htmp⟩

/-- A row of slot writes that has answered: what it has written is the only version left. -/
theorem gives_writeSlots {ws : List SlotWrite} (hws : ∀ w ∈ ws, w.path ∈ slotFiles)
    (hnodup : (ws.map SlotWrite.path).Nodup) (hs : s.Tracked) :
    Gives (posix String) Tracked (writeSlots ws) s fun _ t =>
      (∀ w ∈ ws, Versions w.path (· = some w.contents) t) ∧
      ∀ path ∈ slotFiles, path ∉ ws.map SlotWrite.path → ∀ P, Versions path P s → Versions path P t := by
  induction ws generalizing s with
  | nil => exact Gives.done hs ⟨by simp, fun _ _ _ _ => id⟩
  | cons w ws ih =>
    have hw := hws w (by simp)
    obtain ⟨hfirst, hrest⟩ := List.nodup_cons.mp hnodup
    refine (gives_atomicWrite hs w.path w.contents w.secret).bind fun _ t ht ⟨hnew, hother⟩ => ?_
    refine (ih (fun v hv => hws v (List.mem_cons_of_mem _ hv)) hrest ht).mono fun _ u _ ⟨hlater, hkept⟩ => ?_
    constructor
    · intro v hv
      rcases List.mem_cons.mp hv with rfl | hv
      · exact hkept v.path hw hfirst _ hnew
      · exact hlater v hv
    · intro path hpath hnot P hold
      rw [List.map_cons, List.mem_cons, not_or] at hnot
      exact hkept path hpath hnot.2 P (hother path P hnot.1 (tmpPath_not_slot w.path hw path hpath) hold)

theorem gives_persistFresh (hs : s.Tracked) (x : NodeCert) :
    Gives (posix String) Tracked (persistFresh .unix x) s fun y t => y = x ∧ Stable x t := by
  rw [persistFresh_eq]
  refine (gives_tracked hs _).bind fun _ t ht _ => (gives_tracked ht _).bind fun _ u hu _ => ?_
  refine (gives_writeSlots (freshWrites_slots x) (freshWrites_nodup x) hu).bind fun _ v hv ⟨hnew, _⟩ => ?_
  refine Gives.done hv ⟨rfl, ?_, ?_⟩
  · exact hnew ⟨certFile, asBytes x.certPem, .no⟩ (by simp [freshWrites])
  · exact hnew ⟨keyFile, asBytes x.keyPem, .yes⟩ (by simp [freshWrites])

theorem gives_persistRotation (hs : s.Tracked) (p x : NodeCert) :
    Gives (posix String) Tracked (persistRotation .unix p x) s fun r t => r.current = x ∧ Stable x t := by
  rw [persistRotation_eq]
  refine (gives_tracked hs _).bind fun _ t ht _ => ?_
  refine (gives_writeSlots (rotationWrites_slots p x) (rotationWrites_nodup p x) ht).bind fun _ u hu ⟨hnew, _⟩ => ?_
  refine Gives.done hu ⟨rfl, ?_, ?_⟩
  · exact hnew ⟨certFile, asBytes x.certPem, .no⟩ (by simp [rotationWrites])
  · exact hnew ⟨keyFile, asBytes x.keyPem, .yes⟩ (by simp [rotationWrites])

/-- A load or a rotation that has answered with an identity it has minted. -/
theorem gives_call (hs : s.Tracked) (c : Call B)
    (hfresh : ∀ m, c = .loadOrGenerate m → s.contents certFile = none ∨ s.contents keyFile = none) :
    Gives (posix String) Tracked (c.program .unix) s fun r t => ∀ x, r.current = some x →
      Stable x t ∧ ∃ m, c.minting = some m ∧ NodeCert.generateSigned B m = .ok x := by
  cases c with
  | loadOrGenerate m =>
    refine Gives.bind (A := fun x t => Stable x t ∧ NodeCert.generateSigned B m = .ok x) ?_
      fun x t ht hx => Gives.done ht ?_
    · refine (gives_of_reads reads_bothExist hs).bind fun b t ht ⟨heq, hb⟩ => ?_
      subst heq
      have hvacant : b = false := hb.trans (both_false currentSlot (hfresh m rfl))
      subst hvacant
      change Gives _ _ (.ofExcept (NodeCert.generateSigned B m) >>= fun node => persistFresh .unix node) _ _
      cases hx : NodeCert.generateSigned B m with
      | error e => exact Gives.raise ht
      | ok x =>
        refine (gives_persistFresh ht x).mono ?_
        rintro _ u _ ⟨rfl, hstable⟩
        exact ⟨hstable, rfl⟩
    · rintro _ ⟨⟩
      exact ⟨hx.1, m, rfl, hx.2⟩
  | rotate m =>
    refine Gives.bind (A := fun r t => Stable r.current t ∧ NodeCert.generateSigned B m = .ok r.current) ?_
      fun r t ht hr => Gives.done ht ?_
    · refine (gives_of_reads reads_bothExist hs).bind fun b t ht _ => ?_
      cases b with
      | false => exact Gives.raise ht
      | true =>
        refine (gives_of_reads reads_eitherExists ht).bind fun b u hu _ => ?_
        cases b with
        | true => exact Gives.raise hu
        | false =>
          refine (gives_of_reads reads_loadSlot hu).bind fun p v hv _ => ?_
          change Gives _ _ (.ofExcept (NodeCert.generateSigned B m) >>= fun x => persistRotation .unix p x) _ _
          cases hx : NodeCert.generateSigned B m with
          | error e => exact Gives.raise hv
          | ok x =>
            refine (gives_persistRotation hv p x).mono ?_
            rintro r w _ ⟨rfl, hstable⟩
            exact ⟨hstable, rfl⟩
    · rintro _ ⟨⟩
      exact ⟨hr.1, m, rfl, hr.2⟩
  | loadPrevious => exact (gives_tracked hs _).bind fun _ t ht _ => Gives.done ht (by simp [Reply.current])
  | retirePrevious => exact (gives_tracked hs _).bind fun _ t ht _ => Gives.done ht (by simp [Reply.current])

/-- The identity is on the disk, and so is the path to it. -/
structure Secured (x : NodeCert) (s : Volume String) : Prop where
  tracked : s.Tracked
  anchored : s.Anchored
  stable : Stable x s

theorem Secured.present {x : NodeCert} (h : Secured x s) : s.present = true :=
  h.tracked.present_of_anchored h.anchored

theorem Secured.holds {x : NodeCert} (h : Secured x s)
    (hgenuine : NodeCert.fromPem B x.certPem x.keyPem = .ok x) : Holds B s currentSlot x :=
  ⟨h.stable.cert.contents h.present, h.stable.key.contents h.present, hgenuine⟩

theorem reads_loadOrGenerate (os : Platform) (m : NodeCert.Minting B) (hcert : (s.contents certFile).isSome)
    (hkey : (s.contents keyFile).isSome) :
    Reads s (loadOrGenerate os m) (Holds B s currentSlot) := by
  refine reads_bothExist.bind_reads fun b hb => ?_
  have hthere : b = true := by simp [hb, currentSlot, hcert, hkey]
  subst hthere
  exact reads_loadSlot

theorem keeps_secured_removeFile {x : NodeCert} (hpath : path ≠ certFile ∧ path ≠ keyFile) :
    Keeps (posix String) (Secured x) (removeFile path) fun _ => True := by
  refine Keeps.call (fun u hu => ?_) ?_ ?_ keeps_orFail
  · change Secured x (u.removeFile path).2
    have htracked := hu.tracked.removeFile path
    unfold Volume.removeFile at htracked ⊢
    cases hl : u.lookup path with
    | none => exact hu
    | some i =>
      rw [hl] at htracked
      exact ⟨htracked, hu.anchored, hu.stable.cert.unlink hpath.1.symm, hu.stable.key.unlink hpath.2.symm⟩
  · rintro _ _ _ ⟨⟩
    exact id
  · rintro _ _ ⟨⟩
    exact id

/-- No call but a rotation touches a current slot that is there. -/
theorem keeps_secured_call {x : NodeCert} (c : Call B) (hc : ∀ m, c ≠ .rotate m) :
    Keeps (posix String) (Secured x) (c.program .unix) fun _ => True := by
  cases c with
  | loadOrGenerate m =>
    refine Keeps.bind (A := fun _ => True) (fun u hu => ?_) fun _ _ => Keeps.done trivial
    have hcert : u.contents certFile = some (asBytes x.certPem) := hu.stable.cert.contents hu.present
    have hkey : u.contents keyFile = some (asBytes x.keyPem) := hu.stable.key.contents hu.present
    refine Ensures.mono (reads_loadOrGenerate .unix m (by simp [hcert]) (by simp [hkey])) ?_
    rintro _ o t ⟨_, rfl, _⟩
    exact ⟨hu, fun _ _ => trivial⟩
  | rotate m => exact absurd rfl (hc m)
  | loadPrevious =>
    refine Keeps.bind (A := fun _ => True) (keeps_of_reads (fun _ => loadPrevious_reads) ?_) fun _ _ =>
      Keeps.done trivial
    exact fun _ _ _ _ => trivial
  | retirePrevious =>
    refine Keeps.bind (keeps_retirePrevious fun path hpath => ?_) fun _ _ => Keeps.done trivial
    refine keeps_secured_removeFile ?_
    rcases List.mem_pair.mp hpath with rfl | rfl
    · decide
    · decide

def Event.Rotates : Event B → Prop
  | .call (.rotate _) _ _ => True
  | _ => False

theorem Secured.step {x : NodeCert} {e : Event B} (h : Secured x s) (hstep : Step PowerLoss s e t)
    (he : ¬ e.Rotates) : Secured x t := by
  cases hstep with
  | @call c trace o _ _ ho =>
    refine (keeps_secured_call c ?_ s h trace o t ho).1
    rintro m rfl
    exact he trivial
  | powerLoss hloss =>
    have hp := hloss.present h.anchored
    exact ⟨hloss.tracked h.tracked, hloss.anchored_iff.mpr hp, h.stable.cert.powerLoss hloss hp,
      h.stable.key.powerLoss hloss hp⟩

theorem anchored_step {e : Event B} (hstep : Step PowerLoss s e t) (h : s.Anchored) : t.Anchored := by
  cases hstep with
  | call ho => exact (anchored_outcome ho).mpr h
  | powerLoss hloss => exact hloss.anchored_iff.mpr (hloss.present h)

theorem run_powerLoss_tracked {ls : List (Volume String × Event B)} (hs : s.Tracked) (hrun : Run B PowerLoss s ls t) :
    t.Tracked := run_keeps_tracked hs (fun _ _ h => h.tracked) hrun

theorem run_anchored {ls : List (Volume String × Event B)} (hrun : Run B PowerLoss s ls t) (hs : s.Anchored) :
    t.Anchored :=
  hrun.invariant (C := fun _ _ => True) hs (fun _ _ => trivial) fun _ _ _ _ hu hstep => anchored_step hstep hu

/-- The directory has come through a loss of power in this run. -/
def CameThrough (s : Volume String) (ls : List (Volume String × Event B)) (t : Volume String) : Prop :=
  ∃ ks u v ms, ls = ks ++ (u, .powerLoss) :: ms ∧ Run B PowerLoss s ks u ∧ PowerLoss u v ∧ v.present = true ∧
    Run B PowerLoss v ms t

/-- No call syncs the directories that the path hangs in: it is on stable storage if it has been from the
start, or has come from there. -/
theorem run_anchored_iff {ls : List (Volume String × Event B)} (hrun : Run B PowerLoss s ls t) :
    t.Anchored ↔ s.Anchored ∨ CameThrough s ls t := by
  constructor
  · intro hanch
    induction hrun with
    | start => exact Or.inl hanch
    | @snoc w t ls e before last ih =>
      cases last with
      | call ho =>
        rcases ih ((anchored_outcome ho).mp hanch) with hs | ⟨ks, u, v, ms, rfl, hks, hloss, hv, hms⟩
        · exact Or.inl hs
        · refine Or.inr ⟨ks, u, v, ms ++ [(w, _)], ?_, hks, hloss, hv, .snoc hms (.call ho)⟩
          rw [List.append_assoc, List.cons_append]
      | powerLoss hloss =>
        exact Or.inr ⟨ls, w, t, [], rfl, before, hloss, hloss.anchored_iff.mp hanch, .start t⟩
  · rintro (hs | ⟨ks, u, v, ms, -, -, hloss, hv, hms⟩)
    · exact run_anchored hrun hs
    · exact run_anchored hms (hloss.anchored_iff.mpr hv)

/-- A loss of power leaves loading return this identity. -/
def OutlastsLoss (B : Backend) (x : NodeCert) (s : Volume String) : Prop :=
  ∀ t, PowerLoss s t → ∀ m : NodeCert.Minting B, (exec (posix String) (loadOrGenerate .unix m) t).1 = .ok x

theorem Secured.outlastsLoss {x : NodeCert} (h : Secured x s)
    (hgenuine : NodeCert.fromPem B x.certPem x.keyPem = .ok x) : OutlastsLoss B x s := by
  intro t hloss m
  have hlost : Secured x t := h.step (e := (.powerLoss : Event B)) (.powerLoss hloss) id
  rw [exec_loadOrGenerate (hlost.holds hgenuine) m]

/-- Where the directory may be lost a load may come to mint in its place, and its minting may fail. -/
theorem OutlastsLoss.anchored {x : NodeCert} (h : OutlastsLoss B x s) (hs : s.Tracked) (m : NodeCert.Minting B) :
    s.Anchored := by
  by_contra hgone
  obtain ⟨t, hloss, habsent⟩ := powerLoss_vanish hs hgone
  have hvacant : t.contents certFile = none := by
    rw [contents_eq_none_iff]
    simp [lookup, habsent]
  have hfail := h t hloss ⟨m.blsSk, .error "", m.now⟩
  rw [load_vacant_answer _ (Or.inl hvacant)] at hfail
  obtain ⟨key, hkey, _⟩ := NodeCert.generateSigned_ok hfail
  cases hkey

/-- A first load or a rotation has answered with the current identity `x`. While no rotation is
started, a loss of power at any later moment leaves loading return `x`, exactly if the directory's
whole path was on stable storage to begin with, or has come from there since; and as long as no
power is lost, the one moment tells as much as all of them. -/
theorem acknowledged_identity_durable (hread : KeysReadBack B) {s₀ s₁ s₂ s₃ : Volume String}
    {before after : List (Volume String × Event B)} {c : Call B} {trace : List (Op String)} {r : Reply}
    {x : NodeCert} (hs : s₀.Tracked) (hbefore : Run B PowerLoss s₀ before s₁)
    (hack : Step PowerLoss s₁ (.call c trace (some (.ok r))) s₂) (hx : r.current = some x)
    (hfresh : ∀ m, c = .loadOrGenerate m → s₁.contents certFile = none ∨ s₁.contents keyFile = none)
    (hafter : Run B PowerLoss s₂ after s₃) (hrotate : ∀ y ∈ after, ¬ y.2.Rotates) :
    ((∀ u, u = s₃ ∨ u ∈ after.map Prod.fst → OutlastsLoss B x u) ↔ s₀.Anchored ∨ CameThrough s₀ before s₁) ∧
    ((∀ y ∈ after, y.2 ≠ .powerLoss) → (OutlastsLoss B x s₃ ↔ s₀.Anchored ∨ CameThrough s₀ before s₁)) := by
  have hs₁ := run_powerLoss_tracked hs hbefore
  obtain ⟨ho⟩ := hack
  have hanch₂ : s₂.Anchored ↔ s₀.Anchored ∨ CameThrough s₀ before s₁ :=
    (anchored_outcome ho).trans (run_anchored_iff hbefore)
  obtain ⟨hs₂, hgives⟩ := gives_call hs₁ c hfresh trace _ s₂ ho
  obtain ⟨hstable, m₀, _, hmint⟩ := hgives r rfl x hx
  have hgenuine := NodeCert.fromPem_generated hread hmint
  have hsecured : s₂.Anchored → (∀ y ∈ after, Secured x y.1) ∧ Secured x s₃ := fun hanch =>
    hafter.everywhere (C := fun _ e => ¬ e.Rotates) ⟨hs₂, hanch, hstable⟩ hrotate
      fun u e v he hu hstep => hu.step hstep he
  rw [← hanch₂]
  constructor
  · constructor
    · intro hall
      exact (hall s₂ hafter.first).anchored hs₂ m₀
    · rintro hanch u (rfl | hu)
      · exact (hsecured hanch).2.outlastsLoss hgenuine
      · obtain ⟨y, hy, rfl⟩ := List.mem_map.mp hu
        exact ((hsecured hanch).1 y hy).outlastsLoss hgenuine
  · intro hpower
    constructor
    · intro hload
      rcases (run_anchored_iff hafter).mp (hload.anchored (run_powerLoss_tracked hs₂ hafter) m₀) with
        hanch | ⟨ks, u, v, ms, rfl, _⟩
      · exact hanch
      · exact absurd rfl (hpower (u, .powerLoss) (by simp))
    · exact fun hanch => (hsecured hanch).2.outlastsLoss hgenuine

theorem acknowledged_identity_durable_settled :
    (complete (.loadOrGenerate (toyMint 1 7)) emptyDir).1 = .ok (.node toyNodeOne) ∧
    ∀ t, PowerLoss settledDir t → ∀ m : NodeCert.Minting toyBackend,
      (exec (posix String) (loadOrGenerate .unix m) t).1 = .ok toyNodeOne := by
  have hanswer : (complete (.loadOrGenerate (toyMint 1 7)) emptyDir).1 = .ok (.node toyNodeOne) := by
    decide +kernel
  obtain ⟨trace, hload⟩ := @step_complete PowerLoss (.loadOrGenerate (toyMint 1 7)) emptyDir
  rw [hanswer] at hload
  exact ⟨hanswer, (acknowledged_identity_durable toy_keysReadBack emptyDir_tracked (.start _) hload rfl
    (fun _ _ => Or.inl rfl) (.start _) (by simp)).1.mpr (Or.inl le_rfl) _ (Or.inl rfl)⟩

def missingDir : Volume String := { emptyDir with made := 0, anchored := 0 }

theorem missingDir_tracked : missingDir.Tracked :=
  ⟨⟨by simp [missingDir, emptyDir], by simp [missingDir, emptyDir]⟩, by simp [missingDir, emptyDir],
    fun _ _ => ⟨rfl, rfl⟩, le_rfl⟩

/-- A first load that makes its directory and answers; a loss of power takes the directory, and the
next load answers with another identity. -/
theorem acknowledged_identity_lost : ∃ trace s t,
    Step PowerLoss missingDir (.call (.loadOrGenerate (toyMint 1 7)) trace (some (.ok (.node toyNodeOne)))) s ∧
    PowerLoss s t ∧ (complete (.loadOrGenerate (toyMint 2 8)) t).1 = .ok (.node toyNodeTwo) ∧
    toyNodeTwo.peerId ≠ toyNodeOne.peerId := by
  obtain ⟨trace, hload⟩ := @step_complete PowerLoss (.loadOrGenerate (toyMint 1 7)) missingDir
  have hanswer : (complete (.loadOrGenerate (toyMint 1 7)) missingDir).1 = .ok (.node toyNodeOne) := by
    decide +kernel
  have hmint : NodeCert.generateSigned toyBackend (toyMint 2 8) = .ok toyNodeTwo := by decide +kernel
  rw [hanswer] at hload
  have htracked := run_powerLoss_tracked missingDir_tracked (.single hload)
  have hgone : ¬ (complete (.loadOrGenerate (toyMint 1 7)) missingDir).2.Anchored := by
    obtain ⟨ho⟩ := hload
    exact fun h => absurd ((anchored_outcome ho).mp h) (Nat.not_succ_le_zero 0)
  obtain ⟨t, hloss, habsent⟩ := powerLoss_vanish htracked hgone
  have hvacant : t.contents certFile = none := by
    rw [contents_eq_none_iff]
    simp [lookup, habsent]
  refine ⟨trace, _, t, hload, hloss, ?_, by decide⟩
  have hminted := load_vacant_answer (toyMint 2 8) (Or.inl hvacant)
  rw [hmint] at hminted
  rw [complete, Call.program, exec_map, hminted]
  rfl

end DigTls
