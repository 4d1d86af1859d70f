import DigTls.Posix.Permissions
import DigTls.Store.Machine
import DigTls.Store.Replace
import DigTls.Store.Retirement
import DigTls.Store.Survival

/-! # Key material and permissions

A slot write puts its bytes into the sibling before it sets any permission on it. A sibling that is
new has the mode asked for, but one left by an earlier process keeps its own, and then a crash can
freeze a file with key material that others may read. Which siblings are safe can be told from the
directory before a call begins.
-/
namespace DigTls
open EffectPrograms PosixVolume Volume
variable {B : Backend} {sensitive : Bytes → Prop} {α : Type} {x y : LoggedVolume String}
  {s t : Volume String} {tmp dest : String} {contents : Bytes} {o : Option (Except DigTlsError Unit)}

def Secret.mode : Secret → Mode
  | .yes => 0o600#12
  | .no => 0o666#12

/-- The mode of the file that a slot write begun now puts its bytes into. -/
def stagedMode (s : Volume String) (w : SlotWrite) : Mode := s.createdMode (tmpPath w.path) w.secret.mode

/-- The writes a call may come to make. A minting is always possible, for an existence test answers
no when it fails. -/
inductive Plans (B : Backend) (s : Volume String) : Call B → List SlotWrite → Prop
  | mint {m : NodeCert.Minting B} {x : NodeCert} (mint : NodeCert.generateSigned B m = .ok x) :
      Plans B s (.loadOrGenerate m) (freshWrites x)
  | rotate {m : NodeCert.Minting B} {p x : NodeCert} (holds : Holds B s currentSlot p)
      (mint : NodeCert.generateSigned B m = .ok x) : Plans B s (.rotate m) (rotationWrites p x)

/-- The siblings through which the call may stage sensitive bytes are, or will be, their owner's alone. -/
def StagesPrivately (sensitive : Bytes → Prop) (s : Volume String) (c : Call B) : Prop :=
  ∀ ws, Plans B s c ws → ∀ w ∈ ws, sensitive w.contents → OwnerOnly (stagedMode s w)

/-- A new sibling for key material is its owner's alone under every umask. -/
theorem ownerOnly_secret (umask : Mode) : OwnerOnly (Secret.yes.mode &&& ~~~umask) := by
  have hnone : 0o600#12 &&& 0o077#12 = 0 := by decide
  calc 0o600#12 &&& ~~~umask &&& 0o077#12
      = ~~~umask &&& (0o600#12 &&& 0o077#12) := by rw [BitVec.and_comm 0o600#12, BitVec.and_assoc]
    _ = 0 := by
      rw [hnone]
      exact BitVec.and_zero

/-- So it is only leftover siblings that can be open to others. -/
theorem ownerOnly_stagedMode_iff {w : SlotWrite} (hw : w.secret = .yes) : OwnerOnly (stagedMode s w) ↔
    ∀ i, s.lookup (tmpPath w.path) = some i → OwnerOnly (s.inode i).mode := by
  unfold stagedMode
  cases hl : s.lookup (tmpPath w.path) with
  | none =>
    rw [createdMode_of_none hl, hw]
    simp [ownerOnly_secret]
  | some i =>
    rw [createdMode_of_lookup hl]
    simp

theorem WriteLeaves.createdMode {q : String} (h : WriteLeaves dest contents s o t) (hs : s.Wf) (hd : q ≠ dest)
    (htmp : q ≠ tmpPath dest) (mode : Mode) : t.createdMode q mode = s.createdMode q mode := by
  cases h with
  | beside hb _ => exact hb.createdMode hs htmp mode
  | moved hstaged _ => exact (createdMode_moved htmp hd mode).trans (hstaged.beside.createdMode hs htmp mode)
  | synced hstaged => exact (createdMode_moved htmp hd mode).trans (hstaged.beside.createdMode hs htmp mode)

theorem WriteLeaves.hardened (h : WriteLeaves dest contents s o t) (hs : s.Hardened) : t.Hardened := by
  rw [h.frame]
  exact hs

theorem gives_fsCreate (h : Sealed sensitive x) (hd : x.1.Hardened) (mode : Mode) :
    Seals sensitive x (fsCreate tmp mode) fun file y =>
      y.1.Hardened ∧ file < y.1.next ∧ (y.1.inode file).mode = x.1.createdMode tmp mode := by
  refine gives_discreet h trivial ?_ ?_
  · rintro y rfl hy
    change Gives _ _ (orFail (x.1.create tmp mode).1) _ _
    cases hr : (x.1.create tmp mode).1 with
    | error e => exact Gives.raise hy
    | ok file =>
      have hl := ((@create_spec _ x.1 _ tmp _ h.tracked.toWf mode (x.1.create tmp mode).1 rfl).2 file hr).1
      refine Gives.done hy ⟨?_, ?_, createdMode_create hr⟩
      · have hmodes : Modes (.create tmp mode) x.1 (x.1.create tmp mode).2 := modes_run (.create tmp mode) hd.1
        exact hmodes.hardened hd (by simp)
      · exact hy.tracked.fresh tmp file (lookup_eq_some_iff.mp hl).2
  · rintro _ _ ⟨⟨⟩⟩
    exact ⟨_, rfl⟩

theorem gives_writeAll {file : ℕ} (h : Sealed sensitive x)
    (hop : sensitive contents → x.1.Hardened ∧ file < x.1.next ∧ OwnerOnly (x.1.inode file).mode) :
    Seals sensitive x (writeAll file contents) fun _ _ => True := by
  refine gives_discreet h hop ?_ ?_
  · exact fun y _ hy => Gives.done hy trivial
  · rintro _ _ ⟨⟨⟩⟩
    exact ⟨_, rfl⟩

theorem gives_stage (h : Sealed sensitive x) (hd : x.1.Hardened) (secret : Secret)
    (hmode : sensitive contents → OwnerOnly (x.1.createdMode tmp secret.mode)) :
    Seals sensitive x (stage .unix tmp contents secret) fun _ _ => True := by
  have hwrite : Seals sensitive x (fsCreate tmp secret.mode >>= fun file => writeAll file contents)
      fun _ _ => True := by
    refine (gives_fsCreate h hd secret.mode).bind fun file y hy ⟨hd', hlt, hm⟩ => ?_
    refine gives_writeAll hy fun hsens => ⟨hd', hlt, ?_⟩
    rw [hm]
    exact hmode hsens
  cases secret with
  | no => exact hwrite
  | yes =>
    have hchmod : (setPermissions tmp 0o600#12).Forall Op.Harmless fun _ => True :=
      ⟨(by decide : OwnerOnly 0o600#12), orFail_forall⟩
    have hstage : stage .unix tmp contents .yes =
        (fsCreate tmp Secret.yes.mode >>= fun file => writeAll file contents) >>= fun _ =>
          setPermissions tmp 0o600#12 := by
      simp [stage, writeKeyFile, Secret.mode, Program.bind_assoc']
    rw [hstage]
    exact hwrite.bind fun _ y hy _ => keeps_sealed hchmod y hy

theorem gives_sealed_atomicWrite (h : Sealed sensitive x) (hd : x.1.Hardened) (secret : Secret)
    (hmode : sensitive contents → OwnerOnly (x.1.createdMode (tmpPath dest) secret.mode)) :
    Seals sensitive x (atomicWrite .unix dest contents secret) fun _ y =>
      y.1.Hardened ∧ ∀ q mode, q ≠ dest → q ≠ tmpPath dest →
        y.1.createdMode q mode = x.1.createdMode q mode := by
  have hsealed : Seals sensitive x (atomicWrite .unix dest contents secret) fun _ _ => True := by
    refine (gives_stage h hd secret hmode).bind fun _ y hy _ => ?_
    refine keeps_sealed (A := fun _ => True) ?_ y hy
    refine Program.Forall.bind (A := fun _ => True) ⟨trivial, orFail_forall⟩ fun file _ => ?_
    refine Program.Forall.bind (A := fun _ => True) ⟨trivial, orFail_forall⟩ fun _ _ => ?_
    refine Program.Forall.bind (A := fun _ => True) ⟨trivial, orFail_forall⟩ fun _ _ => ?_
    exact ⟨trivial, orFail_forall⟩
  have hleaves := ensures_logged (ensures_atomicWrite h.tracked dest contents secret)
  refine (hsealed.and hleaves).mono ?_
  rintro trace o y ⟨⟨hy, _⟩, hw⟩
  exact ⟨hy, fun _ _ => ⟨hw.hardened hd, fun q mode hqd hqt => hw.createdMode h.tracked.toWf hqd hqt mode⟩⟩

theorem tmpPath_injective : ∀ d ∈ slotFiles, ∀ d' ∈ slotFiles, tmpPath d = tmpPath d' → d = d' := by decide

/-- One slot write tells nothing about the sibling of another. -/
theorem stagedMode_other {v w : SlotWrite} (hv : v.path ∈ slotFiles) (hw : w.path ∈ slotFiles)
    (hne : v.path ≠ w.path)
    (h : ∀ q mode, q ≠ w.path → q ≠ tmpPath w.path → t.createdMode q mode = s.createdMode q mode) :
    stagedMode t v = stagedMode s v :=
  h _ _ (tmpPath_not_slot v.path hv w.path hw).symm fun heq => hne (tmpPath_injective _ hv _ hw heq)

theorem gives_sealed_writeSlots {ws : List SlotWrite} (hws : ∀ w ∈ ws, w.path ∈ slotFiles)
    (hnodup : (ws.map SlotWrite.path).Nodup) (h : Sealed sensitive x) (hd : x.1.Hardened)
    (hmode : ∀ w ∈ ws, sensitive w.contents → OwnerOnly (stagedMode x.1 w)) :
    Seals sensitive x (writeSlots ws) fun _ _ => True := by
  induction ws generalizing x with
  | nil => exact Gives.done h trivial
  | cons w ws ih =>
    obtain ⟨hfirst, hrest⟩ := List.nodup_cons.mp hnodup
    refine (gives_sealed_atomicWrite h hd w.secret (hmode w (by simp))).bind fun _ y hy ⟨hd', hsame⟩ => ?_
    refine ih (fun v hv => hws v (List.mem_cons_of_mem _ hv)) hrest hy hd' fun v hv hsens => ?_
    have hne : v.path ≠ w.path := fun heq => hfirst (heq ▸ List.mem_map_of_mem hv)
    rw [stagedMode_other (hws v (List.mem_cons_of_mem _ hv)) (hws w (by simp)) hne hsame]
    exact hmode v (List.mem_cons_of_mem _ hv) hsens

/-- Making the directory, or what of it can be made, decides nothing about the siblings. -/
theorem gives_createDirAll (h : Sealed sensitive x) :
    Seals sensitive x createDirAll fun _ y =>
      ∀ q mode, y.1.createdMode q mode = x.1.createdMode q mode := by
  refine gives_discreet h trivial ?_ ?_
  · rintro y rfl hy
    exact Gives.done hy fun q mode => createdMode_makePath x.1 x.1.depth q mode
  · rintro _ _ ⟨⟨⟩⟩
    exact ⟨_, rfl⟩

theorem gives_harden (h : Sealed sensitive x) :
    Seals sensitive x (hardenDirPermissions .unix) fun _ y =>
      y.1.Hardened ∧ ∀ q mode, y.1.createdMode q mode = x.1.createdMode q mode := by
  refine @gives_discreet _ _ _ _ _ _ (.setDirPermissions 0o700#12) _ _ h rfl ?_ ?_
  · rintro y rfl hy
    cases hp : x.1.present with
    | false =>
      have hrun : Volume.run (.setDirPermissions 0o700#12) x.1 = (.error .notFound, x.1) := by
        simp [Volume.run, hp]
      rw [hrun] at hy ⊢
      exact Gives.raise hy
    | true =>
      rw [run_setDirPermissions hp] at hy ⊢
      exact Gives.done hy ⟨⟨hp, rfl⟩, fun _ _ => rfl⟩
  · rintro _ _ ⟨⟨⟩⟩
    exact ⟨_, rfl⟩

theorem gives_sealed_persistFresh (h : Sealed sensitive x) (node : NodeCert)
    (hmode : ∀ w ∈ freshWrites node, sensitive w.contents → OwnerOnly (stagedMode x.1 w)) :
    Seals sensitive x (persistFresh .unix node) fun _ _ => True := by
  rw [persistFresh_eq]
  refine (gives_createDirAll h).bind fun _ y hy hmade => (gives_harden hy).bind fun _ z hz ⟨hd, hsame⟩ => ?_
  refine Gives.bind (A := fun _ _ => True) ?_ fun _ _ hu _ => Gives.done hu trivial
  refine gives_sealed_writeSlots (freshWrites_slots node) (freshWrites_nodup node) hz hd fun w hw hsens => ?_
  rw [stagedMode, hsame, hmade]
  exact hmode w hw hsens

theorem gives_sealed_persistRotation (h : Sealed sensitive x) (previous current : NodeCert)
    (hmode : ∀ w ∈ rotationWrites previous current, sensitive w.contents → OwnerOnly (stagedMode x.1 w)) :
    Seals sensitive x (persistRotation .unix previous current) fun _ _ => True := by
  rw [persistRotation_eq]
  refine (gives_harden h).bind fun _ y hy ⟨hd, hsame⟩ => ?_
  refine Gives.bind (A := fun _ _ => True) ?_ fun _ _ hu _ => Gives.done hu trivial
  refine gives_sealed_writeSlots (rotationWrites_slots _ _) (rotationWrites_nodup _ _) hy hd fun w hw hsens => ?_
  rw [stagedMode, hsame]
  exact hmode w hw hsens

/-- What a load gives is in the slot, also where existence tests may fail. -/
theorem gives_sealed_loadSlot (h : Sealed sensitive x) (slot : Slot) :
    Seals sensitive x (loadSlot B slot) fun node y => y.1 = x.1 ∧ Holds B x.1 slot node := by
  have hlooks := gives_looks h (loadSlot_forall (B := B) (fun _ => trivial) slot)
  intro trace o y ho
  obtain ⟨hy, hsame⟩ := hlooks trace o y ho
  have hposix := truthful_outcome ho.unlogged (loadSlot_forall (by simp) slot)
  obtain ⟨_, _, hholds⟩ := reads_loadSlot trace o y.1 hposix
  exact ⟨hy, fun node hnode => ⟨(hsame node hnode).1, hholds node hnode⟩⟩

theorem gives_sealed_call (h : Sealed sensitive x) (c : Call B) (hc : StagesPrivately sensitive x.1 c) :
    Seals sensitive x (c.program .unix) fun _ _ => True := by
  cases c with
  | loadOrGenerate m =>
    refine Gives.bind (A := fun _ _ => True) ?_ fun _ _ hy _ => Gives.done hy trivial
    refine (gives_looks h (bothExist_forall (fun _ => trivial) currentSlot)).bind fun b y hy ⟨hsame, _⟩ => ?_
    cases b with
    | true => exact (gives_sealed_loadSlot hy currentSlot).mono fun _ _ _ _ => trivial
    | false =>
      change Gives _ _ (.ofExcept (NodeCert.generateSigned B m) >>= fun node => persistFresh .unix node) _ _
      cases hmint : NodeCert.generateSigned B m with
      | error e => exact Gives.raise hy
      | ok node =>
        refine gives_sealed_persistFresh hy node fun w hw hsens => ?_
        rw [hsame]
        exact hc _ (.mint hmint) w hw hsens
  | rotate m =>
    refine Gives.bind (A := fun _ _ => True) ?_ fun _ _ hy _ => Gives.done hy trivial
    refine (gives_looks h (bothExist_forall (fun _ => trivial) currentSlot)).bind fun b y hy ⟨hsame, _⟩ => ?_
    cases b with
    | false => exact Gives.raise hy
    | true =>
      refine (gives_looks hy (eitherExists_forall (fun _ => trivial) prevSlot)).bind fun b z hz ⟨hsame', _⟩ => ?_
      cases b with
      | true => exact Gives.raise hz
      | false =>
        refine (gives_sealed_loadSlot hz currentSlot).bind fun p u hu ⟨hsame'', hholds⟩ => ?_
        rw [hsame', hsame] at hsame'' hholds
        change Gives _ _ (.ofExcept (NodeCert.generateSigned B m) >>= fun x => persistRotation .unix p x) _ _
        cases hmint : NodeCert.generateSigned B m with
        | error e => exact Gives.raise hu
        | ok node =>
          refine gives_sealed_persistRotation hu p node fun w hw hsens => ?_
          rw [hsame'']
          exact hc _ (.rotate hholds hmint) w hw hsens
  | loadPrevious =>
    refine keeps_sealed (A := fun _ => True) ?_ x h
    exact Program.Forall.bind (loadPrevious_forall (fun _ => trivial) fun _ => trivial) fun _ _ => trivial
  | retirePrevious =>
    refine keeps_sealed (A := fun _ => True) ?_ x h
    refine Program.Forall.bind (A := fun _ => True) ?_ fun _ _ => trivial
    exact retirePrevious_forall (fun _ => trivial) (fun _ => trivial) fun _ _ => trivial

/-- The program can be cut when the bytes of this slot write are in the sibling, which then has the
mode it was staged with. -/
def CutStaged (w : SlotWrite) (p : Task α) (s : Volume String) : Prop :=
  ∃ trace file t, Outcome (blind String) p s trace none t ∧ .writeAll file w.contents ∈ trace ∧
    t.lookup (tmpPath w.path) = some file ∧ (t.inode file).mode = stagedMode s w

theorem CutStaged.bind {β : Type} {w : SlotWrite} {p : Task α} (h : CutStaged w p s) (f : α → Task β) :
    CutStaged w (p >>= f) s := by
  obtain ⟨trace, file, t, ho, hrest⟩ := h
  exact ⟨trace, file, t, ho.bind_cut f, hrest⟩

theorem CutStaged.after {β : Type} {w : SlotWrite} {p : Task α} {f : α → Task β} {a : α}
    {trace : List (Op String)} (ho : Outcome (blind String) p s trace (some (.ok a)) t)
    (hmode : stagedMode t w = stagedMode s w) (h : CutStaged w (f a) t) : CutStaged w (p >>= f) s := by
  obtain ⟨trace', file, u, hcut, hmem, hl, hfile⟩ := h
  exact ⟨trace ++ trace', file, u, ho.bind hcut, List.mem_append_right _ hmem, hl, hfile.trans hmode⟩

/-- The moment between the writing of the sibling and whatever comes next. -/
theorem cutStaged_atomicWrite (hs : s.Wf) (hp : s.present = true) (w : SlotWrite) :
    CutStaged w (atomicWrite .unix w.path w.contents w.secret) s := by
  obtain ⟨file, hcreate, _⟩ := create_ok hp (tmpPath w.path) w.secret.mode
  have hspec := (@create_spec _ s _ (tmpPath w.path) _ hs w.secret.mode _ rfl).2 file hcreate
  refine ⟨[.create (tmpPath w.path) w.secret.mode, .writeAll file w.contents], file,
    (s.create (tmpPath w.path) w.secret.mode).2.overwrite file w.contents, ?_, by simp, hspec.1, ?_⟩
  · cases hsecret : w.secret with
    | yes =>
      rw [hsecret] at hcreate
      refine Outcome.step ?_
      change Outcome _ ((orFail (s.create (tmpPath w.path) Secret.yes.mode).1 >>= _) >>= _) _ _ _ _
      rw [hcreate]
      exact Outcome.step (.crash (.unchanged _ _))
    | no =>
      rw [hsecret] at hcreate
      refine Outcome.step ?_
      change Outcome _ ((orFail (s.create (tmpPath w.path) Secret.no.mode).1 >>= _) >>= _) _ _ _ _
      rw [hcreate]
      exact Outcome.step (.crash (.unchanged _ _))
  · simpa [overwrite, stagedMode] using createdMode_create hcreate

theorem cutStaged_writeSlots {ws : List SlotWrite} (hws : ∀ w ∈ ws, w.path ∈ slotFiles)
    (hnodup : (ws.map SlotWrite.path).Nodup) (hs : s.Tracked) (hp : s.present = true) :
    ∀ w ∈ ws, CutStaged w (writeSlots ws) s := by
  induction ws generalizing s with
  | nil => simp
  | cons v ws ih =>
    intro w hw
    obtain ⟨hfirst, hrest⟩ := List.nodup_cons.mp hnodup
    have hv := hws v (by simp)
    rcases List.mem_cons.mp hw with rfl | hw
    · exact (cutStaged_atomicWrite hs.toWf hp w).bind _
    · have hne : w.path ≠ v.path := fun heq => hfirst (heq ▸ List.mem_map_of_mem hw)
      obtain ⟨a, t, hexec, hpt⟩ := (succeeds_atomicWrite hp v.path v.contents v.secret).completes
      obtain ⟨trace, ho⟩ := outcome_exec (M := posix String) (atomicWrite .unix v.path v.contents v.secret) s
      rw [hexec] at ho
      have hblind := veiled_outcome Set.univ ho
      have hleaves := ensures_atomicWrite hs v.path v.contents v.secret trace _ t hblind
      refine CutStaged.after hblind ?_ ?_
      · exact stagedMode_other (hws w (List.mem_cons_of_mem _ hw)) hv hne
          fun q mode hd htmp => hleaves.createdMode hs.toWf hd htmp mode
      · exact ih (fun u hu => hws u (List.mem_cons_of_mem _ hu)) hrest (tracked_veiled hs hblind) hpt w hw

theorem cutStaged_hardened {ws : List SlotWrite} (hws : ∀ w ∈ ws, w.path ∈ slotFiles)
    (hnodup : (ws.map SlotWrite.path).Nodup) (hs : s.Tracked) (hp : s.present = true) {w : SlotWrite}
    (hw : w ∈ ws) :
    CutStaged w (hardenDirPermissions .unix >>= fun _ => writeSlots ws) s := by
  have ho : Outcome (blind String) (hardenDirPermissions .unix) s [.setDirPermissions 0o700#12]
      (some (.ok ())) { s with dirMode := 0o700#12 } := by
    refine Outcome.step ?_
    change Outcome _ (orFail (Volume.run (.setDirPermissions 0o700#12) s).1)
      (Volume.run (.setDirPermissions 0o700#12) s).2 _ _ _
    rw [run_setDirPermissions hp]
    exact .done () _
  have hs' : Tracked { s with dirMode := 0o700#12 } :=
    ⟨⟨hs.single, hs.fresh⟩, hs.pastFresh, hs.absent, hs.path⟩
  exact CutStaged.after ho rfl (cutStaged_writeSlots hws hnodup hs' hp w hw)

/-- An existence test that fails lets a call go on as if there were no file. -/
theorem bothExist_unseen (slot : Slot) (s : Volume String) :
    Outcome (blind String) (bothExist slot) s [] (some (.ok false)) s :=
  .fault (.unseen (Set.mem_univ _) s) (.done false s)

theorem eitherExists_unseen (slot : Slot) (s : Volume String) :
    Outcome (blind String) (eitherExists slot) s [] (some (.ok false)) s :=
  .fault (.unseen (Set.mem_univ _) s) (.fault (.unseen (Set.mem_univ _) s) (.done false s))

theorem cutStaged_call {c : Call B} {ws : List SlotWrite} (hs : s.Tracked) (h : Plans B s c ws) {w : SlotWrite}
    (hw : w ∈ ws) : CutStaged w (c.program .unix) s := by
  cases h with
  | @mint m x hmint =>
    refine CutStaged.bind (CutStaged.after (bothExist_unseen _ s) rfl ?_) _
    change CutStaged w (.ofExcept (NodeCert.generateSigned B m) >>= fun node => persistFresh .unix node) s
    rw [hmint]
    change CutStaged w (persistFresh .unix x) s
    rw [persistFresh_eq, ← Program.bind_assoc', ← Program.bind_assoc']
    refine CutStaged.bind ?_ _
    rw [Program.bind_assoc']
    have hmade : Outcome (blind String) createDirAll s [.createDirAll] (some (.ok ())) (s.makePath s.depth) :=
      .step (.done () _)
    refine CutStaged.after hmade (createdMode_makePath s s.depth _ _) ?_
    refine cutStaged_hardened (freshWrites_slots x) (freshWrites_nodup x) ?_ (makePath_present s) hw
    exact tracked_veiled hs hmade
  | @rotate m p x hholds hmint =>
    have hcert : (s.contents currentSlot.cert).isSome := by simp [hholds.cert]
    have hkey : (s.contents currentSlot.key).isSome := by simp [hholds.key]
    have hp : s.present = true := by
      obtain ⟨i, hi⟩ := Option.isSome_iff_exists.mp (contents_isSome ▸ hcert)
      exact (lookup_eq_some_iff.mp hi).1
    obtain ⟨_, hboth⟩ := outcome_exec (M := posix String) (bothExist currentSlot) s
    rw [exec_bothExist hcert hkey] at hboth
    obtain ⟨_, hload⟩ := outcome_exec (M := posix String) (loadSlot B currentSlot) s
    rw [exec_loadSlot hholds] at hload
    refine CutStaged.bind (CutStaged.after (veiled_outcome Set.univ hboth) rfl ?_) _
    refine CutStaged.after (eitherExists_unseen prevSlot s) rfl ?_
    refine CutStaged.after (veiled_outcome Set.univ hload) rfl ?_
    change CutStaged w (.ofExcept (NodeCert.generateSigned B m) >>= fun x => persistRotation .unix p x) s
    rw [hmint]
    change CutStaged w (persistRotation .unix p x) s
    rw [persistRotation_eq, ← Program.bind_assoc']
    exact (cutStaged_hardened (rotationWrites_slots p x) (rotationWrites_nodup p x) hs hp hw).bind _

/-- A call begun in `x` may leave `y`, by answering, by failing or by being cut. -/
def Attempt (x : LoggedVolume String) (c : Call B) (y : LoggedVolume String) : Prop :=
  ∃ trace o, Outcome (blind String).logged (c.program .unix) x trace o y

/-- In a run whose calls all stage sensitive bytes privately the files with such bytes are their
owner's alone, and the directory has been so since before the first of them, in every state reached;
and the next call keeps it so, wherever it may be cut, exactly if it stages them privately too. -/
theorem key_bytes_owner_only (sensitive : Bytes → Prop) {ls : List (LoggedVolume String × Call B)}
    (hs : s.Tracked) (hrun : History Attempt (s, []) ls x)
    (hprivate : ∀ y ∈ ls, StagesPrivately sensitive y.1.1 y.2) :
    (∀ y ∈ ls, Guarded sensitive y.1) ∧ Guarded sensitive x ∧
    ∀ c : Call B, (∀ y, Attempt x c y → Guarded sensitive y) ↔ StagesPrivately sensitive x.1 c := by
  have hkeep : ∀ (u : LoggedVolume String) (c : Call B) v, StagesPrivately sensitive u.1 c →
      Sealed sensitive u → Attempt u c v → Sealed sensitive v := by
    rintro u c v hc hu ⟨trace, o, ho⟩
    exact (gives_sealed_call hu c hc trace o v ho).1
  obtain ⟨hstates, hx⟩ := hrun.everywhere (sealed_start hs) hprivate hkeep
  refine ⟨fun y hy => (hstates y hy).guarded, hx.guarded, fun c => ⟨fun hguarded ws hplan w hw hsens => ?_, ?_⟩⟩
  · obtain ⟨trace, file, t, ho, hmem, hl, hmode⟩ := cutStaged_call hx.tracked hplan hw
    obtain ⟨log, hlogged, _, hcalls⟩ := ho.logged x.2
    obtain ⟨u, hu⟩ := hcalls _ hmem
    have hfile := (hguarded (t, log) ⟨trace, none, hlogged⟩).files u file _ ⟨w.contents, hu, hsens⟩ hl
    rw [← hmode]
    exact hfile
  · exact fun hc y hy => (hkeep x c y hc hx hy).guarded

def firstKeyText : Bytes → Prop := (· = asBytes toyNodeOne.keyPem)

theorem firstLoad_stagesPrivately :
    StagesPrivately firstKeyText emptyDir (.loadOrGenerate (toyMint 1 7)) := by
  rintro ws ⟨hmint⟩ w hw hsens
  have hfirst : NodeCert.generateSigned toyBackend (toyMint 1 7) = .ok toyNodeOne := by decide +kernel
  obtain rfl := Except.ok.inj (hfirst.symm.trans hmint)
  simp only [freshWrites, List.mem_cons, List.not_mem_nil, or_false] at hw
  rcases hw with rfl | rfl
  · exact absurd (asBytes_injective hsens) (by decide)
  · exact ownerOnly_secret _

theorem key_bytes_owner_only_first : StagesPrivately firstKeyText emptyDir (.loadOrGenerate (toyMint 1 7)) ∧
    ∀ y, Attempt (emptyDir, []) (.loadOrGenerate (toyMint 1 7)) y → Guarded firstKeyText y := by
  refine ⟨firstLoad_stagesPrivately, fun y hy => ?_⟩
  have hrun : History Attempt (emptyDir, []) [((emptyDir, []), .loadOrGenerate (toyMint 1 7))] y := .single hy
  exact (key_bytes_owner_only firstKeyText emptyDir_tracked hrun
    (List.forall_mem_singleton.mpr firstLoad_stagesPrivately)).2.1

/-- A directory in which an earlier process has left a key's sibling that others may read. -/
def leftoverDir : Volume String :=
  { emptyDir with
    entry := fun q => if q = tmpPath keyFile then some 0 else none
    inode := fun _ => ⟨[], 0o644#12, false⟩
    next := 1 }

theorem leftoverDir_tracked : leftoverDir.Tracked := by
  have hentry : ∀ p i, leftoverDir.entry p = some i → p = tmpPath keyFile ∧ i = 0 := by
    intro p i hp
    simp only [leftoverDir] at hp
    split_ifs at hp with hpath
    exact ⟨hpath, (Option.some.inj hp).symm⟩
  refine ⟨⟨fun p q i hp hq => ?_, fun p i hp => ?_⟩, by simp [leftoverDir, emptyDir], ?_, le_rfl⟩
  · exact (hentry p i hp).1.trans (hentry q i hq).1.symm
  · rw [(hentry p i hp).2]
    exact Nat.one_pos
  · intro habs
    cases habs

/-- In `leftoverDir` the first load, cut after it has written the key, leaves it for all to read. -/
theorem key_bytes_world_readable : leftoverDir.Tracked ∧
    ∃ y, Attempt (leftoverDir, []) (.loadOrGenerate (toyMint 1 7)) y ∧
      y.1.contents (tmpPath keyFile) = some (asBytes toyNodeOne.keyPem) ∧
      (∃ i, y.1.lookup (tmpPath keyFile) = some i ∧ (y.1.inode i).mode = 0o644#12) ∧
      ¬ Guarded firstKeyText y := by
  have hstate : (cut 11 (.loadOrGenerate (toyMint 1 7)) leftoverDir).map (fun r =>
      (decide (.writeAll 0 (asBytes toyNodeOne.keyPem) ∈ r.1), r.2.lookup (tmpPath keyFile), r.2.inode 0)) =
        some (true, some 0, ⟨asBytes toyNodeOne.keyPem, 0o644#12, true⟩) := by decide +kernel
  obtain ⟨⟨trace, t⟩, hcut, hleft⟩ := Option.map_eq_some_iff.mp hstate
  simp only [Prod.mk.injEq, decide_eq_true_eq] at hleft
  obtain ⟨hwritten, hl, hfile⟩ := hleft
  have ho : Outcome (posix String) (Call.program .unix (.loadOrGenerate (toyMint 1 7))) leftoverDir trace none t :=
    outcome_cutAfter Volume.Partial.unchanged hcut
  obtain ⟨log, hlogged, _, hcalls⟩ := (veiled_outcome Set.univ ho).logged []
  obtain ⟨u, hu⟩ := hcalls _ hwritten
  have hmode : (t.inode 0).mode = 0o644#12 := by rw [hfile]
  refine ⟨leftoverDir_tracked, (t, log), ⟨trace, none, hlogged⟩, ?_, ⟨0, hl, hmode⟩, fun hguarded => ?_⟩
  · rw [contents_of_lookup hl, hfile]
  · have hopen := hguarded.files u 0 _ ⟨_, hu, rfl⟩ hl
    rw [hmode] at hopen
    exact absurd hopen (by decide)

end DigTls
