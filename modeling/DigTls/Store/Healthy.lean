import DigTls.Posix.Listing
import DigTls.Store.Runs

/-! # Calls that nothing interrupts

Without a fault or a crash a slot write in a directory that is there succeeds, and so do the
operations once their conditions are met: a load mints where the current pair is incomplete, a
rotation goes through where the previous slot is free, a retirement always does.
-/
namespace DigTls
open EffectPrograms PosixVolume Volume
variable {B : Backend} {α β : Type} {s t : Volume String} {tmp : String}

def Completes (s : Volume String) (p : Task α) (A : α → Volume String → Prop) : Prop :=
  ∃ a t, exec (posix String) p s = (.ok a, t) ∧ A a t

theorem Completes.bind {p : Task α} {f : α → Task β} {A : α → Volume String → Prop}
    {A' : β → Volume String → Prop} (h : Completes s p A)
    (next : ∀ a t, exec (posix String) p s = (.ok a, t) → A a t → Completes t (f a) A') :
    Completes s (p >>= f) A' := by
  obtain ⟨a, t, hexec, hA⟩ := h
  obtain ⟨b, u, hexec', hA'⟩ := next a t hexec hA
  refine ⟨b, u, ?_, hA'⟩
  rw [exec_bind, hexec]
  exact hexec'

theorem Completes.done {a : α} {A : α → Volume String → Prop} (h : A a s) : Completes s (.done a) A :=
  ⟨a, s, rfl, h⟩

theorem Completes.call {op : Op String} {next : op.Res → Task α} {a : α} {A : α → Volume String → Prop}
    (hnext : next (Volume.run op s).1 = .done a) (h : A a (Volume.run op s).2) :
    Completes s (.call op next) A := by
  refine ⟨a, (Volume.run op s).2, ?_, h⟩
  change exec (posix String) (next (Volume.run op s).1) (Volume.run op s).2 = _
  rw [hnext]
  rfl

theorem Completes.answer {p : Task α} {a : α} (h : Completes s p fun b _ => b = a) :
    (exec (posix String) p s).1 = .ok a := by
  obtain ⟨b, t, hexec, rfl⟩ := h
  rw [hexec]

/-- The program answers, and with `A`, as long as no call fails that changes the directory. -/
abbrev Succeeds (s : Volume String) (p : Task α) (A : α → Volume String → Prop) : Prop :=
  Ends (obliging String) p s A fun _ => False

theorem Succeeds.completes {p : Task α} {A : α → Volume String → Prop} (h : Succeeds s p A) :
    Completes s p A := by
  obtain ⟨trace, ho⟩ := outcome_exec (M := obliging String) p s
  rw [exec_obliging] at ho
  obtain ⟨hA, hno⟩ := h trace _ _ ho
  cases hexec : (exec (posix String) p s).1 with
  | error e => exact (hno e (congrArg some hexec)).elim
  | ok a => exact ⟨a, _, Prod.ext hexec rfl, hA a (congrArg some hexec)⟩

theorem Succeeds.call {op : Op String} {next : op.Res → Task α} {a : α} {A : α → Volume String → Prop}
    (hop : ¬ (op.Reads ∨ op = .createDirAll)) (hnext : next (Volume.run op s).1 = .done a)
    (h : A a (Volume.run op s).2) : Succeeds s (.call op next) A := by
  refine Ends.call ?_ fun r t hf => absurd hf.spared hop
  change Ends _ (next (Volume.run op s).1) (Volume.run op s).2 _ _
  rw [hnext]
  exact Ends.done h

section SlotWrites
variable {os : Platform} {file : ℕ}

theorem succeeds_fsCreate (hp : s.present = true) (mode : Mode) :
    Succeeds s (fsCreate tmp mode) fun file t => t.lookup tmp = some file := by
  obtain ⟨file, hfile, hl⟩ := create_ok hp tmp mode
  refine Succeeds.call (a := file) (by simp [Op.Reads]) ?_ hl
  change orFail (s.create tmp mode).1 = _
  rw [hfile]
  rfl

theorem succeeds_writeAll (hl : s.lookup tmp = some file) (data : Bytes) :
    Succeeds s (writeAll file data) fun _ t => t.lookup tmp = some file :=
  Succeeds.call (by simp [Op.Reads]) rfl hl

theorem succeeds_setPermissions (hl : s.lookup tmp = some file) (mode : Mode) :
    Succeeds s (setPermissions tmp mode) fun _ t => t.lookup tmp = some file := by
  refine Succeeds.call (a := ()) (by simp [Op.Reads]) ?_ ?_
  · rw [run_setPermissions hl]
    rfl
  · rw [run_setPermissions hl]
    exact hl

theorem succeeds_openWrite (hl : s.lookup tmp = some file) :
    Succeeds s (openWrite tmp) fun opened t => opened = file ∧ t = s := by
  refine Succeeds.call (a := file) (by simp [Op.Reads]) ?_ ?_
  · rw [run_openWrite hl]
    rfl
  · rw [run_openWrite hl]
    exact ⟨rfl, rfl⟩

theorem succeeds_syncAll (hl : s.lookup tmp = some file) :
    Succeeds s (syncAll file) fun _ t => t.lookup tmp = some file :=
  Succeeds.call (by simp [Op.Reads]) rfl hl

theorem succeeds_syncDir (hp : s.present = true) : Succeeds s syncDir fun _ t => t.present = true := by
  refine Succeeds.call (a := ()) (by simp [Op.Reads]) ?_ ?_
  · rw [run_syncDir hp]
    rfl
  · rw [run_syncDir hp]
    exact hp

theorem succeeds_fsWrite (hp : s.present = true) (contents : Bytes) :
    Succeeds s (fsWrite tmp contents) fun _ t => ∃ file, t.lookup tmp = some file := by
  refine (succeeds_fsCreate hp _).bind fun file t hl => ?_
  exact (succeeds_writeAll hl contents).mono (fun _ _ hl => ⟨file, hl⟩) fun _ => id

theorem succeeds_stage (hp : s.present = true) (contents : Bytes) (secret : Secret) :
    Succeeds s (stage os tmp contents secret) fun _ t => ∃ file, t.lookup tmp = some file := by
  cases secret with
  | no => exact succeeds_fsWrite hp contents
  | yes =>
    cases os with
    | windows => exact succeeds_fsWrite hp contents
    | unix =>
      refine (succeeds_fsCreate hp _).bind fun file t hl => ?_
      refine (succeeds_writeAll hl contents).bind fun _ u hl => ?_
      exact (succeeds_setPermissions hl _).mono (fun _ _ hl => ⟨file, hl⟩) fun _ => id

/-- A rename that finds its source answers at once, on Windows too. -/
theorem succeeds_atomicRename {source target : String} (hl : s.lookup source = some file)
    (hne : source ≠ target) : Succeeds s (atomicRename os source target) fun _ t => t.present = true := by
  have hrun : Volume.run (.rename source target) s = (.ok (), s.moved source target file) := rename_eq hne hl
  have hdone : (Volume.run (.rename source target) s).2.present = true := by
    rw [hrun]
    exact (lookup_eq_some_iff.mp hl).1
  cases os with
  | unix =>
    refine Succeeds.call (a := ()) (by simp [Op.Reads]) ?_ hdone
    rw [hrun]
    rfl
  | windows =>
    refine Succeeds.call (a := ()) (by simp [Op.Reads]) ?_ hdone
    rw [hrun]

theorem succeeds_atomicWrite (hp : s.present = true) (dest : String) (contents : Bytes) (secret : Secret) :
    Succeeds s (atomicWrite os dest contents secret) fun _ t => t.present = true := by
  refine (succeeds_stage hp contents secret).bind fun _ t ⟨file, hl⟩ => ?_
  refine (succeeds_openWrite hl).bind fun opened u ⟨hopened, hu⟩ => ?_
  rw [hopened, hu]
  refine (succeeds_syncAll hl).bind fun _ v hl => ?_
  refine (succeeds_atomicRename hl (tmpPath_ne dest)).bind fun _ w hp => ?_
  cases os with
  | unix => exact succeeds_syncDir hp
  | windows => exact Ends.done hp

theorem succeeds_hardenDirPermissions (hp : s.present = true) :
    Succeeds s (hardenDirPermissions os) fun _ t => t.present = true := by
  cases os with
  | windows => exact Ends.done hp
  | unix =>
    refine Succeeds.call (a := ()) (by simp [Op.Reads]) ?_ ?_
    · rw [run_setDirPermissions hp]
      rfl
    · rw [run_setDirPermissions hp]
      exact hp

theorem succeeds_persistRotation (hp : s.present = true) (p x : NodeCert) :
    Succeeds s (persistRotation os p x) fun r _ => r = ⟨p, x⟩ := by
  refine (succeeds_hardenDirPermissions hp).bind fun _ t hp => ?_
  refine (succeeds_atomicWrite hp _ _ _).bind fun _ u hp => ?_
  refine (succeeds_atomicWrite hp _ _ _).bind fun _ v hp => ?_
  refine (succeeds_atomicWrite hp _ _ _).bind fun _ w hp => ?_
  exact (succeeds_atomicWrite hp _ _ _).bind fun _ _ _ => Ends.done rfl

theorem succeeds_fresh (hp : s.present = true) (x : NodeCert) :
    Succeeds s (hardenDirPermissions os >>= fun _ => writeCert os certFile x >>= fun _ =>
      writeKey os keyFile x >>= fun _ => .done x) fun y _ => y = x := by
  refine (succeeds_hardenDirPermissions hp).bind fun _ t hp => ?_
  refine (succeeds_atomicWrite hp _ _ _).bind fun _ u hp => ?_
  exact (succeeds_atomicWrite hp _ _ _).bind fun _ _ _ => Ends.done rfl

end SlotWrites

theorem makePath_present (s : Volume String) : (s.makePath s.depth).present = true := by
  unfold makePath
  split_ifs with hp
  · exact hp
  · simp [Volume.present]

theorem completes_persistFresh (s : Volume String) (x : NodeCert) :
    Completes s (persistFresh .unix x) fun y _ => y = x := by
  have hmade : Completes s createDirAll fun _ t => t.present = true := Completes.call rfl (makePath_present s)
  exact hmade.bind fun _ _ _ hp => (succeeds_fresh hp x).completes

theorem exec_bothExist_eq (slot : Slot) (s : Volume String) : exec (posix String) (bothExist slot) s =
    (.ok ((s.contents slot.cert).isSome && (s.contents slot.key).isSome), s) := by
  rw [bothExist, exec_bind, exec_pathExists]
  cases (s.contents slot.cert).isSome with
  | false => rfl
  | true => exact exec_pathExists slot.key s

theorem exec_eitherExists_eq (slot : Slot) (s : Volume String) :
    exec (posix String) (eitherExists slot) s =
      (.ok ((s.contents slot.cert).isSome || (s.contents slot.key).isSome), s) := by
  rw [eitherExists, exec_bind, exec_pathExists]
  cases (s.contents slot.cert).isSome with
  | false => exact exec_pathExists slot.key s
  | true => rfl

theorem both_false (slot : Slot) (h : s.contents slot.cert = none ∨ s.contents slot.key = none) :
    ((s.contents slot.cert).isSome && (s.contents slot.key).isSome) = false := by
  rcases h with h | h <;> simp [h]

/-- Where the current pair is incomplete, a load is a minting. -/
theorem exec_load_vacant (m : NodeCert.Minting B)
    (h : s.contents certFile = none ∨ s.contents keyFile = none) :
    exec (posix String) (loadOrGenerate .unix m) s = match NodeCert.generateSigned B m with
      | .ok x => exec (posix String) (persistFresh .unix x) s
      | .error e => (.error e, s) := by
  rw [loadOrGenerate, exec_bind, exec_bothExist_eq, both_false currentSlot h]
  change exec (posix String) (.ofExcept (NodeCert.generateSigned B m) >>= _) s = _
  cases NodeCert.generateSigned B m <;> rfl

theorem load_vacant_answer (m : NodeCert.Minting B)
    (h : s.contents certFile = none ∨ s.contents keyFile = none) :
    (exec (posix String) (loadOrGenerate .unix m) s).1 = NodeCert.generateSigned B m := by
  rw [exec_load_vacant m h]
  cases NodeCert.generateSigned B m with
  | error e => rfl
  | ok x => exact (completes_persistFresh s x).answer

theorem exec_rotate_vacant (m : NodeCert.Minting B)
    (h : s.contents certFile = none ∨ s.contents keyFile = none) :
    exec (posix String) (rotate .unix m) s = (.error noCurrent, s) := by
  rw [rotate, exec_bind, exec_bothExist_eq, both_false currentSlot h]
  rfl

theorem exec_rotate_unretired {p : NodeCert} (m : NodeCert.Minting B) (h : Holds B s currentSlot p)
    (hprev : ((s.contents certFilePrev).isSome || (s.contents keyFilePrev).isSome) = true) :
    exec (posix String) (rotate .unix m) s = (.error unretired, s) := by
  have hcert : (s.contents currentSlot.cert).isSome := by simp [h.cert]
  have hkey : (s.contents currentSlot.key).isSome := by simp [h.key]
  rw [rotate, exec_bind, exec_bothExist hcert hkey]
  change exec (posix String) (eitherExists prevSlot >>= _) s = _
  rw [exec_bind, exec_eitherExists_eq, show prevSlot.cert = certFilePrev from rfl,
    show prevSlot.key = keyFilePrev from rfl, hprev]
  rfl

theorem exec_rotate_free {p : NodeCert} (m : NodeCert.Minting B) (h : Holds B s currentSlot p)
    (hcert : s.contents certFilePrev = none) (hkey : s.contents keyFilePrev = none) :
    exec (posix String) (rotate .unix m) s = match NodeCert.generateSigned B m with
      | .ok x => exec (posix String) (persistRotation .unix p x) s
      | .error e => (.error e, s) := by
  have hthere : (s.contents currentSlot.cert).isSome := by simp [h.cert]
  have hthere' : (s.contents currentSlot.key).isSome := by simp [h.key]
  have hfree : ((s.contents prevSlot.cert).isSome || (s.contents prevSlot.key).isSome) = false := by
    rw [show prevSlot.cert = certFilePrev from rfl, show prevSlot.key = keyFilePrev from rfl, hcert, hkey]
    rfl
  rw [rotate, exec_bind, exec_bothExist hthere hthere']
  change exec (posix String) (eitherExists prevSlot >>= _) s = _
  rw [exec_bind, exec_eitherExists_eq, hfree]
  change exec (posix String) (loadSlot B currentSlot >>= _) s = _
  rw [exec_bind, exec_loadSlot h]
  change exec (posix String) (.ofExcept (NodeCert.generateSigned B m) >>= _) s = _
  cases NodeCert.generateSigned B m <;> rfl

theorem exec_loadPrevious_none (h : s.contents certFilePrev = none ∨ s.contents keyFilePrev = none) :
    exec (posix String) (loadPrevious B) s = (.ok none, s) := by
  rw [loadPrevious, exec_bind, exec_bothExist_eq, both_false prevSlot h]
  rfl

theorem completes_removeFile {path : String} (h : (s.contents path).isSome) :
    Completes s (removeFile path) fun _ _ => True := by
  obtain ⟨i, hi⟩ := Option.isSome_iff_exists.mp (contents_isSome ▸ h)
  refine Completes.call (a := ()) ?_ trivial
  simp [Volume.run, Volume.removeFile, hi, orFail]

theorem completes_retirePrevious (s : Volume String) : Completes s retirePrevious fun _ _ => True := by
  have htest : ∀ (u : Volume String) (path : String) (f : Bool → Task Unit),
      Completes u (f (u.contents path).isSome) (fun _ _ => True) →
      Completes u (pathExists path >>= f) fun _ _ => True := by
    intro u path f hf
    obtain ⟨a, v, hexec, _⟩ := hf
    refine ⟨a, v, ?_, trivial⟩
    rw [exec_bind, exec_pathExists]
    exact hexec
  have hkey : Completes s retireKey fun _ _ => True := by
    apply htest
    cases hc : s.contents keyFilePrev with
    | none => exact Completes.done trivial
    | some data =>
      have hread : Completes s (fsRead keyFilePrev) fun _ t => t = s := by
        refine Completes.call (a := data) ?_ ?_
        · simp [Volume.run, hc, orFail]
        · simp [Volume.run, hc]
      refine hread.bind fun _ t _ ht => ?_
      subst ht
      exact completes_removeFile (by simp [hc])
  refine hkey.bind fun _ t _ _ => ?_
  apply htest
  cases hc : t.contents certFilePrev with
  | none => exact Completes.done trivial
  | some data => exact completes_removeFile (by simp [hc])

end DigTls
