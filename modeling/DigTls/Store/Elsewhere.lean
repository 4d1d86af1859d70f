import DigTls.Posix.Territory
import DigTls.Store.Platforms

/-! # The rest of the directory

The operations work on the four slot files and the four files they are staged through. Any number of
processes may call them at a time and be stopped anywhere: whatever else is in the directory stays as it
was, with its contents and permissions.
-/
namespace DigTls
open EffectPrograms PosixVolume Volume
variable {B : Backend} {α : Type} {os : Platform} {files : Set ℕ} {path d : String}

def territory : Set String := {path | path ∈ directoryFiles}

/-- The program keeps to the directory's files. -/
abbrev Stays (A : α → Set ℕ → Prop) (files : Set ℕ) (p : Task α) : Prop := ProgramKeepsTo territory A files p

abbrev Inside (p : Task α) : Prop := ∀ files, Stays (fun _ _ => True) files p

theorem slot_mem_territory (hd : d ∈ slotFiles) : d ∈ territory := List.mem_append_left _ hd

theorem tmp_mem_territory (hd : d ∈ slotFiles) : tmpPath d ∈ territory :=
  List.mem_append_right _ (List.mem_map_of_mem hd)

theorem Inside.bind {β : Type} {p : Task α} {f : α → Task β} (h : Inside p) (next : ∀ a, Inside (f a)) :
    Inside (p >>= f) := fun files => (h files).bind fun a files _ => next a files

theorem stays_orFail (r : Except IoError α) : Stays (fun _ _ => True) files (orFail r) := by
  cases r <;> trivial

theorem stays_call (op : Op String) (hop : op.KeepsTo territory files) (back : op.Res → Except IoError α) :
    Stays (fun _ _ => True) files (.call op fun r => orFail (back r)) :=
  ⟨hop, fun r => stays_orFail (back r)⟩

/-- A file that has been opened is the program's to write to. -/
theorem stays_fsCreate (hpath : path ∈ territory) (mode : Mode) :
    Stays (fun file files => file ∈ files) files (fsCreate path mode) := by
  refine ⟨hpath, fun r => ?_⟩
  cases r with
  | error e => trivial
  | ok file => exact Or.inr rfl

theorem stays_openWrite (hpath : path ∈ territory) : Stays (fun file files => file ∈ files) files (openWrite path) := by
  refine ⟨hpath, fun r => ?_⟩
  cases r with
  | error e => trivial
  | ok file => exact Or.inr rfl

theorem inside_stage (hpath : path ∈ territory) (contents : Bytes) (secret : Secret) :
    Inside (stage os path contents secret) := by
  intro files
  have hplain : ∀ mode, Stays (fun _ _ => True) files (fsCreate path mode >>= fun file => writeAll file contents) :=
    fun mode => (stays_fsCreate hpath mode).bind fun file _ hfile => stays_call (.writeAll file contents) hfile id
  cases secret with
  | no => exact hplain _
  | yes =>
    cases os with
    | windows => exact hplain _
    | unix =>
      refine (stays_fsCreate hpath 0o600#12).bind fun file _ hfile => ?_
      refine (stays_call (.writeAll file contents) hfile id).bind fun _ _ _ => ?_
      exact stays_call (.setPermissions path 0o600#12) hpath id

theorem inside_atomicRename {source target : String} (hsource : source ∈ territory) (htarget : target ∈ territory) :
    Inside (atomicRename os source target) := by
  intro files
  cases os with
  | unix => exact stays_call (.rename source target) ⟨hsource, htarget⟩ id
  | windows =>
    refine ⟨⟨hsource, htarget⟩, fun r => ?_⟩
    cases r with
    | ok _ => trivial
    | error e =>
      have hexists : Inside (pathExists target) := fun _ => ⟨trivial, fun _ => trivial⟩
      refine ProgramKeepsTo.bind (hexists _) fun there files _ => ?_
      cases there with
      | false => trivial
      | true =>
        refine ProgramKeepsTo.bind (stays_call (.removeFile target) htarget id) fun _ _ _ => ?_
        exact stays_call (.rename source target) ⟨hsource, htarget⟩ id

theorem inside_fsyncDir : Inside (fsyncDir os) := by
  intro files
  cases os with
  | unix => exact stays_call .syncDir trivial id
  | windows => trivial

theorem inside_hardenDirPermissions : Inside (hardenDirPermissions os) := by
  intro files
  cases os with
  | unix => exact stays_call (.setDirPermissions 0o700#12) trivial id
  | windows => trivial

theorem inside_atomicWrite (hd : d ∈ slotFiles) (contents : Bytes) (secret : Secret) :
    Inside (atomicWrite os d contents secret) := by
  refine Inside.bind (inside_stage (tmp_mem_territory hd) contents secret) fun _ files => ?_
  refine (stays_openWrite (tmp_mem_territory hd)).bind fun file files hfile => ?_
  refine (stays_call (.syncAll file) hfile id).bind fun _ files _ => ?_
  have hrename : Inside (atomicRename os (tmpPath d) d) :=
    inside_atomicRename (tmp_mem_territory hd) (slot_mem_territory hd)
  exact (hrename.bind fun _ => inside_fsyncDir) files

theorem inside_of_forall {p : Task α} (h : p.Forall (fun op => ∀ files, op.KeepsTo territory files) fun _ => True) :
    Inside p := fun _ => keepsTo_of_forall h

theorem inside_bothExist (slot : Slot) : Inside (bothExist slot) :=
  inside_of_forall (bothExist_forall (fun _ _ => trivial) slot)

theorem inside_loadSlot (slot : Slot) : Inside (loadSlot B slot) :=
  inside_of_forall (loadSlot_forall (fun _ _ => trivial) slot)

theorem inside_minting (m : NodeCert.Minting B) : Inside (.ofExcept (NodeCert.generateSigned B m)) :=
  inside_of_forall (Program.Forall.ofExcept fun _ _ => trivial)

theorem inside_loadOrGenerate (m : NodeCert.Minting B) : Inside (loadOrGenerate os m) := by
  refine Inside.bind (inside_bothExist currentSlot) fun there => ?_
  cases there with
  | true => exact inside_loadSlot currentSlot
  | false =>
    refine Inside.bind (inside_minting m) fun node => ?_
    have hmake : Inside createDirAll := fun _ => stays_call .createDirAll trivial id
    refine hmake.bind fun _ => inside_hardenDirPermissions.bind fun _ => ?_
    refine Inside.bind (inside_atomicWrite (d := certFile) (by decide) _ _) fun _ => ?_
    exact Inside.bind (inside_atomicWrite (d := keyFile) (by decide) _ _) fun _ _ => trivial

theorem inside_rotate (m : NodeCert.Minting B) : Inside (rotate os m) := by
  refine Inside.bind (inside_bothExist currentSlot) fun there => ?_
  cases there with
  | false => exact fun _ => trivial
  | true =>
    have hlook : Inside (eitherExists prevSlot) :=
      inside_of_forall (eitherExists_forall (fun _ _ => trivial) prevSlot)
    refine hlook.bind fun there => ?_
    cases there with
    | true => exact fun _ => trivial
    | false =>
      refine Inside.bind (inside_loadSlot currentSlot) fun previous => ?_
      refine Inside.bind (inside_minting m) fun current => ?_
      refine inside_hardenDirPermissions.bind fun _ => ?_
      refine Inside.bind (inside_atomicWrite (d := certFilePrev) (by decide) _ _) fun _ => ?_
      refine Inside.bind (inside_atomicWrite (d := keyFilePrev) (by decide) _ _) fun _ => ?_
      refine Inside.bind (inside_atomicWrite (d := certFile) (by decide) _ _) fun _ => ?_
      exact Inside.bind (inside_atomicWrite (d := keyFile) (by decide) _ _) fun _ _ => trivial

theorem inside_call (os : Platform) (c : Call B) : Inside (c.program os) := by
  cases c with
  | loadOrGenerate m => exact (inside_loadOrGenerate m).bind fun _ _ => trivial
  | rotate m => exact (inside_rotate m).bind fun _ _ => trivial
  | loadPrevious =>
    have hload : Inside (loadPrevious B) :=
      inside_of_forall (loadPrevious_forall (fun _ _ => trivial) fun _ _ => trivial)
    exact hload.bind fun _ _ => trivial
  | retirePrevious =>
    have hremove : ∀ path ∈ [keyFilePrev, certFilePrev], ∀ files, (Op.removeFile path).KeepsTo territory files := by
      intro path hpath _
      simp only [List.mem_cons, List.not_mem_nil, or_false] at hpath
      rcases hpath with rfl | rfl
      · exact slot_mem_territory (by decide)
      · exact slot_mem_territory (by decide)
    have hretire : Inside retirePrevious :=
      inside_of_forall (retirePrevious_forall (fun _ _ => trivial) (fun _ _ => trivial) hremove)
    exact hretire.bind fun _ _ => trivial

/-- Any number of processes call the operations, whatever fails and whoever is stopped where: no other name
of the directory is made, unmade or led elsewhere, and no other file is changed. -/
theorem others_untouched {ι : Type} [DecidableEq ι] {s : Volume String} (hs : s.Tracked)
    {ls : List (Crowd (Op String) ι Op.Res DigTlsError Reply (Volume String) × ι)}
    {c : Crowd (Op String) ι Op.Res DigTlsError Reply (Volume String)}
    (hrun : History (Crowd.Step (blind String) fun p => ∃ call : Call B, p = call.program os) (Crowd.alone s) ls c) :
    ∀ q ∉ directoryFiles, c.state.lookup q = s.lookup q ∧
      ∀ i, s.lookup q = some i → c.state.inode i = s.inode i := by
  intro q hq
  have hmay : ∀ p : Task Reply, (∃ call : Call B, p = call.program os) → Stays (fun _ _ => True) ∅ p := by
    rintro _ ⟨call, rfl⟩
    exact inside_call os call ∅
  obtain ⟨ht, hspares⟩ := ((relies_atHome hmay s).run ⟨hs, Spares.refl territory s⟩ hrun).state
  refine ⟨?_, fun i hi => hspares.inode q hq i (lookup_eq_some_iff.mp hi).2⟩
  rw [ht.lookup_eq, hs.lookup_eq]
  exact hspares.entry q hq

def sharedDir : Volume String := oneFileDir "notes.txt" ⟨[110], 0o644#12, false⟩

theorem others_untouched_shared : ∃ ls c,
    History (Crowd.Step (blind String) fun p => ∃ call : Call toyBackend, p = call.program .unix)
      (Crowd.alone sharedDir : Crowd (Op String) ℕ Op.Res DigTlsError Reply (Volume String)) ls c ∧
    c.state.contents certFile = some (asBytes toyNodeOne.certPem) ∧ c.state.lookup "notes.txt" = some 0 ∧
    c.state.inode 0 = ⟨[110], 0o644#12, false⟩ := by
  let load : Task Reply := (Call.loadOrGenerate (toyMint 1 7)).program .unix
  let running : Crowd (Op String) ℕ Op.Res DigTlsError Reply (Volume String) :=
    ⟨sharedDir, Function.update (fun _ => none) 0 (some load)⟩
  have hgoes : ∃ ls c, History (Crowd.Step (blind String) fun p => ∃ call : Call toyBackend, p = call.program .unix)
      running ls c ∧ c.state = (exec (posix String) load sharedDir).2 :=
    Crowd.run_of_can (i := 0) (can_veiled Set.univ (can_exec load sharedDir)) rfl
  obtain ⟨ls, c, hrun, hstate⟩ := hgoes
  have hwhole := (History.single (Crowd.Step.starts (Crowd.alone sharedDir) 0 load rfl ⟨_, rfl⟩)).append hrun
  obtain ⟨hlookup, hinode⟩ := others_untouched (oneFileDir_tracked _ _) hwhole "notes.txt" (by decide)
  have hnotes : sharedDir.lookup "notes.txt" = some 0 := by decide
  refine ⟨_, c, hwhole, ?_, hlookup.trans hnotes, hinode 0 hnotes⟩
  rw [hstate]
  decide +kernel

end DigTls
