import DigTls.Store.Machine
import DigTls.Store.Recovery

/-! # One store on both platforms

The platforms differ in how a slot file is put in place and in what a failure leaves. Calls that nothing
interrupts cannot tell them apart, nor what lies in the directory beside the slot files.
-/
namespace DigTls
open EffectPrograms PosixVolume
variable {B : Backend} {os : Platform} {hidden : Set String} {a : Slots} {s t : Volume String}

section Slots
open SlotTask

theorem exec_eitherThere (c k : SlotFile) (a : Slots) :
    exec (slots os hidden) (eitherThere c k) a = (.ok ((a.contents c).isSome || (a.contents k).isSome), a) := by
  change exec (slots os hidden) (if (a.contents c).isSome = true then .done true else there k) a = _
  cases (a.contents c).isSome <;> rfl

/-- Where there is a file there is a directory, so a rotation is not stopped by its hardening. -/
theorem exec_persistRotation (p x : NodeCert) (h : a.files.isSome) :
    exec (slots os hidden) (SlotTask.persistRotation p x) a = (.ok ⟨p, x⟩,
      (((a.set .certPrev (some (asBytes p.certPem))).set .keyPrev (some (asBytes p.keyPem))).set .cert
        (some (asBytes x.certPem))).set .key (some (asBytes x.keyPem))) := by
  obtain ⟨_ | files⟩ := a
  · cases h
  · cases os <;> rfl

theorem files_of_contents {f : SlotFile} (h : (a.contents f).isSome) : a.files.isSome := by
  obtain ⟨_ | files⟩ := a
  · cases h
  · rfl

theorem loadOrGenerate_platforms (m : NodeCert.Minting B) (a : Slots) :
    exec (slots .unix hidden) (SlotTask.loadOrGenerate m) a =
      exec (slots .windows hidden) (SlotTask.loadOrGenerate m) a := by
  rw [SlotTask.loadOrGenerate, exec_bind, exec_bind, exec_bothThere, exec_bothThere]
  cases (a.contents .cert).isSome && (a.contents .key).isSome with
  | true => exact (exec_load .cert .key a).trans (exec_load .cert .key a).symm
  | false =>
    change exec _ (.ofExcept (NodeCert.generateSigned B m) >>= fun x => SlotTask.persistFresh x) a =
      exec _ (.ofExcept (NodeCert.generateSigned B m) >>= fun x => SlotTask.persistFresh x) a
    cases NodeCert.generateSigned B m with
    | error e => rfl
    | ok x => exact (exec_persistFresh x a).trans (exec_persistFresh x a).symm

theorem rotate_platforms (m : NodeCert.Minting B) (a : Slots) :
    exec (slots .unix hidden) (SlotTask.rotate m) a = exec (slots .windows hidden) (SlotTask.rotate m) a := by
  rw [SlotTask.rotate, exec_bind, exec_bind, exec_bothThere, exec_bothThere]
  cases hboth : (a.contents .cert).isSome && (a.contents .key).isSome with
  | false => rfl
  | true =>
    have hfiles : a.files.isSome := files_of_contents (by simpa using (Bool.and_eq_true _ _ ▸ hboth).1)
    dsimp only
    rw [if_pos rfl, exec_bind, exec_bind, exec_eitherThere, exec_eitherThere]
    cases (a.contents .certPrev).isSome || (a.contents .keyPrev).isSome with
    | true => rfl
    | false =>
      dsimp only
      rw [if_neg (by decide), exec_bind, exec_bind, exec_load, exec_load]
      cases a.pair B .cert .key with
      | error e => rfl
      | ok p =>
        change exec _ (.ofExcept (NodeCert.generateSigned B m) >>= fun x => SlotTask.persistRotation p x) a =
          exec _ (.ofExcept (NodeCert.generateSigned B m) >>= fun x => SlotTask.persistRotation p x) a
        cases NodeCert.generateSigned B m with
        | error e => rfl
        | ok x => exact (exec_persistRotation p x hfiles).trans (exec_persistRotation p x hfiles).symm

theorem loadPrevious_platforms (a : Slots) :
    exec (slots .unix hidden) (SlotTask.loadPrevious B) a =
      exec (slots .windows hidden) (SlotTask.loadPrevious B) a := by
  rw [SlotTask.loadPrevious, exec_bind, exec_bind, exec_bothThere, exec_bothThere]
  cases (a.contents .certPrev).isSome && (a.contents .keyPrev).isSome with
  | false => rfl
  | true =>
    dsimp only
    rw [if_pos rfl, exec_bind, exec_bind, exec_load, exec_load]
    cases a.pair B .certPrev .keyPrev <;> rfl

theorem retirePrevious_platforms (a : Slots) :
    exec (slots .unix hidden) SlotTask.retirePrevious a = exec (slots .windows hidden) SlotTask.retirePrevious a := by
  have hrun : ∀ op a, op ≠ SlotOp.harden → (slots .unix hidden).run op a = (slots .windows hidden).run op a := by
    intro op a hop
    cases op with
    | harden => exact absurd rfl hop
    | there | text | bytes | put | delete | makeDir => rfl
  exact exec_agree hrun (retirePrevious_slots (by simp) (by simp) (by simp) (by simp)) a

theorem onSlots_platforms (c : Call B) (a : Slots) :
    exec (slots .unix hidden) c.onSlots a = exec (slots .windows hidden) c.onSlots a := by
  cases c with
  | loadOrGenerate m =>
    rw [Call.onSlots, exec_bind, exec_bind, loadOrGenerate_platforms]
    rcases exec (slots .windows hidden) (SlotTask.loadOrGenerate m) a with ⟨_ | _, _⟩ <;> rfl
  | rotate m =>
    rw [Call.onSlots, exec_bind, exec_bind, rotate_platforms]
    rcases exec (slots .windows hidden) (SlotTask.rotate m) a with ⟨_ | _, _⟩ <;> rfl
  | loadPrevious =>
    rw [Call.onSlots, exec_bind, exec_bind, loadPrevious_platforms]
    rcases exec (slots .windows hidden) (SlotTask.loadPrevious B) a with ⟨_ | _, _⟩ <;> rfl
  | retirePrevious =>
    rw [Call.onSlots, exec_bind, exec_bind, retirePrevious_platforms]
    rcases exec (slots .windows hidden) SlotTask.retirePrevious a with ⟨_ | _, _⟩ <;> rfl

end Slots

def conduct (os : Platform) (s : Volume String) : List (Call B) → List (Except DigTlsError Reply) × Volume String
  | [] => ([], s)
  | c :: cs =>
    let step := exec (posix String) (c.program os) s
    let rest := conduct os step.2 cs
    (step.1 :: rest.1, rest.2)

/-- Two directories with the same slot files answer every sequence of calls alike, the one on Unix and the
other on Windows, and keep the same slot files. -/
theorem platforms_answer_alike (hs : s.Tracked) (ht : t.Tracked) (hsame : slotsOf s = slotsOf t) (cs : List (Call B)) :
    (conduct .unix s cs).1 = (conduct .windows t cs).1 ∧
      slotsOf (conduct .unix s cs).2 = slotsOf (conduct .windows t cs).2 := by
  induction cs generalizing s t with
  | nil => exact ⟨rfl, hsame⟩
  | cons c cs ih =>
    obtain ⟨u, hu, hutracked, huslots⟩ := exec_undisturbed .unix ∅ c hs
    obtain ⟨v, hv, hvtracked, hvslots⟩ := exec_undisturbed .windows ∅ c ht
    rw [hsame, onSlots_platforms] at hu huslots
    obtain ⟨hanswers, hslots⟩ := ih hutracked hvtracked (huslots.trans hvslots.symm)
    simp only [conduct, hu, hv]
    exact ⟨congrArg _ hanswers, hslots⟩

def oneFileDir (name : String) (node : Inode) : Volume String :=
  { emptyDir with
    entry := fun q => if q = name then some 0 else none
    inode := fun _ => node
    next := 1 }

theorem oneFileDir_tracked (name : String) (node : Inode) : (oneFileDir name node).Tracked := by
  have hentry : ∀ q i, (oneFileDir name node).entry q = some i → q = name ∧ i = 0 := by
    intro q i h
    simp only [oneFileDir] at h
    split_ifs at h with hq
    exact ⟨hq, (Option.some.inj h).symm⟩
  refine ⟨⟨fun p q i hp hq => ?_, fun p i hp => ?_⟩, fun p i hp => ?_, fun hp => ?_, le_rfl⟩
  · exact (hentry p i hp).1.trans (hentry q i hq).1.symm
  · rw [(hentry p i hp).2]
    exact Nat.one_pos
  · simp [oneFileDir, emptyDir] at hp
  · simp [oneFileDir, emptyDir, Volume.present] at hp

def litteredDir : Volume String :=
  { emptyDir with
    entry := fun q => if q = tmpPath keyFile then some 0 else none
    inode := fun _ => ⟨[107], 0o644#12, true⟩
    next := 1 }

theorem litteredDir_tracked : litteredDir.Tracked := oneFileDir_tracked (tmpPath keyFile) ⟨[107], 0o644#12, true⟩

theorem litteredDir_slots : slotsOf litteredDir = slotsOf emptyDir := by
  refine slotsOf_congr rfl fun f => ?_
  have hnone : litteredDir.entry f.path = none := if_neg (SlotFile.path_ne_tmpPath f .key)
  rw [emptyDir_vacant.contents, Volume.contents_eq_none_iff]
  simp [Volume.lookup, hnone]

theorem platforms_answer_alike_littered :
    (conduct .unix emptyDir toyCalls).1 = (conduct .windows litteredDir toyCalls).1 :=
  (platforms_answer_alike emptyDir_tracked litteredDir_tracked litteredDir_slots.symm toyCalls).1

end DigTls
