import DigTls.Effects.Layers
import DigTls.Store.SlotWrites

/-! # The directory as four files replaced at once

The same operations on four files that are there or not, each replaced or deleted as a whole, without
siblings, modes, handles or a past. What differs between the platforms is what a replacement may
leave that does not go through: on Unix the old file or the new one, on Windows the old one or none.
-/
namespace DigTls
open EffectPrograms PosixVolume

inductive SlotFile where
  | cert | key | certPrev | keyPrev
  deriving DecidableEq

namespace SlotFile

def path : SlotFile → String
  | cert => certFile
  | key => keyFile
  | certPrev => certFilePrev
  | keyPrev => keyFilePrev

def secret : SlotFile → Secret
  | cert | certPrev => .no
  | key | keyPrev => .yes

theorem path_mem (f : SlotFile) : f.path ∈ slotFiles := by cases f <;> decide
theorem path_injective : Function.Injective path := by
  intro f g h
  cases f <;> cases g <;> first | rfl | exact absurd h (by decide)

theorem path_ne_tmpPath (f g : SlotFile) : f.path ≠ tmpPath g.path :=
  tmpPath_not_slot g.path g.path_mem f.path f.path_mem

end SlotFile

/-- The slot files, if there is a directory for them. -/
@[ext] structure Slots where
  files : Option (SlotFile → Option Bytes)

namespace Slots

def contents (a : Slots) (f : SlotFile) : Option Bytes := a.files.bind fun files => files f

def set (a : Slots) (f : SlotFile) (contents : Option Bytes) : Slots :=
  ⟨a.files.map fun files => Function.update files f contents⟩

def made (a : Slots) : Slots := ⟨some (a.files.getD fun _ => none)⟩

variable {a b : Slots} {f g : SlotFile} {contents : Option Bytes}

theorem contents_set_of_ne (h : g ≠ f) : (a.set f contents).contents g = a.contents g := by
  obtain ⟨_ | files⟩ := a
  · rfl
  · exact Function.update_of_ne h _ _

theorem contents_set_self (h : a.files.isSome) : (a.set f contents).contents f = contents := by
  obtain ⟨_ | files⟩ := a
  · cases h
  · exact Function.update_self f contents files

theorem set_eq_self (h : a.files = none) : a.set f contents = a := by
  obtain ⟨_ | files⟩ := a
  · rfl
  · cases h

@[simp] theorem files_set : (a.set f contents).files.isSome = a.files.isSome := by simp [set]
@[simp] theorem files_made : a.made.files.isSome = true := rfl

@[simp] theorem contents_made : a.made.contents f = a.contents f := by
  obtain ⟨_ | files⟩ := a <;> rfl

theorem ext_contents (hfiles : a.files.isSome = b.files.isSome) (hsame : ∀ f, a.contents f = b.contents f) :
    a = b := by
  obtain ⟨_ | files⟩ := a
  · obtain ⟨_ | files⟩ := b
    · rfl
    · cases hfiles
  · obtain ⟨_ | files'⟩ := b
    · cases hfiles
    · exact congrArg (fun g => Slots.mk (some g)) (funext hsame)

end Slots

/-- The text of a file that may be missing, or not UTF-8. -/
def textOf : Option Bytes → Except DigTlsError String
  | none => .error (.io .notFound)
  | some bytes =>
    match fromUtf8 bytes with
    | none => .error (.io .invalidData)
    | some text => .ok text

def bytesOf : Option Bytes → Except DigTlsError Bytes
  | none => .error (.io .notFound)
  | some bytes => .ok bytes

inductive SlotOp where
  | there (f : SlotFile)
  | text (f : SlotFile)
  | bytes (f : SlotFile)
  | put (f : SlotFile) (contents : Bytes)
  | delete (f : SlotFile)
  | makeDir
  | harden
  deriving DecidableEq

abbrev SlotOp.Res : SlotOp → Type
  | .there _ => Bool
  | .text _ => Except DigTlsError String
  | .bytes _ => Except DigTlsError Bytes
  | _ => Except DigTlsError Unit

/-- An answer that there must be a directory for. -/
def Slots.answer (a : Slots) : Except DigTlsError Unit :=
  if a.files.isSome then .ok () else .error (.io .notFound)

def Slots.run (os : Platform) : (op : SlotOp) → Slots → op.Res × Slots
  | .there f, a => ((a.contents f).isSome, a)
  | .text f, a => (textOf (a.contents f), a)
  | .bytes f, a => (bytesOf (a.contents f), a)
  | .put f contents, a => (a.answer, a.set f (some contents))
  | .delete f, a => if (a.contents f).isSome then (.ok (), a.set f none) else (.error (.io .notFound), a)
  | .makeDir, a => (.ok (), a.made)
  | .harden, a => (match os with | .unix => a.answer | .windows => .ok (), a)

/-- What a call that does not go through may leave. -/
inductive Falls (os : Platform) : SlotOp → Slots → Slots → Prop
  | there (f : SlotFile) (a : Slots) : Falls os (.there f) a a
  | text (f : SlotFile) (a : Slots) : Falls os (.text f) a a
  | bytes (f : SlotFile) (a : Slots) : Falls os (.bytes f) a a
  | kept (f : SlotFile) (contents : Bytes) (a : Slots) : Falls os (.put f contents) a a
  | replaced (f : SlotFile) (contents : Bytes) (a : Slots) (hos : os = .unix) :
      Falls os (.put f contents) a (a.set f (some contents))
  | removed (f : SlotFile) (contents : Bytes) (a : Slots) (hos : os = .windows) :
      Falls os (.put f contents) a (a.set f none)
  | delete (f : SlotFile) (a : Slots) : Falls os (.delete f) a a
  | unmade (a : Slots) : Falls os .makeDir a a
  | made (a : Slots) : Falls os .makeDir a a.made
  | harden (a : Slots) (hos : os = .unix) : Falls os .harden a a

/-- A call that fails answers with an error of the file system. An existence test that fails, as those
of the names in `hidden` may, answers that nothing is there. -/
inductive SlotFault (os : Platform) (hidden : Set String) : (op : SlotOp) → Slots → op.Res → Slots → Prop
  | unseen {f : SlotFile} (h : f.path ∈ hidden) (a : Slots) : SlotFault os hidden (.there f) a false a
  | text {f : SlotFile} {a b : Slots} (e : IoError) (left : Falls os (.text f) a b) :
      SlotFault os hidden (.text f) a (.error (.io e)) b
  | bytes {f : SlotFile} {a b : Slots} (e : IoError) (left : Falls os (.bytes f) a b) :
      SlotFault os hidden (.bytes f) a (.error (.io e)) b
  | put {f : SlotFile} {contents : Bytes} {a b : Slots} (e : IoError) (left : Falls os (.put f contents) a b) :
      SlotFault os hidden (.put f contents) a (.error (.io e)) b
  | delete {f : SlotFile} {a b : Slots} (e : IoError) (left : Falls os (.delete f) a b) :
      SlotFault os hidden (.delete f) a (.error (.io e)) b
  | makeDir {a b : Slots} (e : IoError) (left : Falls os .makeDir a b) :
      SlotFault os hidden .makeDir a (.error (.io e)) b
  | harden {a b : Slots} (e : IoError) (left : Falls os .harden a b) : SlotFault os hidden .harden a (.error (.io e)) b

def slots (os : Platform) (hidden : Set String) : Machine SlotOp SlotOp.Res Slots where
  run := Slots.run os
  fault := SlotFault os hidden
  torn := Falls os

abbrev SlotTask (α : Type) := Program SlotOp SlotOp.Res DigTlsError α

namespace SlotTask

def there (f : SlotFile) : SlotTask Bool := .call (.there f) .done
def text (f : SlotFile) : SlotTask String := .call (.text f) .ofExcept
def bytes (f : SlotFile) : SlotTask Bytes := .call (.bytes f) .ofExcept
def put (f : SlotFile) (contents : Bytes) : SlotTask Unit := .call (.put f contents) .ofExcept
def delete (f : SlotFile) : SlotTask Unit := .call (.delete f) .ofExcept
def makeDir : SlotTask Unit := .call .makeDir .ofExcept
def harden : SlotTask Unit := .call .harden .ofExcept

def bothThere (c k : SlotFile) : SlotTask Bool := do
  if ← there c then there k else return false

def eitherThere (c k : SlotFile) : SlotTask Bool := do
  if ← there c then return true else there k

variable (B : Backend)

def load (c k : SlotFile) : SlotTask NodeCert := do
  let certPem ← text c
  let keyPem ← text k
  .ofExcept (NodeCert.fromPem B certPem keyPem)

def persistFresh (node : NodeCert) : SlotTask NodeCert := do
  makeDir
  harden
  put .cert (asBytes node.certPem)
  put .key (asBytes node.keyPem)
  return node

variable {B} in
def loadOrGenerate (m : NodeCert.Minting B) : SlotTask NodeCert := do
  if ← bothThere .cert .key then load B .cert .key
  else
    let node ← .ofExcept (NodeCert.generateSigned B m)
    persistFresh node

def persistRotation (previous current : NodeCert) : SlotTask RotatedNodeCert := do
  harden
  put .certPrev (asBytes previous.certPem)
  put .keyPrev (asBytes previous.keyPem)
  put .cert (asBytes current.certPem)
  put .key (asBytes current.keyPem)
  return ⟨previous, current⟩

variable {B} in
def rotate (m : NodeCert.Minting B) : SlotTask RotatedNodeCert := do
  if ← bothThere .cert .key then
    if ← eitherThere .certPrev .keyPrev then .raise unretired
    else
      let previous ← load B .cert .key
      let current ← .ofExcept (NodeCert.generateSigned B m)
      persistRotation previous current
  else .raise noCurrent

def loadPrevious : SlotTask (Option NodeCert) := do
  if ← bothThere .certPrev .keyPrev then
    let node ← load B .certPrev .keyPrev
    return some node
  else return none

def retireKey : SlotTask Unit := do
  if ← there .keyPrev then
    let _ ← bytes .keyPrev
    delete .keyPrev
  else return ()

def retireCert : SlotTask Unit := do
  if ← there .certPrev then delete .certPrev else return ()

def retirePrevious : SlotTask Unit := do
  retireKey
  retireCert

end SlotTask

variable {B : Backend}

def Call.onSlots : Call B → SlotTask Reply
  | .loadOrGenerate m => SlotTask.loadOrGenerate m >>= fun node => .done (.node node)
  | .rotate m => SlotTask.rotate m >>= fun r => .done (.rotated r)
  | .loadPrevious => SlotTask.loadPrevious B >>= fun node => .done (.previous node)
  | .retirePrevious => SlotTask.retirePrevious >>= fun _ => .done .retired

def implement (os : Platform) : (op : SlotOp) → Task op.Res
  | .there f => pathExists f.path
  | .text f => (readToString f.path).attempt
  | .bytes f => (fsRead f.path).attempt
  | .put f contents => (atomicWrite os f.path contents f.secret).attempt
  | .delete f => (removeFile f.path).attempt
  | .makeDir => createDirAll.attempt
  | .harden => (hardenDirPermissions os).attempt

section Expand
variable (os : Platform)

open SlotTask

@[simp] theorem expand_there (f : SlotFile) : (there f).expand (implement os) = pathExists f.path := rfl

@[simp] theorem expand_text (f : SlotFile) : (text f).expand (implement os) = readToString f.path :=
  Program.expand_attempt _ (Program.attempt_bind_ofExcept _)

@[simp] theorem expand_bytes (f : SlotFile) : (bytes f).expand (implement os) = fsRead f.path :=
  Program.expand_attempt _ (Program.attempt_bind_ofExcept _)

@[simp] theorem expand_put (f : SlotFile) (contents : Bytes) :
    (put f contents).expand (implement os) = atomicWrite os f.path contents f.secret :=
  Program.expand_attempt _ (Program.attempt_bind_ofExcept _)

@[simp] theorem expand_delete (f : SlotFile) : (delete f).expand (implement os) = removeFile f.path :=
  Program.expand_attempt _ (Program.attempt_bind_ofExcept _)

@[simp] theorem expand_makeDir : makeDir.expand (implement os) = createDirAll :=
  Program.expand_attempt _ (Program.attempt_bind_ofExcept _)

@[simp] theorem expand_harden : harden.expand (implement os) = hardenDirPermissions os :=
  Program.expand_attempt _ (Program.attempt_bind_ofExcept _)

theorem expand_ite (b : Bool) {α : Type} (p q : SlotTask α) : (if b = true then p else q).expand (implement os) =
    if b = true then p.expand (implement os) else q.expand (implement os) := by
  cases b <;> rfl

theorem expand_bothThere (c k : SlotFile) :
    (bothThere c k).expand (implement os) = bothExist ⟨c.path, k.path⟩ := by
  simp [bothThere, bothExist, expand_ite]

theorem expand_eitherThere (c k : SlotFile) :
    (eitherThere c k).expand (implement os) = eitherExists ⟨c.path, k.path⟩ := by
  simp [eitherThere, eitherExists, expand_ite]

theorem expand_load (c k : SlotFile) : (load B c k).expand (implement os) = loadSlot B ⟨c.path, k.path⟩ := by
  simp [load, loadSlot]

theorem expand_loadOrGenerate (m : NodeCert.Minting B) :
    (SlotTask.loadOrGenerate m).expand (implement os) = DigTls.loadOrGenerate os m := by
  simp only [SlotTask.loadOrGenerate, DigTls.loadOrGenerate, Program.expand_bind, expand_ite, expand_bothThere,
    expand_load, Program.expand_ofExcept, SlotTask.persistFresh, DigTls.persistFresh, expand_makeDir,
    expand_harden, expand_put, Program.pure_eq, Program.expand_done]
  rfl

theorem expand_rotate (m : NodeCert.Minting B) :
    (SlotTask.rotate m).expand (implement os) = DigTls.rotate os m := by
  simp only [SlotTask.rotate, DigTls.rotate, Program.expand_bind, expand_ite, expand_bothThere, expand_eitherThere,
    expand_load, Program.expand_ofExcept, SlotTask.persistRotation, DigTls.persistRotation, expand_harden,
    expand_put, Program.pure_eq, Program.expand_done, Program.expand_raise]
  rfl

theorem expand_loadPrevious : (SlotTask.loadPrevious B).expand (implement os) = DigTls.loadPrevious B := by
  simp only [SlotTask.loadPrevious, DigTls.loadPrevious, Program.expand_bind, expand_ite, expand_bothThere,
    expand_load, Program.pure_eq, Program.expand_done]
  rfl

theorem expand_retirePrevious : SlotTask.retirePrevious.expand (implement os) = DigTls.retirePrevious := by
  simp only [SlotTask.retirePrevious, DigTls.retirePrevious, SlotTask.retireKey, DigTls.retireKey,
    SlotTask.retireCert, DigTls.retireCert, Program.expand_bind, expand_ite, expand_there, expand_bytes,
    expand_delete, Program.pure_eq, Program.expand_done]
  rfl

/-- The operations of the source are those of the slots, carried out on the file system. -/
theorem expand_onSlots (c : Call B) : c.onSlots.expand (implement os) = c.program os := by
  cases c with
  | loadOrGenerate m =>
    simp only [Call.onSlots, Call.program, Program.expand_bind, expand_loadOrGenerate, Program.expand_done]
  | rotate m => simp only [Call.onSlots, Call.program, Program.expand_bind, expand_rotate, Program.expand_done]
  | loadPrevious =>
    simp only [Call.onSlots, Call.program, Program.expand_bind, expand_loadPrevious, Program.expand_done]
  | retirePrevious =>
    simp only [Call.onSlots, Call.program, Program.expand_bind, expand_retirePrevious, Program.expand_done]

end Expand

end DigTls
