import DigTls.Peer.NodeCert

/-! # The identity directory

A peer keeps its identity in two files of a directory, and during a rotation the retiring
one in two more. The four operations are programs over the file system; paths are the names
inside the directory. Every file is replaced by writing a sibling and renaming it.
-/
namespace DigTls
open EffectPrograms PosixVolume

abbrev Task (α : Type) := Program (Op String) Op.Res DigTlsError α

inductive Platform where
  | unix | windows
  deriving DecidableEq

def certFile : String := "node.crt"
def keyFile : String := "node.key"
def certFilePrev : String := "node.crt.prev"
def keyFilePrev : String := "node.key.prev"

inductive Secret where
  | yes | no
  deriving DecidableEq

def tmpPath (dest : String) : String := dest ++ ".tmp"

theorem tmpPath_ne (dest : String) : tmpPath dest ≠ dest := by
  intro h
  have hlen := congrArg String.length h
  have htmp : ".tmp".length = 4 := by decide
  simp only [tmpPath, String.length_append, htmp] at hlen
  omega

def orFail {α : Type} : Except IoError α → Task α
  | .ok a => .done a
  | .error e => .raise (.io e)

def pathExists (path : String) : Task Bool := .call (.pathExists path) .done
def readToString (path : String) : Task String := .call (.readToString path) orFail
def fsRead (path : String) : Task Bytes := .call (.read path) orFail
def fsCreate (path : String) (mode : Mode) : Task ℕ := .call (.create path mode) orFail
def writeAll (file : ℕ) (data : Bytes) : Task Unit := .call (.writeAll file data) orFail
def setPermissions (path : String) (mode : Mode) : Task Unit := .call (.setPermissions path mode) orFail
def openWrite (path : String) : Task ℕ := .call (.openWrite path) orFail
def syncAll (file : ℕ) : Task Unit := .call (.syncAll file) orFail
def fsRename (source target : String) : Task Unit := .call (.rename source target) orFail
def removeFile (path : String) : Task Unit := .call (.removeFile path) orFail
def createDirAll : Task Unit := .call .createDirAll orFail
def setDirPermissions (mode : Mode) : Task Unit := .call (.setDirPermissions mode) orFail
def syncDir : Task Unit := .call .syncDir orFail

def fsWrite (path : String) (contents : Bytes) : Task Unit := do
  let file ← fsCreate path 0o666#12
  writeAll file contents

/-- On Windows the file is written plainly; the ACL hardening after it is best effort and its
outcome is ignored. -/
def writeKeyFile : Platform → String → Bytes → Task Unit
  | .unix, path, keyPem => do
    let file ← fsCreate path 0o600#12
    writeAll file keyPem
    setPermissions path 0o600#12
  | .windows, path, keyPem => fsWrite path keyPem

/-- On Windows a rename that fails over an existing target is retried after removing it. -/
def atomicRename : Platform → String → String → Task Unit
  | .unix, source, target => fsRename source target
  | .windows, source, target => .call (.rename source target) fun
    | .ok () => .done ()
    | .error e => do
      if ← pathExists target then
        removeFile target
        fsRename source target
      else .raise (.io e)

def fsyncDir : Platform → Task Unit
  | .unix => syncDir
  | .windows => .done ()

def hardenDirPermissions : Platform → Task Unit
  | .unix => setDirPermissions 0o700#12
  | .windows => .done ()

section Operations
variable (os : Platform)

def stage (tmp : String) (contents : Bytes) : Secret → Task Unit
  | .yes => writeKeyFile os tmp contents
  | .no => fsWrite tmp contents

def atomicWrite (dest : String) (contents : Bytes) (secret : Secret) : Task Unit := do
  stage os (tmpPath dest) contents secret
  let file ← openWrite (tmpPath dest)
  syncAll file
  atomicRename os (tmpPath dest) dest
  fsyncDir os

structure Slot where
  cert : String
  key : String
  deriving DecidableEq

def currentSlot : Slot := ⟨certFile, keyFile⟩
def prevSlot : Slot := ⟨certFilePrev, keyFilePrev⟩

/-- The second file is looked for only if the first one is there. -/
def bothExist (slot : Slot) : Task Bool := do
  if ← pathExists slot.cert then pathExists slot.key else return false

/-- The second file is looked for only if the first one is missing. -/
def eitherExists (slot : Slot) : Task Bool := do
  if ← pathExists slot.cert then return true else pathExists slot.key

variable (B : Backend)

def loadSlot (slot : Slot) : Task NodeCert := do
  let certPem ← readToString slot.cert
  let keyPem ← readToString slot.key
  .ofExcept (NodeCert.fromPem B certPem keyPem)

def writeCert (path : String) (node : NodeCert) : Task Unit :=
  atomicWrite os path (asBytes node.certPem) .no

def writeKey (path : String) (node : NodeCert) : Task Unit :=
  atomicWrite os path (asBytes node.keyPem) .yes

def persistFresh (node : NodeCert) : Task NodeCert := do
  createDirAll
  hardenDirPermissions os
  writeCert os certFile node
  writeKey os keyFile node
  return node

variable {B}

def loadOrGenerate (m : NodeCert.Minting B) : Task NodeCert := do
  if ← bothExist currentSlot then loadSlot B currentSlot
  else
    let node ← .ofExcept (NodeCert.generateSigned B m)
    persistFresh os node

def noCurrent : DigTlsError :=
  .certGen "rotate: no current node cert to rotate (call load_or_generate first)"

def unretired : DigTlsError :=
  .certGen "rotate: a previous rotation is still un-retired (.prev slot present); call retire_previous before rotating again"

/-- The writes of a rotation: the retiring pair into the previous slot, then the new pair
over the current one. -/
def persistRotation (previous current : NodeCert) : Task RotatedNodeCert := do
  hardenDirPermissions os
  writeCert os certFilePrev previous
  writeKey os keyFilePrev previous
  writeCert os certFile current
  writeKey os keyFile current
  return ⟨previous, current⟩

def rotate (m : NodeCert.Minting B) : Task RotatedNodeCert := do
  if ← bothExist currentSlot then
    if ← eitherExists prevSlot then .raise unretired
    else
      let previous ← loadSlot B currentSlot
      let current ← .ofExcept (NodeCert.generateSigned B m)
      persistRotation os previous current
  else .raise noCurrent

variable (B)

def loadPrevious : Task (Option NodeCert) := do
  if ← bothExist prevSlot then
    let node ← loadSlot B prevSlot
    return some node
  else return none

/-- The old key is read once more, into a buffer that is wiped, before its file is deleted. -/
def retireKey : Task Unit := do
  if ← pathExists keyFilePrev then
    let _ ← fsRead keyFilePrev
    removeFile keyFilePrev
  else return ()

def retireCert : Task Unit := do
  if ← pathExists certFilePrev then removeFile certFilePrev else return ()

def retirePrevious : Task Unit := do
  retireKey
  retireCert

inductive Call (B : Backend) where
  | loadOrGenerate (m : NodeCert.Minting B)
  | rotate (m : NodeCert.Minting B)
  | loadPrevious
  | retirePrevious

inductive Reply where
  | node (node : NodeCert)
  | rotated (r : RotatedNodeCert)
  | previous (node : Option NodeCert)
  | retired
  deriving DecidableEq

variable {B}

def Call.program : Call B → Task Reply
  | .loadOrGenerate m => DigTls.loadOrGenerate os m >>= fun node => .done (.node node)
  | .rotate m => DigTls.rotate os m >>= fun r => .done (.rotated r)
  | .loadPrevious => DigTls.loadPrevious B >>= fun node => .done (.previous node)
  | .retirePrevious => DigTls.retirePrevious >>= fun _ => .done .retired

def Reply.current : Reply → Option NodeCert
  | .node current => some current
  | .rotated r => some r.current
  | .previous _ | .retired => none

end Operations

end DigTls
