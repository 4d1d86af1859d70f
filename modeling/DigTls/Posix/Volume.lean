import DigTls.Effects.Program
import Mathlib.Data.BitVec
import Mathlib.Data.Set.Basic
import Mathlib.Logic.Function.Basic

/-! # One directory of a POSIX file system

The volume shows one directory: its entries, the files they lead to, and the path
under which the directory itself hangs. An entry leads to an inode number, so a file
keeps its data when it is renamed and a handle keeps its file when the name moves on.
Next to what is visible the volume records what a loss of power may still undo:
`past` holds the values an entry has had since the directory was last synced, and a
file is `dirty` from its first write to its next sync.

Refused permissions are not modelled as such: they are among the failing answers
any call may give (`Fault`). An existence test has no error to report, so a failing one
answers that nothing is there: `veiled` is the volume with the names at which this may happen,
`posix` the one where it happens at none of them.
-/
namespace PosixVolume
open EffectPrograms

abbrev Bytes := List UInt8
abbrev Mode := BitVec 12

def asBytes (text : String) : Bytes := text.toByteArray.data.toList

def fromUtf8 (bytes : Bytes) : Option String := String.fromUTF8? ⟨bytes.toArray⟩

@[simp] theorem fromUtf8_asBytes (text : String) : fromUtf8 (asBytes text) = some text := by
  have h : (⟨(asBytes text).toArray⟩ : ByteArray) = text.toByteArray := by simp [asBytes]
  rw [fromUtf8, h]
  exact dif_pos text.isValidUTF8

theorem asBytes_injective : Function.Injective asBytes := by
  intro a b h
  have hs := congrArg fromUtf8 h
  simpa using hs

inductive IoError where
  | notFound
  | invalidData
  | other (detail : String)
  deriving DecidableEq

structure Inode where
  data : Bytes
  mode : Mode
  dirty : Bool
  deriving DecidableEq

/-- A directory with names in `ν`. It exists when all `depth` components of its path
do; `made` of them exist now and `anchored` of them survive a loss of power. -/
structure Volume (ν : Type) where
  depth : ℕ
  made : ℕ
  anchored : ℕ
  dirMode : Mode
  umask : Mode
  entry : ν → Option ℕ
  past : ν → List (Option ℕ)
  inode : ℕ → Inode
  next : ℕ

/-- The calls the standard library makes for the file operations of a program. -/
inductive Op (ν : Type) where
  | pathExists (path : ν)
  | readToString (path : ν)
  | read (path : ν)
  | create (path : ν) (mode : Mode)
  | writeAll (file : ℕ) (data : Bytes)
  | setPermissions (path : ν) (mode : Mode)
  | openWrite (path : ν)
  | syncAll (file : ℕ)
  | rename (source target : ν)
  | removeFile (path : ν)
  | createDirAll
  | setDirPermissions (mode : Mode)
  | syncDir
  deriving DecidableEq

/-- What a call answers. An existence test has no error to report. -/
abbrev Op.Res {ν : Type} : Op ν → Type
  | .pathExists _ => Bool
  | .readToString _ => Except IoError String
  | .read _ => Except IoError Bytes
  | .create _ _ | .openWrite _ => Except IoError ℕ
  | _ => Except IoError Unit

namespace Volume
variable {ν : Type} [DecidableEq ν]

def present (s : Volume ν) : Bool := s.depth ≤ s.made

def lookup (s : Volume ν) (path : ν) : Option ℕ := if s.present then s.entry path else none

def contents (s : Volume ν) (path : ν) : Option Bytes :=
  (s.lookup path).map fun i => (s.inode i).data

/-- Change one entry of the directory, remembering the value it had. -/
def relink (s : Volume ν) (path : ν) (target : Option ℕ) : Volume ν :=
  { s with
    entry := Function.update s.entry path target
    past := Function.update s.past path (s.entry path :: s.past path) }

def refile (s : Volume ν) (file : ℕ) (node : Inode) : Volume ν :=
  { s with inode := Function.update s.inode file node }

/-- A file written from its start: bytes beyond the new ones stay. -/
def overwrite (s : Volume ν) (file : ℕ) (data : Bytes) : Volume ν :=
  s.refile file
    { s.inode file with data := data ++ (s.inode file).data.drop data.length, dirty := true }

/-- `open` with create and truncate: an existing file keeps its mode, a new one gets the
requested mode less the umask. -/
def create (s : Volume ν) (path : ν) (mode : Mode) : Except IoError ℕ × Volume ν :=
  if s.present then
    match s.entry path with
    | some i => (.ok i, s.refile i { s.inode i with data := [], dirty := true })
    | none =>
      let fresh := s.refile s.next ⟨[], mode &&& ~~~s.umask, true⟩
      (.ok s.next, { fresh.relink path (some s.next) with next := s.next + 1 })
  else (.error .notFound, s)

/-- `rename`: the target is replaced in the same step; a name renamed to itself stays. -/
def rename (s : Volume ν) (source target : ν) : Except IoError Unit × Volume ν :=
  match s.lookup source with
  | none => (.error .notFound, s)
  | some i =>
    if source = target then (.ok (), s)
    else (.ok (), (s.relink target (some i)).relink source none)

def removeFile (s : Volume ν) (path : ν) : Except IoError Unit × Volume ν :=
  match s.lookup path with
  | none => (.error .notFound, s)
  | some _ => (.ok (), s.relink path none)

/-- The directory with `made` leading components of its path in place. Its last component
comes into being empty. -/
def makePath (s : Volume ν) (made : ℕ) : Volume ν :=
  if s.present then s
  else
    { s with
      made := made
      dirMode := 0o777#12 &&& ~~~s.umask
      entry := fun _ => none
      past := fun _ => [] }

/-- The healthy calls. -/
def run : (op : Op ν) → Volume ν → op.Res × Volume ν
  | .pathExists path, s => ((s.lookup path).isSome, s)
  | .readToString path, s =>
    match s.contents path with
    | none => (.error .notFound, s)
    | some bytes =>
      match fromUtf8 bytes with
      | none => (.error .invalidData, s)
      | some text => (.ok text, s)
  | .read path, s =>
    match s.contents path with
    | none => (.error .notFound, s)
    | some bytes => (.ok bytes, s)
  | .create path mode, s => s.create path mode
  | .writeAll file data, s => (.ok (), s.overwrite file data)
  | .setPermissions path mode, s =>
    match s.lookup path with
    | none => (.error .notFound, s)
    | some i => (.ok (), s.refile i { s.inode i with mode := mode })
  | .openWrite path, s =>
    match s.lookup path with
    | none => (.error .notFound, s)
    | some i => (.ok i, s)
  | .syncAll file, s => (.ok (), s.refile file { s.inode file with dirty := false })
  | .rename source target, s => s.rename source target
  | .removeFile path, s => s.removeFile path
  | .createDirAll, s => (.ok (), s.makePath s.depth)
  | .setDirPermissions mode, s =>
    if s.present then (.ok (), { s with dirMode := mode }) else (.error .notFound, s)
  | .syncDir, s =>
    if s.present then (.ok (), { s with past := fun _ => [] }) else (.error .notFound, s)

/-- What a call that did not take full effect may have done: a write may have put down
any first part of its bytes, the making of a path any first part of its components,
and every other call is all or nothing. -/
inductive Partial : Op ν → Volume ν → Volume ν → Prop
  | unchanged (op : Op ν) (s : Volume ν) : Partial op s s
  | wrote (file : ℕ) (data : Bytes) (s : Volume ν) (k : ℕ) :
      Partial (.writeAll file data) s (s.overwrite file (data.take k))
  | dug (s : Volume ν) (k : ℕ) (low : s.made ≤ k) (high : k ≤ s.depth) :
      Partial .createDirAll s (s.makePath k)

inductive Fault : (op : Op ν) → Volume ν → op.Res → Volume ν → Prop
  | readToString (path : ν) (s : Volume ν) (e : IoError) : Fault (.readToString path) s (.error e) s
  | read (path : ν) (s : Volume ν) (e : IoError) : Fault (.read path) s (.error e) s
  | create (path : ν) (mode : Mode) (s : Volume ν) (e : IoError) :
      Fault (.create path mode) s (.error e) s
  | writeAll (file : ℕ) (data : Bytes) (s t : Volume ν) (e : IoError)
      (left : Partial (.writeAll file data) s t) : Fault (.writeAll file data) s (.error e) t
  | setPermissions (path : ν) (mode : Mode) (s : Volume ν) (e : IoError) :
      Fault (.setPermissions path mode) s (.error e) s
  | openWrite (path : ν) (s : Volume ν) (e : IoError) : Fault (.openWrite path) s (.error e) s
  | syncAll (file : ℕ) (s : Volume ν) (e : IoError) : Fault (.syncAll file) s (.error e) s
  | rename (source target : ν) (s : Volume ν) (e : IoError) :
      Fault (.rename source target) s (.error e) s
  | removeFile (path : ν) (s : Volume ν) (e : IoError) : Fault (.removeFile path) s (.error e) s
  | createDirAll (s t : Volume ν) (e : IoError) (left : Partial .createDirAll s t) :
      Fault .createDirAll s (.error e) t
  | setDirPermissions (mode : Mode) (s : Volume ν) (e : IoError) :
      Fault (.setDirPermissions mode) s (.error e) s
  | syncDir (s : Volume ν) (e : IoError) : Fault .syncDir s (.error e) s

/-- The failing answers when the existence tests of the names in `hidden` may fail as well. -/
inductive VeiledFault (hidden : Set ν) : (op : Op ν) → Volume ν → op.Res → Volume ν → Prop
  | fault {op : Op ν} {s t : Volume ν} {r : op.Res} (h : Fault op s r t) : VeiledFault hidden op s r t
  | unseen {path : ν} (h : path ∈ hidden) (s : Volume ν) :
      VeiledFault hidden (.pathExists path) s false s

end Volume

/-- The volume as a machine for file programs, its existence tests truthful. -/
def posix (ν : Type) [DecidableEq ν] : Machine (Op ν) Op.Res (Volume ν) where
  run := Volume.run
  fault := Volume.Fault
  torn := Volume.Partial

/-- The volume whose existence tests may fail at the names in `hidden`. -/
def veiled {ν : Type} [DecidableEq ν] (hidden : Set ν) : Machine (Op ν) Op.Res (Volume ν) :=
  { posix ν with fault := Volume.VeiledFault hidden }

/-- The volume whose existence tests may all fail. -/
abbrev blind (ν : Type) [DecidableEq ν] : Machine (Op ν) Op.Res (Volume ν) := veiled Set.univ

end PosixVolume
