import DigTls.Store.Outcomes

/-! # Runs of calls on one directory

A run is any sequence of calls of the four operations, each cut short or not; whether a loss
of power may come between them is a parameter. Every state inside a call is the end of that
call cut there, so what holds at the end of all runs holds inside the calls as well.
-/
namespace DigTls
open EffectPrograms PosixVolume
variable {B : Backend}

inductive Event (B : Backend) where
  | call (c : Call B) (trace : List (Op String)) (o : Option (Except DigTlsError Reply))
  | powerLoss

/-- One event, `loss` being what a loss of power may do. -/
inductive Step (loss : Volume String → Volume String → Prop) : Volume String → Event B → Volume String → Prop
  | call {c : Call B} {trace : List (Op String)} {o : Option (Except DigTlsError Reply)}
      {s t : Volume String} (h : Outcome (posix String) (c.program .unix) s trace o t) :
      Step loss s (.call c trace o) t
  | powerLoss {s t : Volume String} (h : loss s t) : Step loss s .powerLoss t

abbrev Run (B : Backend) (loss : Volume String → Volume String → Prop) :
    Volume String → List (Volume String × Event B) → Volume String → Prop :=
  History (Step loss)

/-- Processes crash, but the power stays on. -/
def noLoss : Volume String → Volume String → Prop := fun _ _ => False

/-- A directory without files, or none at all. -/
def Vacant (s : Volume String) : Prop := ∀ q, s.entry q = none

theorem Vacant.wf {s : Volume String} (h : Vacant s) : s.Wf :=
  ⟨by simp [h _], by simp [h _]⟩

theorem Vacant.contents {s : Volume String} (h : Vacant s) (q : String) : s.contents q = none := by
  rw [Volume.contents_eq_none_iff]
  simp [Volume.lookup, h q]

/-- Without losses every event is a call, and what it leaves is listed. -/
theorem step_leaves {s t : Volume String} {e : Event B} (hs : s.Wf) (h : Step noLoss s e t) :
    ∃ c trace o ds, e = .call c trace o ∧ CallLeaves B s c ds o t := by
  cases h with
  | @call c trace o _ _ h => exact ⟨c, trace, o, renamed trace, rfl, call_leaves hs h⟩
  | powerLoss h => exact h.elim

theorem step_wf {s t : Volume String} {e : Event B} (hs : s.Wf) (h : Step noLoss s e t) : t.Wf := by
  obtain ⟨_, _, _, _, _, hleaves⟩ := step_leaves hs h
  exact hleaves.wf

theorem run_wf {s t : Volume String} {ls : List (Volume String × Event B)} (hs : s.Wf)
    (h : Run B noLoss s ls t) : t.Wf :=
  h.invariant (C := fun _ _ => True) hs (fun _ _ => trivial) fun _ _ _ _ => step_wf

theorem exec_pathExists (path : String) (s : Volume String) :
    exec (posix String) (pathExists path) s = (.ok (s.contents path).isSome, s) := by
  rw [Volume.contents_isSome]
  rfl

theorem exec_readToString {path text : String} {s : Volume String}
    (h : s.contents path = some (asBytes text)) :
    exec (posix String) (readToString path) s = (.ok text, s) := by
  have hrun : Volume.run (.readToString path) s = (.ok text, s) := by simp [Volume.run, h]
  change exec _ (orFail (Volume.run (.readToString path) s).1) (Volume.run (.readToString path) s).2 = _
  rw [hrun]
  rfl

theorem exec_bothExist {slot : Slot} {s : Volume String} (hcert : (s.contents slot.cert).isSome)
    (hkey : (s.contents slot.key).isSome) :
    exec (posix String) (bothExist slot) s = (.ok true, s) := by
  rw [bothExist, exec_bind, exec_pathExists, hcert]
  change exec (posix String) (pathExists slot.key) s = _
  rw [exec_pathExists, hkey]

theorem exec_loadSlot {slot : Slot} {node : NodeCert} {s : Volume String} (h : Holds B s slot node) :
    exec (posix String) (loadSlot B slot) s = (.ok node, s) := by
  rw [loadSlot, exec_bind, exec_readToString h.cert]
  change exec (posix String) (readToString slot.key >>= _) s = _
  rw [exec_bind, exec_readToString h.key]
  change exec (posix String) (.ofExcept (NodeCert.fromPem B node.certPem node.keyPem)) s = _
  rw [h.genuine]
  rfl

def Loadable (B : Backend) (s : Volume String) (slot : Slot) : Prop :=
  ∃ node, (exec (posix String) (loadSlot B slot) s).1 = .ok node

def currentIdentity (B : Backend) (s : Volume String) : Option NodeCert :=
  (exec (posix String) (loadSlot B currentSlot) s).1.toOption

theorem loadSlot_ok_iff {slot : Slot} {node : NodeCert} {s : Volume String} :
    (exec (posix String) (loadSlot B slot) s).1 = .ok node ↔ Holds B s slot node := by
  constructor
  · intro h
    obtain ⟨trace, _, _, hanswer⟩ := Ensures.uninterrupted (@reads_loadSlot s B slot)
    exact hanswer node (by rw [h])
  · intro h
    rw [exec_loadSlot h]

theorem loadable_iff {slot : Slot} {s : Volume String} :
    Loadable B s slot ↔ ∃ node, Holds B s slot node :=
  exists_congr fun _ => loadSlot_ok_iff

theorem currentIdentity_of_holds {node : NodeCert} {s : Volume String} (h : Holds B s currentSlot node) :
    currentIdentity B s = some node := by
  rw [currentIdentity, exec_loadSlot h]
  rfl

theorem exec_loadOrGenerate {node : NodeCert} {s : Volume String} (h : Holds B s currentSlot node)
    (m : NodeCert.Minting B) :
    exec (posix String) (loadOrGenerate .unix m) s = (.ok node, s) := by
  have hcert : (s.contents currentSlot.cert).isSome := by simp [h.cert]
  have hkey : (s.contents currentSlot.key).isSome := by simp [h.key]
  rw [loadOrGenerate, exec_bind, exec_bothExist hcert hkey]
  exact exec_loadSlot h

theorem exec_loadPrevious {node : NodeCert} {s : Volume String} (h : Holds B s prevSlot node) :
    exec (posix String) (loadPrevious B) s = (.ok (some node), s) := by
  have hcert : (s.contents prevSlot.cert).isSome := by simp [h.cert]
  have hkey : (s.contents prevSlot.key).isSome := by simp [h.key]
  rw [loadPrevious, exec_bind, exec_bothExist hcert hkey]
  change exec (posix String) (loadSlot B prevSlot >>= _) s = _
  rw [exec_bind, exec_loadSlot h]
  rfl

section Stages
variable {s t : Volume String} {p x : NodeCert} {k : ℕ}

theorem Holds.of_same {slot : Slot} (hslot : slot.cert ∈ slotFiles ∧ slot.key ∈ slotFiles)
    (hsame : ∀ q ∈ slotFiles, t.contents q = s.contents q) (h : Holds B s slot x) : Holds B t slot x :=
  h.congr (hsame _ hslot.1) (hsame _ hslot.2)

theorem RotationStage.current_before (h : RotationStage p x k s t) (hk : k ≤ 2)
    (hold : Holds B s currentSlot p) : Holds B t currentSlot p :=
  hold.congr (by rw [show currentSlot.cert = certFile from rfl, h.cert, if_neg (by omega)])
    (by rw [show currentSlot.key = keyFile from rfl, h.key, if_neg (by omega)])

theorem RotationStage.current_after (h : RotationStage p x k s t) (hk : 4 ≤ k)
    (hx : NodeCert.fromPem B x.certPem x.keyPem = .ok x) : Holds B t currentSlot x :=
  ⟨h.cert.trans (if_pos (by omega)), h.key.trans (if_pos hk), hx⟩

theorem RotationStage.previous (h : RotationStage p x k s t) (hk : 2 ≤ k)
    (hold : Holds B s currentSlot p) : Holds B t prevSlot p :=
  ⟨h.prevCert.trans (if_pos (by omega)), h.prevKey.trans (if_pos hk), hold.genuine⟩

theorem RetireStage.current (h : RetireStage k s t) (hold : Holds B s currentSlot p) :
    Holds B t currentSlot p :=
  hold.congr h.cert h.key

theorem Holds.not_vacant {slot : Slot} (h : Holds B s slot x) :
    ¬ (s.contents slot.cert = none ∨ s.contents slot.key = none) := by
  simp [h.cert, h.key]

end Stages

/-- What is assumed of the key encoding: a serialized key reads back. -/
def KeysReadBack (B : Backend) : Prop := ∀ key, B.keyPairFromPem (B.serializePem key) = .ok key

/-- A rotation that was cut after its rename onto the current certificate and before its
rename onto the current key. -/
def Event.Torn : Event B → Prop
  | .call (.rotate _) trace _ => certFile ∈ renamed trace ∧ keyFile ∉ renamed trace
  | _ => False

theorem torn_stage {k : ℕ} (hk : k ≤ 4) :
    (certFile ∈ [certFilePrev, keyFilePrev, certFile, keyFile].take k ∧
      keyFile ∉ [certFilePrev, keyFilePrev, certFile, keyFile].take k) ↔ k = 3 := by
  interval_cases k <;> decide

end DigTls
