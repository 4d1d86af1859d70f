import DigTls.Store.Healthy
import DigTls.Store.Rotation

/-! # The directory as a machine with two identities

Without faults four files, their texts and what is parsed from them amount to two optional
identities. The machine below says what the operations are for; a directory that starts empty
answers every sequence of calls as the machine does.
-/
namespace DigTls
open EffectPrograms PosixVolume Volume
variable {B : Backend} {s t : Volume String}

structure Identities where
  current : Option NodeCert
  previous : Option NodeCert
  deriving DecidableEq

namespace Identities

/-- Return the current identity, minting it first if there is none. -/
def loadOrGenerate (a : Identities) (fresh : Except DigTlsError NodeCert) :
    Except DigTlsError Reply × Identities :=
  match a.current, fresh with
  | some x, _ => (.ok (.node x), a)
  | none, .ok x => (.ok (.node x), { a with current := some x })
  | none, .error e => (.error e, a)

/-- Demote the current identity and mint another, one generation at a time. -/
def rotate (a : Identities) (fresh : Except DigTlsError NodeCert) :
    Except DigTlsError Reply × Identities :=
  match a.current, a.previous, fresh with
  | none, _, _ => (.error noCurrent, a)
  | some _, some _, _ => (.error unretired, a)
  | some p, none, .ok x => (.ok (.rotated ⟨p, x⟩), ⟨some x, some p⟩)
  | some _, none, .error e => (.error e, a)

def step (a : Identities) : Call B → Except DigTlsError Reply × Identities
  | .loadOrGenerate m => a.loadOrGenerate (NodeCert.generateSigned B m)
  | .rotate m => a.rotate (NodeCert.generateSigned B m)
  | .loadPrevious => (.ok (.previous a.previous), a)
  | .retirePrevious => (.ok .retired, { a with previous := none })

def answers (a : Identities) : List (Call B) → List (Except DigTlsError Reply)
  | [] => []
  | c :: cs => (a.step c).1 :: (a.step c).2.answers cs

end Identities

/-- The answers of the directory to a sequence of calls that nothing interrupts. -/
def answers (s : Volume String) : List (Call B) → List (Except DigTlsError Reply)
  | [] => []
  | c :: cs =>
    (exec (posix String) (c.program .unix) s).1 :: answers (exec (posix String) (c.program .unix) s).2 cs

/-- A slot holds the identity, or neither of its files is there. -/
def SlotShows (B : Backend) (s : Volume String) (slot : Slot) : Option NodeCert → Prop
  | some x => Holds B s slot x
  | none => s.contents slot.cert = none ∧ s.contents slot.key = none

/-- The directory keeps these identities. -/
structure Shows (B : Backend) (a : Identities) (s : Volume String) : Prop where
  wf : s.Wf
  current : SlotShows B s currentSlot a.current
  previous : SlotShows B s prevSlot a.previous

theorem Vacant.shows (h : Vacant s) : Shows B ⟨none, none⟩ s :=
  ⟨h.wf, ⟨h.contents _, h.contents _⟩, ⟨h.contents _, h.contents _⟩⟩

theorem SlotShows.congr {slot : Slot} {x : Option NodeCert} (h : SlotShows B s slot x)
    (hcert : t.contents slot.cert = s.contents slot.cert)
    (hkey : t.contents slot.key = s.contents slot.key) : SlotShows B t slot x := by
  cases x with
  | some x => exact Holds.congr h hcert hkey
  | none => exact ⟨hcert.trans h.1, hkey.trans h.2⟩

theorem exec_map {α β : Type} (p : Task α) (g : α → β) (s : Volume String) :
    exec (posix String) (p >>= fun a => .done (g a)) s =
      ((exec (posix String) p s).1.map g, (exec (posix String) p s).2) := by
  rw [exec_bind]
  cases h : exec (posix String) p s with
  | mk r u => cases r <;> rfl

theorem exec_leaves (hs : s.Wf) (c : Call B) : ∃ ds, CallLeaves B s c ds
    (some (exec (posix String) (c.program .unix) s).1) (exec (posix String) (c.program .unix) s).2 := by
  obtain ⟨trace, h⟩ := outcome_exec (M := posix String) (c.program .unix) s
  exact ⟨_, call_leaves hs h⟩

section Step
variable {a : Identities}

theorem Holds.present {slot : Slot} {x : NodeCert} (h : Holds B s slot x) : s.present = true := by
  obtain ⟨i, hl, _⟩ := Option.map_eq_some_iff.mp h.cert
  exact (lookup_eq_some_iff.mp hl).1

theorem Shows.step_load (hread : KeysReadBack B) (h : Shows B a s) (m : NodeCert.Minting B) :
    (exec (posix String) ((Call.loadOrGenerate m).program .unix) s).1 =
        (a.loadOrGenerate (NodeCert.generateSigned B m)).1 ∧
      Shows B (a.loadOrGenerate (NodeCert.generateSigned B m)).2
        (exec (posix String) ((Call.loadOrGenerate m).program .unix) s).2 := by
  obtain ⟨cur, prev⟩ := a
  have hmap := exec_map (loadOrGenerate .unix m) Reply.node s
  cases cur with
  | some x =>
    rw [Call.program, hmap, exec_loadOrGenerate h.current]
    exact ⟨rfl, h⟩
  | none =>
    have hvacant : s.contents certFile = none ∨ s.contents keyFile = none := Or.inl h.current.1
    cases hx : NodeCert.generateSigned B m with
    | error e =>
      rw [Call.program, hmap, exec_load_vacant m hvacant, hx]
      exact ⟨rfl, h⟩
    | ok x =>
      have hanswer : (exec (posix String) ((Call.loadOrGenerate m).program .unix) s).1 = .ok (.node x) := by
        rw [Call.program, hmap, load_vacant_answer m hvacant, hx]
        rfl
      refine ⟨hanswer, ?_⟩
      obtain ⟨ds, hleaves⟩ := exec_leaves h.wf (.loadOrGenerate m)
      rw [hanswer] at hleaves
      generalize (exec (posix String) ((Call.loadOrGenerate m).program .unix) s).2 = t at hleaves
      cases hleaves with
      | loaded _ _ answer =>
        obtain ⟨node, _, hholds⟩ := answer _ rfl
        exact absurd hvacant hholds.not_vacant
      | minted wf _ mint _ stage _ answer =>
        obtain ⟨heq, rfl⟩ := answer _ rfl
        cases heq
        exact ⟨wf, ⟨stage.cert, stage.key, NodeCert.fromPem_generated hread hx⟩,
          h.previous.congr stage.prevCert stage.prevKey⟩

theorem Shows.step_rotate (hread : KeysReadBack B) (h : Shows B a s) (m : NodeCert.Minting B) :
    (exec (posix String) ((Call.rotate m).program .unix) s).1 =
        (a.rotate (NodeCert.generateSigned B m)).1 ∧
      Shows B (a.rotate (NodeCert.generateSigned B m)).2
        (exec (posix String) ((Call.rotate m).program .unix) s).2 := by
  obtain ⟨cur, prev⟩ := a
  have hmap := exec_map (rotate .unix m) Reply.rotated s
  cases cur with
  | none =>
    rw [Call.program, hmap, exec_rotate_vacant m (Or.inl h.current.1)]
    exact ⟨rfl, h⟩
  | some p =>
    have hp : Holds B s currentSlot p := h.current
    cases prev with
    | some y =>
      have hy : Holds B s prevSlot y := h.previous
      have hcert : s.contents certFilePrev = some (asBytes y.certPem) := hy.cert
      rw [Call.program, hmap, exec_rotate_unretired m hp (by simp [hcert])]
      exact ⟨rfl, h⟩
    | none =>
      have hfree : s.contents certFilePrev = none ∧ s.contents keyFilePrev = none := h.previous
      have hexec := exec_rotate_free m hp hfree.1 hfree.2
      cases hx : NodeCert.generateSigned B m with
      | error e =>
        rw [Call.program, hmap, hexec, hx]
        exact ⟨rfl, h⟩
      | ok x =>
        have hanswer : (exec (posix String) ((Call.rotate m).program .unix) s).1 =
            .ok (.rotated ⟨p, x⟩) := by
          rw [Call.program, hmap, hexec, hx]
          exact congrArg (Except.map Reply.rotated) (succeeds_persistRotation hp.present p x).completes.answer
        refine ⟨hanswer, ?_⟩
        obtain ⟨ds, hleaves⟩ := exec_leaves h.wf (.rotate m)
        rw [hanswer] at hleaves
        generalize (exec (posix String) ((Call.rotate m).program .unix) s).2 = t at hleaves
        cases hleaves with
        | refused _ _ answer => exact absurd rfl (answer _)
        | rotated wf holds _ mint _ stage _ answer _ =>
          obtain ⟨heq, rfl⟩ := answer _ rfl
          cases heq
          exact ⟨wf, stage.current_after le_rfl (NodeCert.fromPem_generated hread hx),
            stage.previous (by omega) hp⟩

theorem Shows.step_loadPrevious (h : Shows B a s) :
    exec (posix String) ((Call.loadPrevious (B := B)).program .unix) s = (.ok (.previous a.previous), s) := by
  obtain ⟨cur, prev⟩ := a
  rw [Call.program, exec_map (loadPrevious B) Reply.previous s]
  cases prev with
  | some y => rw [exec_loadPrevious h.previous]; rfl
  | none => rw [exec_loadPrevious_none (Or.inl h.previous.1)]; rfl

theorem Shows.step_retire (h : Shows B a s) :
    (exec (posix String) ((Call.retirePrevious (B := B)).program .unix) s).1 = .ok .retired ∧
      Shows B { a with previous := none } (exec (posix String) ((Call.retirePrevious (B := B)).program .unix) s).2 := by
  have hanswer : (exec (posix String) ((Call.retirePrevious (B := B)).program .unix) s).1 = .ok .retired := by
    obtain ⟨_, t, hexec, _⟩ := completes_retirePrevious s
    rw [Call.program, exec_map retirePrevious (fun _ => Reply.retired) s, hexec]
    rfl
  refine ⟨hanswer, ?_⟩
  obtain ⟨ds, hleaves⟩ := exec_leaves (B := B) h.wf .retirePrevious
  rw [hanswer] at hleaves
  generalize (exec (posix String) ((Call.retirePrevious (B := B)).program .unix) s).2 = t at hleaves
  cases hleaves with
  | retired wf _ stage answer =>
    obtain ⟨_, rfl⟩ := answer _ rfl
    exact ⟨wf, h.current.congr stage.cert stage.key, stage.prevCert, stage.prevKey⟩

/-- One call: the directory answers as the machine does, and keeps what the machine keeps. -/
theorem Shows.step (hread : KeysReadBack B) (h : Shows B a s) (c : Call B) :
    (exec (posix String) (c.program .unix) s).1 = (a.step c).1 ∧
      Shows B (a.step c).2 (exec (posix String) (c.program .unix) s).2 := by
  cases c with
  | loadOrGenerate m => exact h.step_load hread m
  | rotate m => exact h.step_rotate hread m
  | loadPrevious =>
    rw [h.step_loadPrevious]
    exact ⟨rfl, h⟩
  | retirePrevious => exact h.step_retire

theorem Shows.answers (hread : KeysReadBack B) (h : Shows B a s) (cs : List (Call B)) :
    DigTls.answers s cs = a.answers cs := by
  induction cs generalizing a s with
  | nil => rfl
  | cons c cs ih =>
    obtain ⟨hanswer, hnext⟩ := h.step hread c
    rw [DigTls.answers, Identities.answers, hanswer, ih hnext]

end Step

/-- From an empty or missing directory, every sequence of calls is answered as by the machine
that starts without identities. -/
theorem directory_refines_machine (hread : KeysReadBack B) (hvacant : Vacant s) (cs : List (Call B)) :
    answers s cs = Identities.answers ⟨none, none⟩ cs :=
  hvacant.shows.answers hread cs

def toyCalls : List (Call toyBackend) :=
  [.loadOrGenerate (toyMint 1 7), .rotate (toyMint 2 8), .rotate (toyMint 3 9), .loadPrevious,
    .retirePrevious, .loadPrevious, .loadOrGenerate (toyMint 4 6)]

theorem directory_refines_machine_toyCalls :
    answers emptyDir toyCalls = Identities.answers ⟨none, none⟩ toyCalls :=
  directory_refines_machine toy_keysReadBack emptyDir_vacant toyCalls

end DigTls
