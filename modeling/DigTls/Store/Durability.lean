import DigTls.Store.Replace
import DigTls.Store.Retirement

/-! # Slot writes against loss of power

A slot file holds its old contents or all of its new ones wherever the write is stopped, and
the new ones for good once the write has answered. What a loss of power may still take is the
directory itself, where the path to it was not on stable storage.
-/
namespace DigTls
open EffectPrograms PosixVolume Volume
variable {B : Backend} {α : Type} {s t u : Volume String} {dest path : String} {contents : Bytes}
  {secret : Secret} {P : Option Bytes → Prop}

inductive SlotEvent where
  | write (dest : String) (contents : Bytes) (secret : Secret)
  | powerLoss

inductive SlotStep : Volume String → SlotEvent → Volume String → Prop
  | write {dest : String} {contents : Bytes} {secret : Secret} {trace : List (Op String)}
      {o : Option (Except DigTlsError Unit)} {s t : Volume String}
      (h : Outcome (posix String) (atomicWrite .unix dest contents secret) s trace o t) :
      SlotStep s (.write dest contents secret) t
  | powerLoss {s t : Volume String} (h : PowerLoss s t) : SlotStep s .powerLoss t

/-- The write neither replaces the name nor is staged through it. -/
def SlotEvent.Spares (path : String) : SlotEvent → Prop
  | .write dest _ _ => path ≠ dest ∧ path ≠ tmpPath dest
  | .powerLoss => True

theorem write_leaves {trace : List (Op String)} {o : Option (Except DigTlsError Unit)} (hs : s.Tracked)
    (h : Outcome (posix String) (atomicWrite .unix dest contents secret) s trace o t) :
    WriteLeaves dest contents s o t :=
  ensures_truthful (ensures_atomicWrite hs dest contents secret) trace o t h

/-- The name has this one version, unless the directory itself is lost. -/
def Rests (path : String) (contents : Bytes) (s : Volume String) : Prop :=
  s.Tracked ∧ (s.present = true → Versions path (· = some contents) s)

theorem Rests.step {e : SlotEvent} (h : Rests path contents s) (hstep : SlotStep s e t)
    (he : e.Spares path) : Rests path contents t := by
  obtain ⟨hs, hrest⟩ := h
  cases hstep with
  | write ho =>
    have hleaves := write_leaves hs ho
    refine ⟨hs.outcome ho, fun hp => hleaves.other hs (hrest ?_) he.1 he.2⟩
    rw [← hleaves.present]
    exact hp
  | powerLoss hloss => exact ⟨hloss.tracked hs, fun hp => (hrest (hloss.present_before hp)).powerLoss hloss hp⟩

theorem SlotStep.anchored {e : SlotEvent} (hs : s.Tracked) (hstep : SlotStep s e t) (hanch : s.Anchored) :
    t.Anchored := by
  cases hstep with
  | write ho => exact (write_leaves hs ho).anchored.mpr hanch
  | powerLoss hloss => exact hloss.anchored_iff.mpr (hloss.present hanch)

/-- A slot write stopped anywhere leaves the old contents or all of the new ones. A loss of power
then leaves one of the contents the disk may have had before, or all of the new ones; and once
the write has answered the new ones stay, whatever other slot writes and losses of power come
later. The directory itself may be lost where its own path was not on stable storage. -/
theorem slot_write_atomic_and_durable (hs : s.Tracked) (dest : String) (contents : Bytes) (secret : Secret)
    {trace : List (Op String)} {o : Option (Except DigTlsError Unit)}
    (h : Outcome (posix String) (atomicWrite .unix dest contents secret) s trace o t) :
    (t.contents dest = s.contents dest ∨ t.contents dest = some contents) ∧
    (∀ old, Versions dest old s → ∀ u, PowerLoss t u →
      old (u.contents dest) ∨ u.contents dest = some contents ∨ u.present = false ∧ ¬ s.Anchored) ∧
    (o = some (.ok ()) → ∀ ls u, History SlotStep t ls u → (∀ x ∈ ls, x.2.Spares dest) →
      u.contents dest = some contents ∨ u.present = false ∧ ¬ s.Anchored) := by
  have hleaves := write_leaves hs h
  refine ⟨(hleaves.shows hs.toWf).imp_left And.left, fun old hold u hloss => ?_, ?_⟩
  · have hv : Versions dest (fun c => old c ∨ c = some contents) t :=
      hleaves.versions hs (hold.mono fun _ => Or.inl) (Or.inr rfl)
    rcases hv.contents_powerLoss hloss with (hc | hc) | hgone
    · exact Or.inl hc
    · exact Or.inr (Or.inl hc)
    · refine Or.inr (Or.inr ⟨hgone, fun hanch => ?_⟩)
      rw [hloss.present (hleaves.anchored.mpr hanch)] at hgone
      cases hgone
  · rintro rfl ls u hrun hspares
    have hstart : Rests dest contents t ∧ (s.Anchored → t.Anchored) :=
      ⟨⟨hs.outcome h, fun _ => hleaves.answered⟩, hleaves.anchored.mpr⟩
    obtain ⟨⟨hu, hrest⟩, hanch⟩ := hrun.invariant (I := fun v => Rests dest contents v ∧ (s.Anchored → v.Anchored))
      (C := fun _ e => e.Spares dest) hstart hspares fun v e w he hv hstep =>
        ⟨hv.1.step hstep he, fun hanch => hstep.anchored hv.1.1 (hv.2 hanch)⟩
    cases hp : u.present with
    | true => exact Or.inl ((hrest hp).contents hp)
    | false =>
      refine Or.inr ⟨rfl, fun hs' => ?_⟩
      rw [hu.present_of_anchored (hanch hs')] at hp
      cases hp

def firstWrite : Except DigTlsError Unit × Volume String :=
  exec (posix String) (atomicWrite .unix certFile [1] .no) emptyDir

theorem slot_write_atomic_and_durable_first :
    firstWrite.1 = .ok () ∧ ∀ u, PowerLoss firstWrite.2 u → u.contents certFile = some [1] := by
  have hanswer : firstWrite.1 = .ok () := by decide +kernel
  obtain ⟨trace, h⟩ := outcome_exec (M := posix String) (atomicWrite .unix certFile [1] .no) emptyDir
  change Outcome _ _ _ trace (some firstWrite.1) firstWrite.2 at h
  rw [hanswer] at h
  refine ⟨hanswer, fun u hloss => ?_⟩
  obtain ⟨_, _, hdurable⟩ := slot_write_atomic_and_durable emptyDir_tracked certFile [1] .no h
  rcases hdurable rfl _ u (.single (.powerLoss hloss)) (by simp [SlotEvent.Spares]) with hc | ⟨_, hgone⟩
  · exact hc
  · exact absurd le_rfl hgone

end DigTls
