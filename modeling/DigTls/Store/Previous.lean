import DigTls.Store.Machine
import DigTls.Store.Survival

/-! # The previous slot, wherever calls were cut

A rotation fills the previous slot certificate first and only when it is empty; a retirement
empties it key first. So a key file that is there came last, next to the certificate of the
identity the same rotation found in the current slot.
-/
namespace DigTls
open EffectPrograms PosixVolume Volume
variable {B : Backend} {s t : Volume String} {ls : List (Volume String × Event B)}

/-- The identity was whole in the current slot before one of the events. -/
def WasCurrent (ls : List (Volume String × Event B)) (p : NodeCert) : Prop :=
  ∃ e ∈ ls, Holds B e.1 currentSlot p

/-- The previous slot has no key, or it is whole and holds an identity that was current. -/
def Genuine (ls : List (Volume String × Event B)) (s : Volume String) : Prop :=
  s.contents keyFilePrev = none ∨ ∃ p, Holds B s prevSlot p ∧ WasCurrent ls p

theorem Genuine.congr (h : Genuine ls s) (hcert : t.contents certFilePrev = s.contents certFilePrev)
    (hkey : t.contents keyFilePrev = s.contents keyFilePrev) : Genuine ls t := by
  rcases h with hnone | ⟨p, hp, hwas⟩
  · exact Or.inl (hkey.trans hnone)
  · exact Or.inr ⟨p, hp.congr hcert hkey, hwas⟩

theorem Genuine.snoc (h : Genuine ls s) (l : Volume String × Event B) : Genuine (ls ++ [l]) s := by
  rcases h with hnone | ⟨p, hp, e, he, hcur⟩
  · exact Or.inl hnone
  · exact Or.inr ⟨p, hp, e, List.mem_append_left _ he, hcur⟩

theorem Genuine.step {e : Event B} (hs : s.Wf) (h : Genuine ls s) (hstep : Step noLoss s e t) :
    Genuine (ls ++ [(s, e)]) t := by
  obtain ⟨c, trace, o, ds, rfl, hleaves⟩ := step_leaves hs hstep
  cases hleaves with
  | loaded _ same _ => exact (h.congr (same _ (by decide)) (same _ (by decide))).snoc _
  | refused _ same _ => exact (h.congr (same _ (by decide)) (same _ (by decide))).snoc _
  | previous _ same _ => exact (h.congr (same _ (by decide)) (same _ (by decide))).snoc _
  | minted _ _ _ _ stage _ _ => exact (h.congr stage.prevCert stage.prevKey).snoc _
  | @rotated m p x k _ _ _ holds free _ _ stage _ _ _ =>
    rcases Nat.lt_or_ge k 2 with hlt | hge
    · refine Or.inl ?_
      rw [stage.prevKey, if_neg (by omega), free.2]
    · exact Or.inr ⟨p, stage.previous hge holds, (s, .call (.rotate m) trace o), by simp, holds⟩
  | @retired k _ _ _ _ stage _ =>
    rcases Nat.eq_zero_or_pos k with rfl | hpos
    · exact (h.congr stage.prevCert stage.prevKey).snoc _
    · refine Or.inl ?_
      rw [stage.prevKey, if_pos (by omega)]

theorem run_genuine (hvacant : Vacant s) (hrun : Run B noLoss s ls t) : Genuine ls t := by
  induction hrun with
  | start => exact Or.inl (hvacant.contents _)
  | snoc before last ih => exact ih.step (run_wf hvacant.wf before) last

def Event.Retires : Event B → Prop
  | .call .retirePrevious _ _ => True
  | _ => False

/-- No retirement touches the current slot. -/
theorem retire_step {e : Event B} (hs : s.Wf) (hstep : Step noLoss s e t) (he : e.Retires) :
    t.contents certFile = s.contents certFile ∧ t.contents keyFile = s.contents keyFile := by
  obtain ⟨c, trace, o, ds, rfl, hleaves⟩ := step_leaves hs hstep
  cases hleaves with
  | loaded | minted | refused | rotated | previous => exact he.elim
  | retired _ _ stage _ => exact ⟨stage.cert, stage.key⟩

theorem exec_retire (hs : s.Wf) : (exec (posix String) retirePrevious s).1 = .ok () ∧
    RetireStage 2 s (exec (posix String) retirePrevious s).2 := by
  obtain ⟨_, t, hexec, _⟩ := completes_retirePrevious s
  obtain ⟨ds, hleaves⟩ := exec_leaves hs (Call.retirePrevious (B := toyBackend))
  rw [Call.program, exec_map retirePrevious (fun _ => Reply.retired) s] at hleaves
  rw [hexec] at hleaves ⊢
  cases hleaves with
  | retired _ _ stage answer =>
    obtain ⟨_, rfl⟩ := answer _ rfl
    exact ⟨rfl, stage⟩

/-- In every state that calls cut short or not reach from an empty or missing directory, the
previous slot reads as empty, or as an identity that the current slot gave earlier. Retirements,
interrupted and repeated, then leave the current pair alone, and one that runs through succeeds
and leaves no previous file. -/
theorem previous_slot_absent_or_genuine (hvacant : Vacant s) (hrun : Run B noLoss s ls t) :
    ((exec (posix String) (loadPrevious B) t).1 = .ok none ∨
      ∃ p, (exec (posix String) (loadPrevious B) t).1 = .ok (some p) ∧
        ∃ e ∈ ls, (exec (posix String) (loadSlot B currentSlot) e.1).1 = .ok p) ∧
    ∀ tries u, Run B noLoss t tries u → (∀ e ∈ tries, e.2.Retires) →
      (exec (posix String) retirePrevious u).1 = .ok () ∧
      (∀ q ∈ [certFilePrev, keyFilePrev], (exec (posix String) retirePrevious u).2.contents q = none) ∧
      ∀ q ∈ [certFile, keyFile], u.contents q = t.contents q ∧
        (exec (posix String) retirePrevious u).2.contents q = t.contents q := by
  have ht := run_wf hvacant.wf hrun
  constructor
  · rcases run_genuine hvacant hrun with hnone | ⟨p, hp, e, he, hcur⟩
    · exact Or.inl (by rw [exec_loadPrevious_none (Or.inr hnone)])
    · exact Or.inr ⟨p, by rw [exec_loadPrevious hp], e, he, loadSlot_ok_iff.mpr hcur⟩
  · intro tries u htries hretires
    have hkept := htries.invariant (C := fun _ e => e.Retires)
      (I := fun v => v.Wf ∧ v.contents certFile = t.contents certFile ∧ v.contents keyFile = t.contents keyFile)
      ⟨ht, rfl, rfl⟩ hretires fun v e w he hv hstep => by
        obtain ⟨hcert, hkey⟩ := retire_step hv.1 hstep he
        exact ⟨step_wf hv.1 hstep, hcert.trans hv.2.1, hkey.trans hv.2.2⟩
    obtain ⟨hu, hcert, hkey⟩ := hkept
    obtain ⟨hanswer, hstage⟩ := exec_retire hu
    refine ⟨hanswer, ?_, ?_⟩
    · simp only [List.forall_mem_cons, List.not_mem_nil, false_implies, implies_true, and_true]
      exact ⟨hstage.prevCert, hstage.prevKey⟩
    · simp only [List.forall_mem_cons, List.not_mem_nil, false_implies, implies_true, and_true]
      exact ⟨⟨hcert, hstage.cert.trans hcert⟩, hkey, hstage.key.trans hkey⟩

/-- A rotation of the toy directory that was cut between its renames onto the current pair, and the
retirement after it. -/
theorem previous_slot_absent_or_genuine_torn : ∃ trace t,
    cut 25 (.rotate (toyMint 2 8)) settledDir = some (trace, t) ∧
    (∃ p, (exec (posix String) (loadPrevious toyBackend) t).1 = .ok (some p)) ∧
    (exec (posix String) retirePrevious t).1 = .ok () := by
  have hstate : (cut 25 (.rotate (toyMint 2 8)) settledDir).map (fun r =>
      decide ((exec (posix String) (loadPrevious toyBackend) r.2).1.toOption = some none)) = some false := by
    decide +kernel
  obtain ⟨⟨trace, t⟩, hcut, hsome⟩ := Option.map_eq_some_iff.mp hstate
  have hne : (exec (posix String) (loadPrevious toyBackend) t).1 ≠ .ok none := by
    intro hnone
    simp [hnone, Except.toOption] at hsome
  obtain ⟨trace₀, hreach⟩ := @run_settled noLoss
  obtain ⟨hload, hretire⟩ := previous_slot_absent_or_genuine emptyDir_vacant
    (hreach.append (.single (step_cut hcut)))
  obtain ⟨p, hp, _⟩ := hload.resolve_left hne
  exact ⟨trace, t, hcut, ⟨p, hp⟩, (hretire [] t (.start t) (by simp)).1⟩

end DigTls
