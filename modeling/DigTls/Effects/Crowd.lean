import DigTls.Effects.Layers
import Mathlib.Logic.Function.Basic

/-! # Processes that come and go

Any number of processes run programs on one state, call by call and in any order. Calls may fail, and a
process may stop at any time, also inside a call. What each one relies on and what it does to the others
gives what holds whenever one looks.
-/
namespace EffectPrograms
variable {Op ι : Type} {Res : Op → Type} {ε α σ : Type}

structure Crowd (Op ι : Type) (Res : Op → Type) (ε α σ : Type) where
  state : σ
  left : ι → Option (Program Op Res ε α)

namespace Crowd
variable [DecidableEq ι]

def alone (s : σ) : Crowd Op ι Res ε α σ := ⟨s, fun _ => none⟩

/-- A process starts a program it may run, makes its next call, or is gone. -/
inductive Step (M : Machine Op Res σ) (may : Program Op Res ε α → Prop) :
    Crowd Op ι Res ε α σ → ι → Crowd Op ι Res ε α σ → Prop
  | starts (c : Crowd Op ι Res ε α σ) (i : ι) (p : Program Op Res ε α) (hidle : c.left i = none) (hp : may p) :
      Step M may c i ⟨c.state, Function.update c.left i (some p)⟩
  | calls {c : Crowd Op ι Res ε α σ} {i : ι} {op : Op} {next : Res op → Program Op Res ε α} {r : Res op} {t : σ}
      (hleft : c.left i = some (.call op next)) (hdoes : M.Does op c.state (some r) t) :
      Step M may c i ⟨t, Function.update c.left i (some (next r))⟩
  | dies {c : Crowd Op ι Res ε α σ} {i : ι} {op : Op} {next : Res op → Program Op Res ε α} {t : σ}
      (hleft : c.left i = some (.call op next)) (hdoes : M.Does op c.state none t) :
      Step M may c i ⟨t, Function.update c.left i none⟩
  | goes (c : Crowd Op ι Res ε α σ) (i : ι) : Step M may c i ⟨c.state, Function.update c.left i none⟩

/-- What holds of the state, and what each process can say of what it has left. -/
structure Relies (M : Machine Op Res σ) (may : Program Op Res ε α → Prop) (I : σ → Prop)
    (L : Program Op Res ε α → σ → Prop) : Prop where
  starts : ∀ p s, I s → may p → L p s
  keeps : ∀ op next s r t, I s → L (.call op next) s → M.Does op s r t → I t ∧ ∀ x, r = some x → L (next x) t
  stable : ∀ op next q s r t, I s → L (.call op next) s → L q s → M.Does op s r t → L q t

variable {M : Machine Op Res σ} {may : Program Op Res ε α → Prop} {I : σ → Prop} {L : Program Op Res ε α → σ → Prop}
  {c d : Crowd Op ι Res ε α σ} {i : ι}

/-- The state is as it should be, and every process can say what it relies on. -/
structure Orderly (I : σ → Prop) (L : Program Op Res ε α → σ → Prop) (c : Crowd Op ι Res ε α σ) : Prop where
  state : I c.state
  left : ∀ i p, c.left i = some p → L p c.state

/-- One process changes what it has left, the others are not disturbed. -/
theorem Orderly.update (h : Orderly I L c) {s : σ} {p : Option (Program Op Res ε α)} (hs : I s)
    (hp : ∀ q, p = some q → L q s) (hothers : ∀ q, L q c.state → L q s) :
    Orderly I L ⟨s, Function.update c.left i p⟩ := by
  refine ⟨hs, fun j q hq => ?_⟩
  change Function.update c.left i p j = some q at hq
  by_cases hj : j = i
  · subst hj
    rw [Function.update_self] at hq
    exact hp q hq
  · rw [Function.update_of_ne hj] at hq
    exact hothers q (h.left j q hq)

theorem Orderly.step (h : Orderly I L c) (hrely : Relies M may I L) (hstep : Step M may c i d) : Orderly I L d := by
  cases hstep with
  | starts p _ hp =>
    refine h.update h.state (fun q hq => ?_) fun _ => id
    cases hq
    exact hrely.starts p c.state h.state hp
  | calls hleft hdoes =>
    obtain ⟨ht, hnext⟩ := hrely.keeps _ _ _ _ _ h.state (h.left i _ hleft) hdoes
    refine h.update ht (fun q hq => ?_) fun q hq => ?_
    · cases hq
      exact hnext _ rfl
    · exact hrely.stable _ _ q _ _ _ h.state (h.left i _ hleft) hq hdoes
  | dies hleft hdoes =>
    obtain ⟨ht, _⟩ := hrely.keeps _ _ _ _ _ h.state (h.left i _ hleft) hdoes
    refine h.update ht (by simp) fun q hq => ?_
    exact hrely.stable _ _ q _ _ _ h.state (h.left i _ hleft) hq hdoes
  | goes => exact h.update h.state (by simp) fun _ => id

theorem Relies.run {ls : List (Crowd Op ι Res ε α σ × ι)} (hrely : Relies M may I L) {s : σ} (hs : I s)
    (hrun : History (Step M may) (alone s) ls d) : Orderly I L d := by
  have hstart : Orderly I L (alone s : Crowd Op ι Res ε α σ) := ⟨hs, by simp [alone]⟩
  exact hrun.invariant (C := fun _ _ => True) hstart (fun _ _ => trivial) fun _ _ _ _ h hstep => h.step hrely hstep

/-- What a process can come to by itself it can come to among the others. -/
theorem run_of_can {p : Program Op Res ε α} {o : Option (Except ε α)} {t : σ} (h : Can M p c.state o t)
    (hleft : c.left i = some p) : ∃ ls d, History (Step M may) c ls d ∧ d.state = t := by
  induction p generalizing c with
  | done a =>
    obtain ⟨_, rfl⟩ := can_done_iff.mp h
    exact ⟨[], c, .start c, rfl⟩
  | raise e =>
    obtain ⟨_, rfl⟩ := can_raise_iff.mp h
    exact ⟨[], c, .start c, rfl⟩
  | call op next ih =>
    rcases can_call_iff.mp h with ⟨r, u, hdoes, hrest⟩ | ⟨_, hdoes⟩
    · obtain ⟨ls, d, hrun, hd⟩ := ih r (c := ⟨u, Function.update c.left i (some (next r))⟩) hrest
        (Function.update_self ..)
      exact ⟨_, d, (History.single (.calls hleft hdoes)).append hrun, hd⟩
    · exact ⟨_, _, .single (.dies hleft hdoes), rfl⟩

end Crowd

end EffectPrograms
