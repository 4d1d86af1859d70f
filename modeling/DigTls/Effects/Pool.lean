import DigTls.Effects.Program
import Mathlib.Logic.Function.Basic

/-! # Any number of programs on one state

A pool starts programs at any time, each to do a job, and lets them make their calls in turn, in
any order. What each program can do decides what the state shows: a value it shows was put there
by a job that vouches for it, and a program that cannot fail once it has made a call of some kind
has made none when it fails.
-/
namespace EffectPrograms
variable {Op : Type} {Res : Op → Type} {ε α σ κ τ : Type}

namespace Program

def Unfailing : Program Op Res ε α → Prop
  | done _ => True
  | raise _ => False
  | call _ next => ∀ r, (next r).Unfailing

/-- Once a call of the kind `X` is made, the program does not fail any more. -/
def Commits (X : Op → Prop) : Program Op Res ε α → Prop
  | call op next => ∀ r, (X op → (next r).Unfailing) ∧ (next r).Commits X
  | _ => True

end Program

/-- The state shared, and the programs started so far: each with its job and what is left of it. -/
structure Pool (Op : Type) (Res : Op → Type) (ε α σ κ : Type) where
  state : σ
  task : ℕ → Option (κ × Program Op Res ε α)

inductive Turn (κ : Type) where
  | start (i : ℕ) (job : κ)
  | go (i : ℕ)

namespace Pool

def idle (s : σ) : Pool Op Res ε α σ κ := ⟨s, fun _ => none⟩

section Steps
variable (M : Machine Op Res σ) (program : κ → Program Op Res ε α)

def step (s : Pool Op Res ε α σ κ) : Turn κ → Option (Pool Op Res ε α σ κ)
  | .start i job =>
    match s.task i with
    | none => some { s with task := Function.update s.task i (some (job, program job)) }
    | some _ => none
  | .go i =>
    match s.task i with
    | some (job, .call op next) =>
      some ⟨(M.run op s.state).2, Function.update s.task i (some (job, next (M.run op s.state).1))⟩
    | _ => none

def play : Pool Op Res ε α σ κ → List (Turn κ) → Option (Pool Op Res ε α σ κ)
  | s, [] => some s
  | s, e :: es => (s.step M program e).bind fun t => t.play es

abbrev Run : Pool Op Res ε α σ κ → List (Pool Op Res ε α σ κ × Turn κ) → Pool Op Res ε α σ κ → Prop :=
  History fun s e t => s.step M program e = some t

end Steps

variable {M : Machine Op Res σ} {program : κ → Program Op Res ε α} {s t u v : Pool Op Res ε α σ κ}
  {ls : List (Pool Op Res ε α σ κ × Turn κ)} {i : ℕ} {job : κ} {rest : Program Op Res ε α}

theorem step_cases {e : Turn κ} (h : s.step M program e = some t) :
    (∃ i job, e = .start i job ∧ s.task i = none ∧
      t = ⟨s.state, Function.update s.task i (some (job, program job))⟩) ∨
    (∃ i job op next, e = .go i ∧ s.task i = some (job, .call op next) ∧
      t = ⟨(M.run op s.state).2, Function.update s.task i (some (job, next (M.run op s.state).1))⟩) := by
  cases e with
  | start i job =>
    simp only [step] at h
    split at h
    · case h_1 hi => exact Or.inl ⟨i, job, rfl, hi, by simpa using h.symm⟩
    · cases h
  | go i =>
    simp only [step] at h
    split at h
    · case h_1 job op next hi => exact Or.inr ⟨i, job, op, next, rfl, hi, by simpa using h.symm⟩
    · cases h

theorem run_of_play {es : List (Turn κ)} (h : s.play M program es = some t) :
    ∃ ls, ls.map Prod.snd = es ∧ Run M program s ls t :=
  History.of_play (fun _ => rfl) (fun _ _ _ => rfl) h

/-- A property of what is left of a program that a call does not lose. -/
def Hereditary (D : Program Op Res ε α → Prop) : Prop := ∀ op next, D (.call op next) → ∀ r, D (next r)

theorem task_of_step {e : Turn κ} (h : s.step M program e = some t) (ht : t.task i = some (job, rest)) :
    s.task i = some (job, rest) ∨ (e = .start i job ∧ rest = program job) ∨
      ∃ op next, e = .go i ∧ s.task i = some (job, .call op next) ∧ rest = next (M.run op s.state).1 := by
  rcases step_cases h with ⟨j, job', rfl, hj, rfl⟩ | ⟨j, job', op, next, rfl, hj, rfl⟩
  · by_cases hij : i = j
    · subst hij
      simp only [Function.update_self, Option.some.injEq, Prod.mk.injEq] at ht
      obtain ⟨rfl, rfl⟩ := ht
      exact Or.inr (Or.inl ⟨rfl, rfl⟩)
    · exact Or.inl (by simpa [Function.update_of_ne hij] using ht)
  · by_cases hij : i = j
    · subst hij
      simp only [Function.update_self, Option.some.injEq, Prod.mk.injEq] at ht
      obtain ⟨rfl, rfl⟩ := ht
      exact Or.inr (Or.inr ⟨op, next, rfl, hj, rfl⟩)
    · exact Or.inl (by simpa [Function.update_of_ne hij] using ht)

theorem step_of_task {e : Turn κ} (h : s.step M program e = some t) (hs : s.task i = some (job, rest)) :
    t.task i = some (job, rest) ∨
      ∃ op next r, rest = .call op next ∧ t.task i = some (job, next r) := by
  rcases step_cases h with ⟨j, job', rfl, hj, rfl⟩ | ⟨j, job', op, next, rfl, hj, rfl⟩
  · have hij : i ≠ j := by
      rintro rfl
      simp [hs] at hj
    exact Or.inl (by simpa [Function.update_of_ne hij] using hs)
  · by_cases hij : i = j
    · subst hij
      rw [hs, Option.some.injEq, Prod.mk.injEq] at hj
      obtain ⟨rfl, rfl⟩ := hj
      exact Or.inr ⟨op, next, _, rfl, Function.update_self ..⟩
    · exact Or.inl (by simpa [Function.update_of_ne hij] using hs)

namespace Run

theorem keeps_task {D : Program Op Res ε α → Prop} (hD : Hereditary D) (h : Run M program s ls t)
    (hs : ∃ rest, s.task i = some (job, rest) ∧ D rest) : ∃ rest, t.task i = some (job, rest) ∧ D rest := by
  refine h.invariant (I := fun u => ∃ rest, u.task i = some (job, rest) ∧ D rest) (C := fun _ _ => True) hs
    (fun _ _ => trivial) ?_
  rintro u e v _ ⟨rest, hu, hrest⟩ hstep
  rcases step_of_task hstep hu with hv | ⟨op, next, r, rfl, hv⟩
  · exact ⟨rest, hv, hrest⟩
  · exact ⟨next r, hv, hD op next hrest r⟩

/-- What holds of the program of every job, and is not lost by calls, holds of all that is left. -/
theorem all_tasks {D : κ → Program Op Res ε α → Prop} (hD : ∀ job, Hereditary (D job))
    (hprogram : ∀ job, D job (program job)) {s : σ} (h : Run M program (idle s) ls t)
    (ht : t.task i = some (job, rest)) : D job rest := by
  have hall : ∀ i job rest, t.task i = some (job, rest) → D job rest := by
    refine h.invariant (I := fun u => ∀ i job rest, u.task i = some (job, rest) → D job rest)
      (C := fun _ _ => True) (by simp [idle]) (fun _ _ => trivial) ?_
    intro u e v _ hu hstep i job rest hv
    rcases task_of_step hstep hv with hsame | ⟨_, rfl⟩ | ⟨op, next, _, hbefore, rfl⟩
    · exact hu i job rest hsame
    · exact hprogram job
    · exact hD job op next (hu i job _ hbefore) _
  exact hall i job rest ht

theorem started {s : σ} (h : Run M program (idle s) ls t) (ht : t.task i = some (job, rest)) :
    ∃ u, (u, .start i job) ∈ ls := by
  induction h generalizing rest with
  | start => cases ht
  | @snoc t' u ls e before last ih =>
    rcases task_of_step last ht with hsame | ⟨rfl, _⟩ | ⟨op, next, _, hbefore, _⟩
    · obtain ⟨w, hw⟩ := ih hsame
      exact ⟨w, List.mem_append_left _ hw⟩
    · exact ⟨t', by simp⟩
    · obtain ⟨w, hw⟩ := ih hbefore
      exact ⟨w, List.mem_append_left _ hw⟩

/-- If each call a job can make leaves what is read as it was or puts something there that the job
vouches for, then what is read is what was there first or is vouched for by a job started before. -/
theorem vouched {C : κ → Op → Prop} (read : σ → τ) (V : κ → τ → Prop)
    (hprogram : ∀ job, (program job).Forall (C job) fun _ => True)
    (hcall : ∀ job op s, C job op → read (M.run op s).2 = read s ∨ V job (read (M.run op s).2))
    {s : σ} (h : Run M program (idle s) ls t) :
    read t.state = read s ∨ ∃ u i job, (u, .start i job) ∈ ls ∧ V job (read t.state) := by
  have hheredity : ∀ job, Hereditary fun p : Program Op Res ε α => p.Forall (C job) fun _ => True :=
    fun _ _ _ hp => hp.2
  induction h with
  | start => exact Or.inl rfl
  | @snoc t' v ls e before last ih =>
    have hkept : read v.state = read t'.state →
        read v.state = read s ∨ ∃ u i job, (u, .start i job) ∈ ls ++ [(t', e)] ∧ V job (read v.state) := by
      intro hsame
      rw [hsame]
      rcases ih with hs | ⟨u, i, job, hu, hV⟩
      · exact Or.inl hs
      · exact Or.inr ⟨u, i, job, List.mem_append_left _ hu, hV⟩
    rcases step_cases last with ⟨i, job, rfl, _, rfl⟩ | ⟨i, job, op, next, rfl, hi, rfl⟩
    · exact hkept rfl
    · have hC := (all_tasks hheredity hprogram before hi).1
      rcases hcall job op t'.state hC with hsame | hV
      · exact hkept hsame
      · obtain ⟨u, hu⟩ := started before hi
        exact Or.inr ⟨u, i, job, List.mem_append_left _ hu, hV⟩

end Run

/-- No call of the program changed what is read. -/
def Spares (M : Machine Op Res σ) (program : κ → Program Op Res ε α) (read : σ → τ)
    (ls : List (Pool Op Res ε α σ κ × Turn κ)) (i : ℕ) : Prop :=
  ∀ u v, (u, .go i) ∈ ls → u.step M program (.go i) = some v → read v.state = read u.state

namespace Run

theorem call_made (h : Run M program s ls t) (hu : (u, .go i) ∈ ls) (hstep : u.step M program (.go i) = some v) :
    ∃ ks ms job op next, Run M program s ks u ∧ u.task i = some (job, .call op next) ∧
      v = ⟨(M.run op u.state).2, Function.update u.task i (some (job, next (M.run op u.state).1))⟩ ∧
      Run M program v ms t := by
  obtain ⟨ks, v', ms, hbefore, hstep', hafter⟩ := History.split h hu
  obtain rfl : v' = v := Option.some.inj (hstep'.symm.trans hstep)
  rcases step_cases hstep with ⟨j, _, hj, _⟩ | ⟨j, job, op, next, hj, hi, hv⟩
  · cases hj
  · cases hj
    exact ⟨ks, ms, job, op, next, hbefore, hi, hv, hafter⟩

/-- A program that has failed has made no call after which it could not fail. -/
theorem failed_spares {X : Op → Prop} {read : σ → τ} (hprogram : ∀ job, (program job).Commits X)
    (hread : ∀ op s, ¬ X op → read (M.run op s).2 = read s) {s : σ} (h : Run M program (idle s) ls t)
    {e : ε} (ht : t.task i = some (job, .raise e)) : Spares M program read ls i := by
  intro u v hu hstep
  have hcommits : ∀ job : κ, Hereditary fun p : Program Op Res ε α => p.Commits X := fun _ _ _ hp r => (hp r).2
  have hunfailing : Hereditary fun p : Program Op Res ε α => p.Unfailing := fun _ _ hp => hp
  obtain ⟨ks, ms, job', op, next, hbefore, hi, rfl, hafter⟩ := h.call_made hu hstep
  apply hread
  intro hX
  have hnext := ((all_tasks hcommits hprogram hbefore hi) (M.run op u.state).1).1 hX
  obtain ⟨rest, hrest, hun⟩ := keeps_task hunfailing hafter ⟨_, Function.update_self .., hnext⟩
  rw [ht] at hrest
  cases hrest
  exact hun

theorem refused_spares {read : σ → τ} {s : σ} (h : Run M program (idle s) ls t) {e : ε}
    (hprogram : program job = .raise e) (ht : t.task i = some (job, rest)) :
    rest = .raise e ∧ Spares M program read ls i := by
  have hD : ∀ job, Hereditary fun p : Program Op Res ε α => ∀ e, program job = .raise e → p = .raise e := by
    intro job op next hp r e he
    cases hp e he
  refine ⟨all_tasks hD (fun _ _ he => he) h ht e hprogram, fun u v hu hstep => ?_⟩
  obtain ⟨ks, ms, job', op, next, hbefore, hi, rfl, hafter⟩ := h.call_made hu hstep
  have htrivial : Hereditary fun _ : Program Op Res ε α => True := fun _ _ _ _ => trivial
  obtain ⟨_, hnow, _⟩ := keeps_task htrivial hafter ⟨_, Function.update_self .., trivial⟩
  obtain rfl : job' = job := congrArg Prod.fst (Option.some.inj (hnow.symm.trans ht))
  cases all_tasks hD (fun _ _ he => he) hbefore hi e hprogram

end Run

end Pool
end EffectPrograms
