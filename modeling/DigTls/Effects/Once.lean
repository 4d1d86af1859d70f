import DigTls.Effects.Pool

/-! # A value computed once

Programs that share a state also share a value which the first of them to need it computes, while
the others wait for it. Nobody can tell: the runs are those of the programs that have had the value
from the start. It is computed once at most, and nobody waits for ever.
-/
namespace EffectPrograms
variable {Op : Type} {Res : Op → Type} {ε α σ κ V : Type}

/-- The calls of such programs: one for the value, beside the others. -/
inductive OnceOp (Op : Type) where
  | value
  | other (op : Op)

abbrev OnceOp.Answer (Res : Op → Type) (V : Type) : OnceOp Op → Type
  | value => V
  | other op => Res op

abbrev OnceProgram (Op : Type) (Res : Op → Type) (V ε α : Type) : Type :=
  Program (OnceOp Op) (OnceOp.Answer Res V) ε α

namespace Program

def supply (v : V) : OnceProgram Op Res V ε α → Program Op Res ε α
  | done a => done a
  | raise e => raise e
  | call .value next => (next v).supply v
  | call (.other op) next => call op fun r => (next r).supply v

def sharing (V : Type) : Program Op Res ε α → OnceProgram Op Res V ε α
  | done a => done a
  | raise e => raise e
  | call op next => call (.other op) fun r => (next r).sharing V

@[simp] theorem supply_sharing (v : V) (p : Program Op Res ε α) : (p.sharing V).supply v = p := by
  induction p with
  | done a => rfl
  | raise e => rfl
  | call op next ih => exact congrArg (call op) (funext ih)

theorem supply_bind {β : Type} (v : V) (p : OnceProgram Op Res V ε α) (f : α → OnceProgram Op Res V ε β) :
    (p >>= f).supply v = p.supply v >>= fun a => (f a).supply v := by
  induction p with
  | done a => rfl
  | raise e => rfl
  | call op next ih =>
    cases op with
    | value => exact ih v
    | other op => exact congrArg (call op) (funext ih)

end Program

/-- Not asked for yet, being computed by a program, or there. -/
inductive Once (V : Type) where
  | empty
  | busy (i : ℕ)
  | full (v : V)

/-- A pool with a shared value; how often it has been computed is kept for the record. -/
structure OncePool (Op : Type) (Res : Op → Type) (V ε α σ κ : Type) where
  state : σ
  cell : Once V
  computed : ℕ
  task : ℕ → Option (κ × OnceProgram Op Res V ε α)

namespace OncePool

def idle (s : σ) : OncePool Op Res V ε α σ κ := ⟨s, .empty, 0, fun _ => none⟩

/-- A program that asks for the value takes it if it is there, computes it if nobody has begun to, and
waits otherwise. -/
def step (M : Machine Op Res σ) (value : V) (program : κ → OnceProgram Op Res V ε α)
    (s : OncePool Op Res V ε α σ κ) : Turn κ → Option (OncePool Op Res V ε α σ κ)
  | .start i job =>
    match s.task i with
    | none => some { s with task := Function.update s.task i (some (job, program job)) }
    | some _ => none
  | .go i =>
    match s.task i with
    | some (job, .call .value next) =>
      match s.cell with
      | .empty => some { s with cell := .busy i }
      | .busy j =>
        if j = i then some
          { s with
            cell := .full value
            computed := s.computed + 1
            task := Function.update s.task i (some (job, next value)) }
        else none
      | .full v => some { s with task := Function.update s.task i (some (job, next v)) }
    | some (job, .call (.other op) next) => some
        { s with
          state := (M.run op s.state).2
          task := Function.update s.task i (some (job, next (M.run op s.state).1)) }
    | _ => none

def plain (value : V) (s : OncePool Op Res V ε α σ κ) : Pool Op Res ε α σ κ :=
  ⟨s.state, fun i => (s.task i).map fun x => (x.1, x.2.supply value)⟩

abbrev Run (M : Machine Op Res σ) (value : V) (program : κ → OnceProgram Op Res V ε α) :
    OncePool Op Res V ε α σ κ → List (OncePool Op Res V ε α σ κ × Turn κ) → OncePool Op Res V ε α σ κ → Prop :=
  History fun s e t => s.step M value program e = some t

variable {M : Machine Op Res σ} {value : V} {program : κ → OnceProgram Op Res V ε α}
  {s t : OncePool Op Res V ε α σ κ} {i : ℕ} {job : κ}

inductive Steps (M : Machine Op Res σ) (value : V) (program : κ → OnceProgram Op Res V ε α)
    (s : OncePool Op Res V ε α σ κ) : Turn κ → OncePool Op Res V ε α σ κ → Prop
  | start {i : ℕ} {job : κ} (free : s.task i = none) : Steps M value program s (.start i job)
      { s with task := Function.update s.task i (some (job, program job)) }
  | begins {i : ℕ} {job : κ} {next : V → OnceProgram Op Res V ε α}
      (asks : s.task i = some (job, .call .value next)) (empty : s.cell = .empty) :
      Steps M value program s (.go i) { s with cell := .busy i }
  | computes {i : ℕ} {job : κ} {next : V → OnceProgram Op Res V ε α}
      (asks : s.task i = some (job, .call .value next)) (busy : s.cell = .busy i) :
      Steps M value program s (.go i)
        { s with
          cell := .full value
          computed := s.computed + 1
          task := Function.update s.task i (some (job, next value)) }
  | takes {i : ℕ} {job : κ} {next : V → OnceProgram Op Res V ε α} {v : V}
      (asks : s.task i = some (job, .call .value next)) (full : s.cell = .full v) :
      Steps M value program s (.go i) { s with task := Function.update s.task i (some (job, next v)) }
  | calls {i : ℕ} {job : κ} {op : Op} {next : Res op → OnceProgram Op Res V ε α}
      (due : s.task i = some (job, .call (.other op) next)) : Steps M value program s (.go i)
        { s with
          state := (M.run op s.state).2
          task := Function.update s.task i (some (job, next (M.run op s.state).1)) }

theorem step_cases {e : Turn κ} (h : s.step M value program e = some t) : Steps M value program s e t := by
  cases e with
  | start i job =>
    simp only [step] at h
    split at h
    · case h_1 hfree =>
        cases h
        exact .start hfree
    · cases h
  | go i =>
    simp only [step] at h
    split at h
    · case h_1 job next hasks =>
        split at h
        · case h_1 hempty =>
            cases h
            exact .begins hasks hempty
        · case h_2 j hbusy =>
            split at h
            · case isTrue hji =>
                cases h
                exact .computes hasks (hji ▸ hbusy)
            · cases h
        · case h_3 v hfull =>
            cases h
            exact .takes hasks hfull
    · case h_2 job op next hdue =>
        cases h
        exact .calls hdue
    · cases h

/-- The value is right where it is there, and has then been computed once; and whoever computes it
has not got it yet. -/
structure Sound (value : V) (s : OncePool Op Res V ε α σ κ) : Prop where
  full : ∀ v, s.cell = .full v → v = value ∧ s.computed = 1
  vacant : (∀ v, s.cell ≠ .full v) → s.computed = 0
  busy : ∀ i, s.cell = .busy i → ∃ job next, s.task i = some (job, .call .value next)

theorem Sound.idle (s : σ) : (idle s : OncePool Op Res V ε α σ κ).Sound value :=
  ⟨by simp [OncePool.idle], fun _ => rfl, by simp [OncePool.idle]⟩

theorem Sound.other (h : s.Sound value) {x : κ × OnceProgram Op Res V ε α} {u : σ}
    (hnot : ∀ job next, s.cell = .busy i → s.task i ≠ some (job, .call .value next)) :
    ({ s with state := u, task := Function.update s.task i (some x) } : OncePool Op Res V ε α σ κ).Sound value := by
  refine ⟨h.full, h.vacant, fun j hj => ?_⟩
  obtain ⟨job, next, hjob⟩ := h.busy j hj
  by_cases hji : j = i
  · subst hji
    exact absurd hjob (hnot job next hj)
  · exact ⟨job, next, by simpa [Function.update_of_ne hji] using hjob⟩

theorem Sound.step {e : Turn κ} (h : s.Sound value) (hstep : s.step M value program e = some t) :
    t.Sound value := by
  cases step_cases hstep with
  | start hfree =>
    apply h.other
    intro job next _
    simp [hfree]
  | @begins i job next hasks hempty =>
    have hnone : s.computed = 0 := h.vacant fun v hv => by simp [hempty] at hv
    refine ⟨fun v hv => by simp at hv, fun _ => hnone, fun j hj => ?_⟩
    cases hj
    exact ⟨job, next, hasks⟩
  | computes hasks hbusy =>
    have hnone : s.computed = 0 := h.vacant fun v hv => by simp [hbusy] at hv
    refine ⟨fun v hv => ?_, fun hopen => absurd rfl (hopen value), fun j hj => by simp at hj⟩
    cases hv
    exact ⟨rfl, by simp [hnone]⟩
  | takes hasks hfull =>
    apply h.other
    intro _ _ hbusy
    simp [hfull] at hbusy
  | calls hdue =>
    apply h.other
    intro job next _
    simp [hdue]

def supplied (value : V) (program : κ → OnceProgram Op Res V ε α) (job : κ) : Program Op Res ε α :=
  (program job).supply value

theorem plain_update (s : OncePool Op Res V ε α σ κ) (u : σ) (cell : Once V) (n : ℕ) (i : ℕ)
    (x : κ × OnceProgram Op Res V ε α) :
    (⟨u, cell, n, Function.update s.task i (some x)⟩ : OncePool Op Res V ε α σ κ).plain value =
      ⟨u, Function.update (s.plain value).task i (some (x.1, x.2.supply value))⟩ := by
  simp only [plain, Pool.mk.injEq, true_and]
  funext j
  by_cases hj : j = i
  · subst hj
    simp
  · simp [Function.update_of_ne hj]

theorem plain_asks {next : V → OnceProgram Op Res V ε α} (hasks : s.task i = some (job, .call .value next)) :
    (s.plain value).task i = some (job, (next value).supply value) := by
  simp only [plain, hasks]
  rfl

/-- A step is one of the plain pool, or does not show there. -/
theorem Sound.plain_step {e : Turn κ} (h : s.Sound value) (hstep : s.step M value program e = some t) :
    t.plain value = s.plain value ∨
      (s.plain value).step M (supplied value program) e = some (t.plain value) := by
  cases step_cases hstep with
  | @start i job hfree =>
    right
    have hidle : (s.plain value).task i = none := by simp [plain, hfree]
    rw [plain_update]
    simp only [Pool.step, hidle]
    rfl
  | begins => exact Or.inl rfl
  | computes hasks _ =>
    left
    rw [plain_update, ← plain_asks hasks, Function.update_eq_self]
    rfl
  | takes hasks hfull =>
    left
    obtain ⟨rfl, _⟩ := h.full _ hfull
    rw [plain_update, ← plain_asks hasks, Function.update_eq_self]
    rfl
  | @calls i job op next hdue =>
    right
    have hplain : (s.plain value).task i = some (job, .call op fun r => (next r).supply value) := by
      simp only [plain, hdue]
      rfl
    rw [plain_update]
    simp only [Pool.step, hplain]
    rfl

variable (M program) in
theorem Sound.computes (h : s.Sound value) (hbusy : s.cell = .busy i) :
    ∃ t, s.step M value program (.go i) = some t ∧ t.plain value = s.plain value ∧ t.cell = .full value := by
  obtain ⟨job, next, hasks⟩ := h.busy i hbusy
  refine ⟨{ s with
      cell := .full value
      computed := s.computed + 1
      task := Function.update s.task i (some (job, next value)) }, ?_, ?_, rfl⟩
  · simp only [OncePool.step, hasks, hbusy, if_true]
  · rw [plain_update, ← plain_asks hasks, Function.update_eq_self]
    rfl

variable (M program) in
/-- Where someone asks for the value it can be had without anything else happening. -/
theorem Sound.fills (h : s.Sound value) {next : V → OnceProgram Op Res V ε α}
    (hasks : s.task i = some (job, .call .value next)) :
    ∃ ls t, Run M value program s ls t ∧ t.Sound value ∧ t.plain value = s.plain value ∧ t.cell = .full value := by
  cases hcell : s.cell with
  | full v =>
    obtain ⟨rfl, _⟩ := h.full v hcell
    exact ⟨[], s, .start s, h, rfl, hcell⟩
  | busy j =>
    obtain ⟨t, hstep, hplain, hfull⟩ := h.computes M program hcell
    exact ⟨_, t, .single hstep, h.step hstep, hplain, hfull⟩
  | empty =>
    have hbegins : s.step M value program (.go i) = some { s with cell := .busy i } := by
      simp only [OncePool.step, hasks, hcell]
    have hbegun := h.step hbegins
    obtain ⟨t, hstep, hplain, hfull⟩ := hbegun.computes M program rfl
    exact ⟨_, t, .append (.single hbegins) (.single hstep), hbegun.step hstep, hplain, hfull⟩

/-- With the value there a program comes to its next call without anything else happening. -/
theorem Sound.arrives (h : s.Sound value) (hfull : s.cell = .full value) {q : OnceProgram Op Res V ε α} {op : Op}
    {next : Res op → Program Op Res ε α} (htask : s.task i = some (job, q)) (hq : q.supply value = .call op next) :
    ∃ ls t rest, Run M value program s ls t ∧ t.Sound value ∧ t.plain value = s.plain value ∧
      t.task i = some (job, .call (.other op) rest) := by
  induction q generalizing s with
  | done a => cases hq
  | raise e => cases hq
  | call op' rest ih =>
    cases op' with
    | value =>
      have htakes : s.step M value program (.go i) =
          some { s with task := Function.update s.task i (some (job, rest value)) } := by
        simp only [OncePool.step, htask, hfull]
      have hplain : ({ s with task := Function.update s.task i (some (job, rest value)) } :
          OncePool Op Res V ε α σ κ).plain value = s.plain value := by
        rw [plain_update, ← plain_asks htask, Function.update_eq_self]
        rfl
      obtain ⟨ls, t, rest', hrun, ht, hsame, hdue⟩ :=
        ih value (h.step htakes) hfull (Function.update_self ..) hq
      exact ⟨_, t, rest', .append (.single htakes) hrun, ht, hsame.trans hplain, hdue⟩
    | other op' =>
      cases hq
      exact ⟨[], s, rest, .start s, h, rfl, htask⟩

theorem task_of_plain {p : Program Op Res ε α} (h : (s.plain value).task i = some (job, p)) :
    ∃ q, s.task i = some (job, q) ∧ q.supply value = p := by
  obtain ⟨⟨job', q⟩, hq, heq⟩ := Option.map_eq_some_iff.mp h
  cases heq
  exact ⟨q, hq, rfl⟩

theorem Sound.follows {e : Turn κ} {p : Pool Op Res ε α σ κ} (h : s.Sound value)
    (hstep : (s.plain value).step M (supplied value program) e = some p) :
    ∃ ls t, Run M value program s ls t ∧ t.Sound value ∧ t.plain value = p := by
  rcases Pool.step_cases hstep with ⟨i, job, rfl, hfree, rfl⟩ | ⟨i, job, op, next, rfl, hdue, rfl⟩
  · have hidle : s.task i = none := by simpa [plain] using hfree
    have hstart : s.step M value program (.start i job) =
        some { s with task := Function.update s.task i (some (job, program job)) } := by
      simp only [OncePool.step, hidle]
    refine ⟨_, _, .single hstart, h.step hstart, ?_⟩
    rw [plain_update]
    rfl
  · have hvalue : ∃ ls t, Run M value program s ls t ∧ t.Sound value ∧ t.plain value = s.plain value ∧
        ∃ rest, t.task i = some (job, .call (.other op) rest) := by
      obtain ⟨q, htask, hq⟩ := task_of_plain hdue
      cases q with
      | done a => cases hq
      | raise e => cases hq
      | call op' rest =>
        cases op' with
        | other op' =>
          cases hq
          exact ⟨[], s, .start s, h, rfl, rest, htask⟩
        | value =>
          obtain ⟨ls, u, hrun, hu, hsame, hfull⟩ := h.fills M program htask
          obtain ⟨q', htask', hq'⟩ := task_of_plain (hsame ▸ hdue)
          obtain ⟨ls', t, rest', hrun', ht, hsame', hdue'⟩ := hu.arrives hfull htask' hq'
          exact ⟨ls ++ ls', t, hrun.append hrun', ht, hsame'.trans hsame, rest', hdue'⟩
    obtain ⟨ls, t, hrun, ht, hsame, rest, htask⟩ := hvalue
    have hcalls : t.step M value program (.go i) = some
        { t with
          state := (M.run op t.state).2
          task := Function.update t.task i (some (job, rest (M.run op t.state).1)) } := by
      simp only [OncePool.step, htask]
    have hthere : (t.plain value).task i = some (job, .call op fun r => (rest r).supply value) := by
      simp only [plain, htask]
      rfl
    rw [hsame, hdue] at hthere
    cases hthere
    refine ⟨_, _, hrun.append (.single hcalls), ht.step hcalls, ?_⟩
    rw [plain_update, hsame]
    have hstate : t.state = s.state := congrArg Pool.state hsame
    rw [hstate]
    rfl

/-- The runs of a pool with a shared value are those of the programs that have had it from the start. -/
theorem run_iff {s₀ : σ} {p : Pool Op Res ε α σ κ} :
    (∃ ls s, Run M value program (idle s₀) ls s ∧ s.plain value = p) ↔
      ∃ ls, Pool.Run M (supplied value program) (Pool.idle s₀) ls p := by
  constructor
  · rintro ⟨ls, s, hrun, rfl⟩
    have hboth : s.Sound value ∧ ∃ ls, Pool.Run M (supplied value program) (Pool.idle s₀) ls (s.plain value) := by
      induction hrun with
      | start => exact ⟨.idle s₀, [], .start _⟩
      | snoc _ last ih =>
        obtain ⟨hsound, ls, hplain⟩ := ih
        refine ⟨hsound.step last, ?_⟩
        rcases hsound.plain_step last with hsame | hstep
        · exact ⟨ls, hsame ▸ hplain⟩
        · exact ⟨_, hplain.snoc hstep⟩
    exact hboth.2
  · rintro ⟨ls, hrun⟩
    have hboth : ∃ ls s, Run M value program (idle s₀) ls s ∧ s.Sound value ∧ s.plain value = p := by
      induction hrun with
      | start => exact ⟨[], _, .start _, .idle s₀, rfl⟩
      | snoc _ last ih =>
        obtain ⟨ls, s, hs, hsound, rfl⟩ := ih
        obtain ⟨ls', t, ht, hsound', hplain⟩ := hsound.follows last
        exact ⟨ls ++ ls', t, hs.append ht, hsound', hplain⟩
    obtain ⟨ls, s, hs, _, hplain⟩ := hboth
    exact ⟨ls, s, hs, hplain⟩

theorem Run.sound {s₀ : σ} {ls : List (OncePool Op Res V ε α σ κ × Turn κ)}
    (h : Run M value program (idle s₀) ls s) : s.Sound value :=
  h.invariant (C := fun _ _ => True) (.idle s₀) (fun _ _ => trivial) fun _ _ _ _ hs hstep => hs.step hstep

/-- A program with a call to make can go on, at once or when the one it waits for has made its step. -/
theorem Sound.unblocked (h : s.Sound value) {op : OnceOp Op}
    {next : OnceOp.Answer Res V op → OnceProgram Op Res V ε α} (htask : s.task i = some (job, .call op next)) :
    (s.step M value program (.go i)).isSome ∨
      ∃ j t, s.step M value program (.go j) = some t ∧ (t.step M value program (.go i)).isSome := by
  cases op with
  | other op => exact Or.inl (by simp only [OncePool.step, htask, Option.isSome_some])
  | value =>
    cases hcell : s.cell with
    | empty => exact Or.inl (by simp only [OncePool.step, htask, hcell, Option.isSome_some])
    | full v => exact Or.inl (by simp only [OncePool.step, htask, hcell, Option.isSome_some])
    | busy j =>
      by_cases hji : j = i
      · exact Or.inl (by simp only [OncePool.step, htask, hcell, if_pos hji, Option.isSome_some])
      · obtain ⟨job', next', hasks⟩ := h.busy j hcell
        have hcomputes : s.step M value program (.go j) = some
            { s with
              cell := .full value
              computed := s.computed + 1
              task := Function.update s.task j (some (job', next' value)) } := by
          simp only [OncePool.step, hasks, hcell, if_true]
        refine Or.inr ⟨j, _, hcomputes, ?_⟩
        have hkept : Function.update s.task j (some (job', next' value)) i = some (job, .call .value next) := by
          rw [Function.update_of_ne fun hij => hji hij.symm]
          exact htask
        simp only [OncePool.step, hkept, Option.isSome_some]

end OncePool

end EffectPrograms
