import Mathlib.Data.List.Basic
import Mathlib.Logic.Relation

/-! # Programs that call fallible primitive operations

A program is the tree of the primitive calls it makes. A machine says what a call
does when it works, which failing answers it may give instead, and what a crash
in the middle of it leaves behind. The three readings of a program (the healthy
run, the runs cut short, the runs interleaved with another program) share the tree.
-/
namespace EffectPrograms
variable {Op : Type} {Res : Op → Type} {ε α β σ : Type}

theorem bind_eq_ok {x : Except ε α} {f : α → Except ε β} {b : β} :
    (x >>= f) = .ok b ↔ ∃ a, x = .ok a ∧ f a = .ok b := by
  cases x <;> simp [bind, Except.bind]

theorem mapError_eq_ok {ε' : Type} {x : Except ε α} {f : ε → ε'} {a : α} :
    x.mapError f = .ok a ↔ x = .ok a := by
  cases x <;> simp [Except.mapError]

/-- A program over the primitive calls `Op`, which answers `a` or fails with `e`. -/
inductive Program (Op : Type) (Res : Op → Type) (ε α : Type) where
  | done (a : α)
  | raise (e : ε)
  | call (op : Op) (next : Res op → Program Op Res ε α)

namespace Program

/-- Sequencing: an error ends the program, as the question mark does in the source. -/
def bind : Program Op Res ε α → (α → Program Op Res ε β) → Program Op Res ε β
  | done a, f => f a
  | raise e, _ => raise e
  | call op next, f => call op fun r => (next r).bind f

instance : Monad (Program Op Res ε) where
  pure := done
  bind := bind

@[simp] theorem pure_eq (a : α) : (pure a : Program Op Res ε α) = done a := rfl
@[simp] theorem done_bind (a : α) (f : α → Program Op Res ε β) : (done a >>= f) = f a := rfl
@[simp] theorem raise_bind (e : ε) (f : α → Program Op Res ε β) : (raise e >>= f) = raise e := rfl
@[simp] theorem call_bind (op : Op) (next : Res op → Program Op Res ε α)
    (f : α → Program Op Res ε β) : (call op next >>= f) = call op fun r => next r >>= f := rfl

theorem bind_assoc' {γ : Type} (p : Program Op Res ε α) (f : α → Program Op Res ε β)
    (g : β → Program Op Res ε γ) : (p >>= f >>= g) = p >>= fun a => f a >>= g := by
  induction p with
  | done a => rfl
  | raise e => rfl
  | call op next ih =>
    simp only [call_bind]
    exact congrArg (call op) (funext ih)

/-- A computation that makes no call. -/
def ofExcept : Except ε α → Program Op Res ε α
  | .ok a => done a
  | .error e => raise e

def result : Program Op Res ε α → Option (Except ε α)
  | done a => some (.ok a)
  | raise e => some (.error e)
  | call _ _ => none

/-- Every call the program can make satisfies `C`, and every value it can end with `A`. -/
def Forall (C : Op → Prop) (A : α → Prop) : Program Op Res ε α → Prop
  | done a => A a
  | raise _ => True
  | call op next => C op ∧ ∀ r, (next r).Forall C A

theorem Forall.bind {C : Op → Prop} {A : α → Prop} {A' : β → Prop} {p : Program Op Res ε α}
    {f : α → Program Op Res ε β} (h : p.Forall C A) (next : ∀ a, A a → (f a).Forall C A') :
    (p >>= f).Forall C A' := by
  induction p with
  | done a => exact next a h
  | raise e => trivial
  | call op k ih => exact ⟨h.1, fun r => ih r (h.2 r)⟩

theorem Forall.mono {C C' : Op → Prop} {A : α → Prop} {p : Program Op Res ε α} (h : p.Forall C A)
    (hcc : ∀ op, C op → C' op) : p.Forall C' A := by
  induction p with
  | done a => exact h
  | raise e => trivial
  | call op next ih => exact ⟨hcc op h.1, fun r => ih r (h.2 r)⟩

theorem forall_true (p : Program Op Res ε α) : p.Forall (fun _ => True) fun _ => True := by
  induction p with
  | done a => trivial
  | raise e => trivial
  | call op next ih => exact ⟨trivial, ih⟩

theorem Forall.ofExcept {C : Op → Prop} {A : α → Prop} {x : Except ε α} (h : ∀ a, x = .ok a → A a) :
    (ofExcept x : Program Op Res ε α).Forall C A := by
  cases x with
  | ok a => exact h a rfl
  | error e => trivial

end Program

/-- What the primitive calls do to a state: `run` is the healthy call, `fault` an
answer given by a call that failed, `torn` the states a crash may leave. -/
structure Machine (Op : Type) (Res : Op → Type) (σ : Type) where
  run : (op : Op) → σ → Res op × σ
  fault : (op : Op) → σ → Res op → σ → Prop
  torn : Op → σ → σ → Prop

def Machine.reliable (run : (op : Op) → σ → Res op × σ) : Machine Op Res σ where
  run := run
  fault _ _ _ _ := False
  torn _ _ _ := False

variable (M : Machine Op Res σ)

/-- The uninterrupted run. -/
def exec : Program Op Res ε α → σ → Except ε α × σ
  | .done a, s => (.ok a, s)
  | .raise e, s => (.error e, s)
  | .call op next, s => exec (next (M.run op s).1) (M.run op s).2

theorem exec_call (op : Op) (next : Res op → Program Op Res ε α) (s : σ) :
    exec M (.call op next) s = exec M (next (M.run op s).1) (M.run op s).2 := rfl

theorem exec_bind (p : Program Op Res ε α) (f : α → Program Op Res ε β) (s : σ) :
    exec M (p >>= f) s = match exec M p s with
      | (.ok a, t) => exec M (f a) t
      | (.error e, t) => (.error e, t) := by
  induction p generalizing s with
  | done a => rfl
  | raise e => rfl
  | call op next ih => exact ih _ _

/-- The uninterrupted run does not depend on how calls may go wrong. -/
theorem exec_congr {M' : Machine Op Res σ} (hrun : M'.run = M.run) (p : Program Op Res ε α) (s : σ) :
    exec M' p s = exec M p s := by
  induction p generalizing s with
  | done a => rfl
  | raise e => rfl
  | call op next ih => rw [exec_call, exec_call, hrun, ih]

/-- `Outcome M p s trace o t`: started in `s`, the program made the healthy calls
`trace` and stopped in `t`, with answer `o`, or with no answer at all when it crashed. -/
inductive Outcome : Program Op Res ε α → σ → List Op → Option (Except ε α) → σ → Prop
  | done (a : α) (s : σ) : Outcome (.done a) s [] (some (.ok a)) s
  | raise (e : ε) (s : σ) : Outcome (.raise e) s [] (some (.error e)) s
  | step {op : Op} {next : Res op → Program Op Res ε α} {s t : σ} {trace : List Op}
      {o : Option (Except ε α)} (later : Outcome (next (M.run op s).1) (M.run op s).2 trace o t) :
      Outcome (.call op next) s (op :: trace) o t
  | fault {op : Op} {next : Res op → Program Op Res ε α} {s u t : σ} {r : Res op} {trace : List Op}
      {o : Option (Except ε α)} (failed : M.fault op s r u) (later : Outcome (next r) u trace o t) :
      Outcome (.call op next) s trace o t
  | crash {op : Op} {next : Res op → Program Op Res ε α} {s t : σ} (cut : M.torn op s t) :
      Outcome (.call op next) s [] none t

variable {M}

/-- What is true of everything a program can do and end with is true of its outcomes. -/
theorem Outcome.forall {C : Op → Prop} {A : α → Prop} {p : Program Op Res ε α} {s t : σ}
    {trace : List Op} {o : Option (Except ε α)} (h : Outcome M p s trace o t) (hp : p.Forall C A) :
    (∀ op ∈ trace, C op) ∧ ∀ a, o = some (.ok a) → A a := by
  induction h with
  | done a s => exact ⟨by simp, by rintro _ ⟨⟩; exact hp⟩
  | raise e s => exact ⟨by simp, by simp⟩
  | step _ ih =>
    obtain ⟨hcalls, hanswer⟩ := ih (hp.2 _)
    exact ⟨List.forall_mem_cons.mpr ⟨hp.1, hcalls⟩, hanswer⟩
  | fault _ _ ih => exact ih (hp.2 _)
  | crash => exact ⟨by simp, by simp⟩

/-- The outcomes of a program on one machine are outcomes on another, if all the calls it can
make can go on the other as they go on the first. -/
theorem Outcome.transfer {C : Op → Prop} {A : α → Prop} {p : Program Op Res ε α} {s t : σ}
    {trace : List Op} {o : Option (Except ε α)} (h : Outcome M p s trace o t) (hp : p.Forall C A)
    (M' : Machine Op Res σ) (hrun : M'.run = M.run)
    (hfault : ∀ op s r t, C op → M.fault op s r t → M'.fault op s r t)
    (htorn : ∀ op s t, C op → M.torn op s t → M'.torn op s t) : Outcome M' p s trace o t := by
  induction h with
  | done a s => exact .done a s
  | raise e s => exact .raise e s
  | step _ ih =>
    have hlater := ih (hp.2 _)
    rw [← hrun] at hlater
    exact .step hlater
  | fault failed _ ih => exact .fault (hfault _ _ _ _ hp.1 failed) (ih (hp.2 _))
  | crash cut => exact .crash (htorn _ _ _ hp.1 cut)

theorem Outcome.bind {p : Program Op Res ε α} {f : α → Program Op Res ε β} {s t u : σ} {a : α}
    {trace trace' : List Op} {o : Option (Except ε β)} (h : Outcome M p s trace (some (.ok a)) t)
    (next : Outcome M (f a) t trace' o u) : Outcome M (p >>= f) s (trace ++ trace') o u := by
  generalize ho : some (Except.ok a) = answer at h
  induction h with
  | done b s =>
    cases ho
    exact next
  | raise e s => cases ho
  | step _ ih => exact .step (ih next ho)
  | fault failed _ ih => exact .fault failed (ih next ho)
  | crash => cases ho

theorem Outcome.bind_cut {p : Program Op Res ε α} (f : α → Program Op Res ε β) {s t : σ}
    {trace : List Op} (h : Outcome M p s trace none t) : Outcome M (p >>= f) s trace none t := by
  generalize ho : (none : Option (Except ε α)) = answer at h
  induction h with
  | done a s => cases ho
  | raise e s => cases ho
  | step _ ih => exact .step (ih ho)
  | fault failed _ ih => exact .fault failed (ih ho)
  | crash cut => exact .crash cut

theorem outcome_exec (p : Program Op Res ε α) (s : σ) :
    ∃ trace, Outcome M p s trace (some (exec M p s).1) (exec M p s).2 := by
  induction p generalizing s with
  | done a => exact ⟨[], .done a s⟩
  | raise e => exact ⟨[], .raise e s⟩
  | call op next ih =>
    obtain ⟨trace, h⟩ := ih (M.run op s).1 (M.run op s).2
    exact ⟨op :: trace, .step h⟩

/-- The program cut by a crash after `n` healthy calls: the calls made and the state left. -/
def cutAfter (M : Machine Op Res σ) : ℕ → Program Op Res ε α → σ → Option (List Op × σ)
  | 0, .call _ _, s => some ([], s)
  | n + 1, .call op next, s =>
    (cutAfter M n (next (M.run op s).1) (M.run op s).2).map fun r => (op :: r.1, r.2)
  | _, _, _ => none

theorem outcome_cutAfter (hcut : ∀ op s, M.torn op s s) {n : ℕ} {p : Program Op Res ε α} {s t : σ}
    {trace : List Op} (h : cutAfter M n p s = some (trace, t)) : Outcome M p s trace none t := by
  induction n generalizing p s trace with
  | zero =>
    cases p with
    | done a => cases h
    | raise e => cases h
    | call op next =>
      cases h
      exact .crash (hcut op _)
  | succ n ih =>
    cases p with
    | done a => cases h
    | raise e => cases h
    | call op next =>
      obtain ⟨r, hr, hpair⟩ := Option.map_eq_some_iff.mp h
      cases hpair
      exact .step (ih hr)

/-- The program along a script, which says of each call whether it works or gives its failing
answer; the crash comes where the script ends. -/
def followScript (M : Machine Op Res σ) (fail : (op : Op) → Res op) :
    List Bool → Program Op Res ε α → σ → Option (List Op × σ)
  | [], .call _ _, s => some ([], s)
  | true :: script, .call op next, s =>
    (followScript M fail script (next (M.run op s).1) (M.run op s).2).map fun r => (op :: r.1, r.2)
  | false :: script, .call op next, s => followScript M fail script (next (fail op)) s
  | _, _, _ => none

theorem outcome_followScript {fail : (op : Op) → Res op} (hcut : ∀ op s, M.torn op s s)
    (hfail : ∀ op s, M.fault op s (fail op) s) {script : List Bool} {p : Program Op Res ε α} {s t : σ}
    {trace : List Op} (h : followScript M fail script p s = some (trace, t)) : Outcome M p s trace none t := by
  induction script generalizing p s trace with
  | nil =>
    cases p with
    | done a => cases h
    | raise e => cases h
    | call op next =>
      cases h
      exact .crash (hcut op _)
  | cons works script ih =>
    cases p with
    | done a => cases works <;> cases h
    | raise e => cases works <;> cases h
    | call op next =>
      cases works with
      | true =>
        obtain ⟨r, hr, hpair⟩ := Option.map_eq_some_iff.mp h
        cases hpair
        exact .step (ih hr)
      | false => exact .fault (hfail op s) (ih h)

/-- Every outcome of the program from this state satisfies the postcondition. -/
def Ensures (M : Machine Op Res σ) (p : Program Op Res ε α) (s : σ)
    (Q : List Op → Option (Except ε α) → σ → Prop) : Prop :=
  ∀ trace o t, Outcome M p s trace o t → Q trace o t

theorem Ensures.mono {p : Program Op Res ε α} {s : σ}
    {Q R : List Op → Option (Except ε α) → σ → Prop} (h : Ensures M p s Q)
    (hqr : ∀ trace o t, Q trace o t → R trace o t) : Ensures M p s R :=
  fun trace o t ho => hqr trace o t (h trace o t ho)

theorem Ensures.and {p : Program Op Res ε α} {s : σ}
    {Q R : List Op → Option (Except ε α) → σ → Prop} (hq : Ensures M p s Q) (hr : Ensures M p s R) :
    Ensures M p s fun trace o t => Q trace o t ∧ R trace o t :=
  fun trace o t ho => ⟨hq trace o t ho, hr trace o t ho⟩

theorem Ensures.done {a : α} {s : σ} {Q : List Op → Option (Except ε α) → σ → Prop}
    (h : Q [] (some (.ok a)) s) : Ensures M (.done a) s Q := by
  intro trace o t ho
  cases ho
  exact h

theorem Ensures.raise {e : ε} {s : σ} {Q : List Op → Option (Except ε α) → σ → Prop}
    (h : Q [] (some (.error e)) s) : Ensures M (.raise e) s Q := by
  intro trace o t ho
  cases ho
  exact h

/-- One call: it works, or it fails and the program goes on with the failing answer, or
the crash comes before it has taken full effect. -/
theorem Ensures.call {op : Op} {next : Res op → Program Op Res ε α} {s : σ}
    {Q : List Op → Option (Except ε α) → σ → Prop}
    (works : Ensures M (next (M.run op s).1) (M.run op s).2 fun trace => Q (op :: trace))
    (fails : ∀ r u, M.fault op s r u → Ensures M (next r) u Q)
    (crashes : ∀ t, M.torn op s t → Q [] none t) : Ensures M (.call op next) s Q := by
  intro trace o t ho
  cases ho with
  | step later => exact works _ _ _ later
  | fault failed later => exact fails _ _ failed _ _ _ later
  | crash cut => exact crashes _ cut

theorem Ensures.call_of_run {op : Op} {next : Res op → Program Op Res ε α} {s t : σ} {r : Res op}
    {Q : List Op → Option (Except ε α) → σ → Prop} (hrun : M.run op s = (r, t))
    (works : Ensures M (next r) t fun trace => Q (op :: trace))
    (fails : ∀ r u, M.fault op s r u → Ensures M (next r) u Q)
    (crashes : ∀ t, M.torn op s t → Q [] none t) : Ensures M (.call op next) s Q := by
  refine Ensures.call ?_ fails crashes
  rw [hrun]
  exact works

/-- Sequencing: the second program starts where the first one answered. -/
theorem Ensures.bind {p : Program Op Res ε α} {f : α → Program Op Res ε β} {s : σ}
    {Q : List Op → Option (Except ε β) → σ → Prop}
    (h : Ensures M p s fun trace o t => match o with
      | some (.ok a) => Ensures M (f a) t fun trace' => Q (trace ++ trace')
      | some (.error e) => Q trace (some (.error e)) t
      | none => Q trace none t) : Ensures M (p >>= f) s Q := by
  induction p generalizing s Q with
  | done a => simpa using h _ _ _ (.done a s)
  | raise e => exact Ensures.raise (by simpa using h _ _ _ (.raise e s))
  | call op next ih =>
    rw [Program.call_bind]
    apply Ensures.call
    · exact ih _ fun trace o t ho => by simpa using h _ _ _ (.step ho)
    · exact fun r u hf => ih _ fun trace o t ho => h _ _ _ (.fault hf ho)
    · exact fun t ht => h _ _ _ (.crash ht)

theorem Ensures.uninterrupted {p : Program Op Res ε α} {s : σ}
    {Q : List Op → Option (Except ε α) → σ → Prop} (h : Ensures M p s Q) :
    ∃ trace, Q trace (some (exec M p s).1) (exec M p s).2 := by
  obtain ⟨trace, ho⟩ := outcome_exec (M := M) p s
  exact ⟨trace, h _ _ _ ho⟩

/-- Whatever happens to the program, `I` is kept, and a good answer satisfies `A`. -/
def Keeps (M : Machine Op Res σ) (I : σ → Prop) (p : Program Op Res ε α) (A : α → Prop) : Prop :=
  ∀ s, I s → Ensures M p s fun _ o t => I t ∧ ∀ a, o = some (.ok a) → A a

section Keeps
variable {I : σ → Prop} {A : α → Prop} {A' : β → Prop} {p : Program Op Res ε α}
  {f : α → Program Op Res ε β}

theorem Keeps.done {a : α} (h : A a) : Keeps M I (.done a : Program Op Res ε α) A :=
  fun _ hs => Ensures.done ⟨hs, by rintro _ ⟨⟩; exact h⟩

theorem Keeps.raise {e : ε} : Keeps M I (.raise e : Program Op Res ε α) A :=
  fun _ hs => Ensures.raise ⟨hs, by simp⟩

theorem Keeps.bind (h : Keeps M I p A) (next : ∀ a, A a → Keeps M I (f a) A') :
    Keeps M I (p >>= f) A' := by
  intro s hs
  refine Ensures.bind ((h s hs).mono ?_)
  rintro trace o t ⟨ht, hA⟩
  rcases o with _ | e | a
  · exact ⟨ht, by simp⟩
  · exact ⟨ht, by simp⟩
  · exact next a (hA a rfl) t ht

theorem Keeps.call {op : Op} {next : Res op → Program Op Res ε α}
    (run : ∀ s, I s → I (M.run op s).2) (fault : ∀ s r t, M.fault op s r t → I s → I t)
    (torn : ∀ s t, M.torn op s t → I s → I t) (later : ∀ r, Keeps M I (next r) A) :
    Keeps M I (.call op next) A := by
  intro s hs
  apply Ensures.call
  · exact later _ _ (run s hs)
  · exact fun r u hf => later r u (fault s r u hf hs)
  · exact fun t ht => ⟨torn s t ht hs, by simp⟩

/-- An invariant of all calls that a program can make is one of the program. -/
theorem keeps_forall {C : Op → Prop} (run : ∀ op s, C op → I s → I (M.run op s).2)
    (fault : ∀ op s r t, C op → M.fault op s r t → I s → I t)
    (torn : ∀ op s t, C op → M.torn op s t → I s → I t) (hp : p.Forall C A) : Keeps M I p A := by
  induction p with
  | done a => exact Keeps.done hp
  | raise e => exact Keeps.raise
  | call op next ih =>
    obtain ⟨hop, hnext⟩ := hp
    refine Keeps.call (fun s => run op s hop) (fun s r t => fault op s r t hop) (fun s t => torn op s t hop) ?_
    exact fun r => ih r (hnext r)

theorem keeps_all (run : ∀ op s, I s → I (M.run op s).2)
    (fault : ∀ op s r t, M.fault op s r t → I s → I t) (torn : ∀ op s t, M.torn op s t → I s → I t)
    (p : Program Op Res ε α) : Keeps M I p fun _ => True :=
  keeps_forall (fun op s _ => run op s) (fun op s r t _ => fault op s r t) (fun op s t _ => torn op s t)
    p.forall_true

end Keeps

/-- Whatever happens to the program, `I` holds in the end, and a good answer comes with `A`. -/
def Gives (M : Machine Op Res σ) (I : σ → Prop) (p : Program Op Res ε α) (s : σ) (A : α → σ → Prop) : Prop :=
  Ensures M p s fun _ o t => I t ∧ ∀ a, o = some (.ok a) → A a t

section Gives
variable {I : σ → Prop} {A : α → σ → Prop} {A' : β → σ → Prop} {p : Program Op Res ε α}
  {f : α → Program Op Res ε β} {s : σ}

theorem Gives.done {a : α} (hs : I s) (h : A a s) : Gives M I (.done a : Program Op Res ε α) s A :=
  Ensures.done ⟨hs, by rintro _ ⟨⟩; exact h⟩

theorem Gives.raise {e : ε} (hs : I s) : Gives M I (.raise e : Program Op Res ε α) s A :=
  Ensures.raise ⟨hs, by simp⟩

theorem Gives.mono {A' : α → σ → Prop} (h : Gives M I p s A) (haa : ∀ a t, I t → A a t → A' a t) :
    Gives M I p s A' :=
  Ensures.mono h fun _ _ t ⟨ht, hA⟩ => ⟨ht, fun a ha => haa a t ht (hA a ha)⟩

theorem Gives.bind (h : Gives M I p s A) (next : ∀ a t, I t → A a t → Gives M I (f a) t A') :
    Gives M I (p >>= f) s A' := by
  refine Ensures.bind (Ensures.mono h ?_)
  rintro trace o t ⟨ht, hA⟩
  rcases o with _ | e | a
  · exact ⟨ht, by simp⟩
  · exact ⟨ht, by simp⟩
  · exact next a t ht (hA a rfl)

theorem Gives.call {op : Op} {next : Res op → Program Op Res ε α}
    (works : Gives M I (next (M.run op s).1) (M.run op s).2 A)
    (fails : ∀ r t, M.fault op s r t → Gives M I (next r) t A) (crashes : ∀ t, M.torn op s t → I t) :
    Gives M I (.call op next) s A :=
  Ensures.call works fails fun t ht => ⟨crashes t ht, by simp⟩

end Gives

/-- Whatever happens to the program, a good answer comes with `A` and an error with `E`. -/
def Ends (M : Machine Op Res σ) (p : Program Op Res ε α) (s : σ) (A : α → σ → Prop) (E : σ → Prop) : Prop :=
  Ensures M p s fun _ o t => (∀ a, o = some (.ok a) → A a t) ∧ ∀ e, o = some (.error e) → E t

section Ends
variable {A : α → σ → Prop} {A' : β → σ → Prop} {E : σ → Prop} {p : Program Op Res ε α}
  {f : α → Program Op Res ε β} {s : σ}

theorem Ends.done {a : α} (h : A a s) : Ends M (.done a : Program Op Res ε α) s A E :=
  Ensures.done ⟨by rintro _ ⟨⟩; exact h, by simp⟩

theorem Ends.raise {e : ε} (h : E s) : Ends M (.raise e : Program Op Res ε α) s A E :=
  Ensures.raise ⟨by simp, fun _ _ => h⟩

theorem Ends.mono {A' : α → σ → Prop} {E' : σ → Prop} (h : Ends M p s A E) (haa : ∀ a t, A a t → A' a t)
    (hee : ∀ t, E t → E' t) : Ends M p s A' E' :=
  Ensures.mono h fun _ _ t ⟨hA, hE⟩ => ⟨fun a ha => haa a t (hA a ha), fun e he => hee t (hE e he)⟩

theorem Ends.bind (h : Ends M p s A E) (next : ∀ a t, A a t → Ends M (f a) t A' E) :
    Ends M (p >>= f) s A' E := by
  refine Ensures.bind (Ensures.mono h ?_)
  rintro trace o t ⟨hA, hE⟩
  rcases o with _ | e | a
  · exact ⟨by simp, by simp⟩
  · exact ⟨by simp, fun _ _ => hE e rfl⟩
  · exact next a t (hA a rfl)

theorem Ends.call {op : Op} {next : Res op → Program Op Res ε α}
    (works : Ends M (next (M.run op s).1) (M.run op s).2 A E)
    (fails : ∀ r t, M.fault op s r t → Ends M (next r) t A E) : Ends M (.call op next) s A E :=
  Ensures.call works fails fun _ _ => ⟨by simp, by simp⟩

theorem Keeps.ends {I : σ → Prop} {A : α → Prop} (h : Keeps M I p A) (hs : I s) :
    Ends M p s (fun a t => I t ∧ A a) I :=
  Ensures.mono (h s hs) fun _ _ _ ⟨ht, hA⟩ => ⟨fun a ha => ⟨ht, hA a ha⟩, fun _ _ => ht⟩

end Ends

section Histories
variable {ℓ : Type} {step : σ → ℓ → σ → Prop}

/-- `History step s ls t`: from `s`, the steps `ls` lead to `t`. Each step is listed with the
state it was taken in. -/
inductive History (step : σ → ℓ → σ → Prop) : σ → List (σ × ℓ) → σ → Prop
  | start (s : σ) : History step s [] s
  | snoc {s t u : σ} {ls : List (σ × ℓ)} {l : ℓ} (before : History step s ls t) (last : step t l u) :
      History step s (ls ++ [(t, l)]) u

namespace History
variable {s t u : σ} {ls ms : List (σ × ℓ)}

theorem single {l : ℓ} (h : step s l t) : History step s [(s, l)] t := .snoc (.start s) h

/-- A history passes through the state it starts in. -/
theorem first (h : History step s ls t) : s = t ∨ s ∈ ls.map Prod.fst := by
  induction h with
  | start => exact Or.inl rfl
  | @snoc t u ls l before last ih =>
    right
    rw [List.map_append, List.mem_append]
    rcases ih with rfl | hmem
    · exact Or.inr (List.mem_singleton_self s)
    · exact Or.inl hmem

theorem append (h : History step s ls t) (k : History step t ms u) : History step s (ls ++ ms) u := by
  induction k with
  | start => simpa using h
  | snoc _ last ih =>
    rw [← List.append_assoc]
    exact .snoc ih last

/-- Steps that lead on when taken in turn make a history. -/
theorem of_play {next : σ → ℓ → Option σ} {play : σ → List ℓ → Option σ} (hnil : ∀ s, play s [] = some s)
    (hcons : ∀ s l ls, play s (l :: ls) = (next s l).bind fun t => play t ls) {es : List ℓ}
    (h : play s es = some t) :
    ∃ ls, ls.map Prod.snd = es ∧ History (fun u l v => next u l = some v) s ls t := by
  induction es generalizing s with
  | nil =>
    rw [hnil] at h
    cases h
    exact ⟨[], rfl, .start _⟩
  | cons e es ih =>
    rw [hcons] at h
    obtain ⟨u, hu, hrest⟩ := Option.bind_eq_some_iff.mp h
    obtain ⟨ls, hls, hrun⟩ := ih hrest
    have hfirst : History (fun u l v => next u l = some v) s [(s, e)] u := .single hu
    exact ⟨(s, e) :: ls, by simp [hls], hfirst.append hrun⟩

/-- A listed step was taken between the history before it and the history after it. -/
theorem split {l : ℓ} (h : History step s ls t) (hx : (u, l) ∈ ls) :
    ∃ ks v ms, History step s ks u ∧ step u l v ∧ History step v ms t := by
  induction h with
  | start => cases hx
  | @snoc t w ls' l' before last ih =>
    rcases List.mem_append.mp hx with hx | hx
    · obtain ⟨ks, v, ms, hks, hstep, hms⟩ := ih hx
      exact ⟨ks, v, ms ++ [(t, l')], hks, hstep, .snoc hms last⟩
    · cases List.mem_singleton.mp hx
      exact ⟨ls', w, [], before, last, .start w⟩

/-- A property kept by every step that meets a condition holds all along such steps. -/
theorem everywhere {I : σ → Prop} {C : σ → ℓ → Prop} (h : History step s ls t) (hs : I s)
    (hall : ∀ x ∈ ls, C x.1 x.2) (keep : ∀ u l v, C u l → I u → step u l v → I v) :
    (∀ x ∈ ls, I x.1) ∧ I t := by
  induction h with
  | start => exact ⟨by simp, hs⟩
  | @snoc t u ls l _ last ih =>
    obtain ⟨hstates, ht⟩ := ih fun x hx => hall x (List.mem_append_left _ hx)
    refine ⟨fun x hx => ?_, keep t l u (hall (t, l) (by simp)) ht last⟩
    rcases List.mem_append.mp hx with hx | hx
    · exact hstates x hx
    · rw [List.mem_singleton.mp hx]
      exact ht

theorem invariant {I : σ → Prop} {C : σ → ℓ → Prop} (h : History step s ls t) (hs : I s)
    (hall : ∀ x ∈ ls, C x.1 x.2) (keep : ∀ u l v, C u l → I u → step u l v → I v) : I t :=
  (h.everywhere hs hall keep).2

/-- Steps that all meet a condition are steps with the condition. -/
theorem restrict {D : σ → ℓ → Prop} (h : History step s ls t) (hall : ∀ x ∈ ls, D x.1 x.2) :
    History (fun u l v => step u l v ∧ D u l) s ls t := by
  induction h with
  | start => exact .start _
  | @snoc t u ls l _ last ih =>
    have hbefore := ih fun x hx => hall x (List.mem_append_left _ hx)
    exact .snoc hbefore ⟨last, hall (t, l) (by simp)⟩

/-- When, in the presence of the invariant `J`, a step keeps `P` exactly if it meets `C`, then
`P` holds all along a history exactly if every step meets `C`. -/
theorem everywhere_iff {J P : σ → Prop} {C : σ → ℓ → Prop} (h : History step s ls t) (hJ : J s)
    (hP : P s) (keep : ∀ u l v, J u → step u l v → J v)
    (exactly : ∀ u l v, J u → P u → step u l v → (P v ↔ C u l)) :
    ((∀ x ∈ ls, P x.1) ∧ P t) ↔ ∀ x ∈ ls, C x.1 x.2 := by
  induction h with
  | start => simp [hP]
  | @snoc t u ls l before last ih =>
    have hJt : J t := before.invariant (C := fun _ _ => True) hJ (fun _ _ => trivial)
      fun u l v _ => keep u l v
    have hstep := exactly t l u hJt
    constructor
    · rintro ⟨hstates, hu⟩ x hx
      have ht : P t := hstates (t, l) (by simp)
      rcases List.mem_append.mp hx with hx | hx
      · have hbefore : (∀ y ∈ ls, P y.1) ∧ P t :=
          ⟨fun y hy => hstates y (List.mem_append_left _ hy), ht⟩
        exact ih.mp hbefore x hx
      · rw [List.mem_singleton.mp hx]
        exact (hstep ht last).mp hu
    · intro hall
      obtain ⟨hstates, ht⟩ := ih.mpr fun x hx => hall x (List.mem_append_left _ hx)
      refine ⟨?_, (hstep ht last).mpr (hall (t, l) (by simp))⟩
      intro x hx
      rcases List.mem_append.mp hx with hx | hx
      · exact hstates x hx
      · rw [List.mem_singleton.mp hx]
        exact ht

end History

end Histories

end EffectPrograms
