import DigTls.Effects.Program

/-! # Programs over calls that are programs themselves

The calls of an upper machine are carried out by programs over a lower one, so that a program over
the upper calls becomes one over the lower ones. Where both machines agree on every single call, in
whatever way it may end, they agree on every program: nothing more and nothing less can come of it.
-/
namespace EffectPrograms
variable {Op Op' ℓ : Type} {Res : Op → Type} {Res' : Op' → Type} {ε ε' α β σ τ : Type}

namespace Program

/-- The program with its errors for answers. -/
def attempt : Program Op Res ε α → Program Op Res ε' (Except ε α)
  | done a => done (.ok a)
  | raise e => done (.error e)
  | call op next => call op fun r => (next r).attempt

/-- Every call replaced by the program that carries it out. -/
def expand (implement : (op : Op) → Program Op' Res' ε (Res op)) : Program Op Res ε α → Program Op' Res' ε α
  | done a => done a
  | raise e => raise e
  | call op next => implement op >>= fun r => (next r).expand implement

theorem attempt_bind_ofExcept (p : Program Op Res ε α) : (p.attempt >>= ofExcept) = p := by
  induction p with
  | done a => rfl
  | raise e => rfl
  | call op next ih => exact congrArg (call op) (funext ih)

variable (implement : (op : Op) → Program Op' Res' ε (Res op))

@[simp] theorem expand_done (a : α) : (done a : Program Op Res ε α).expand implement = done a := rfl
@[simp] theorem expand_raise (e : ε) : (raise e : Program Op Res ε α).expand implement = raise e := rfl

@[simp] theorem expand_bind (p : Program Op Res ε α) (f : α → Program Op Res ε β) :
    (p >>= f).expand implement = p.expand implement >>= fun a => (f a).expand implement := by
  induction p with
  | done a => rfl
  | raise e => rfl
  | call op next ih =>
    simp only [call_bind, expand, bind_assoc']
    exact congrArg (implement op >>= ·) (funext ih)

@[simp] theorem expand_ofExcept (x : Except ε α) :
    (ofExcept x : Program Op Res ε α).expand implement = ofExcept x := by
  cases x <;> rfl

/-- A call whose errors are passed on is the program that carries it out. -/
theorem expand_attempt {p : Program Op' Res' ε α} {op : Op} {back : Res op → Except ε α}
    (himplement : (implement op >>= fun r => ofExcept (back r)) = p) :
    (call op fun r => ofExcept (back r) : Program Op Res ε α).expand implement = p := by
  rw [← himplement]
  simp [expand]

/-- Every error the program can end with satisfies `E`. -/
def Raises (E : ε → Prop) : Program Op Res ε α → Prop
  | done _ => True
  | raise e => E e
  | call _ next => ∀ r, (next r).Raises E

theorem Raises.bind {E : ε → Prop} {p : Program Op Res ε α} {f : α → Program Op Res ε β} (h : p.Raises E)
    (next : ∀ a, (f a).Raises E) : (p >>= f).Raises E := by
  induction p with
  | done a => exact next a
  | raise e => exact h
  | call op k ih => exact fun r => ih r (h r)

end Program

/-- The program can end so, whatever calls it makes on the way. -/
def Can (M : Machine Op Res σ) (p : Program Op Res ε α) (s : σ) (o : Option (Except ε α)) (t : σ) : Prop :=
  ∃ trace, Outcome M p s trace o t

/-- What a call can do: work, fail, or be cut short and give no answer. -/
inductive Machine.Does (M : Machine Op Res σ) (op : Op) (s : σ) : Option (Res op) → σ → Prop
  | works : Does M op s (some (M.run op s).1) (M.run op s).2
  | fails {r : Res op} {t : σ} (failed : M.fault op s r t) : Does M op s (some r) t
  | stops {t : σ} (cut : M.torn op s t) : Does M op s none t

variable {M : Machine Op Res σ} {M' : Machine Op' Res' τ} {p : Program Op Res ε α} {f : α → Program Op Res ε β}
  {s t : σ} {o : Option (Except ε α)}

theorem does_iff {op : Op} {r : Option (Res op)} : M.Does op s r t ↔
    (r = some (M.run op s).1 ∧ t = (M.run op s).2) ∨ (∃ x, r = some x ∧ M.fault op s x t) ∨
      (r = none ∧ M.torn op s t) := by
  constructor
  · intro h
    cases h with
    | works => exact Or.inl ⟨rfl, rfl⟩
    | fails failed => exact Or.inr (Or.inl ⟨_, rfl, failed⟩)
    | stops cut => exact Or.inr (Or.inr ⟨rfl, cut⟩)
  · rintro (⟨rfl, rfl⟩ | ⟨x, rfl, failed⟩ | ⟨rfl, cut⟩)
    · exact .works
    · exact .fails failed
    · exact .stops cut

theorem does_works {op : Op} {r : Res op} (h : M.run op s = (r, t)) : M.Does op s (some r) t :=
  does_iff.mpr (Or.inl (by rw [h]; exact ⟨rfl, rfl⟩))

theorem can_done_iff {a : α} : Can M (.done a : Program Op Res ε α) s o t ↔ o = some (.ok a) ∧ t = s := by
  constructor
  · rintro ⟨trace, h⟩
    cases h
    exact ⟨rfl, rfl⟩
  · rintro ⟨rfl, rfl⟩
    exact ⟨[], .done a t⟩

theorem can_raise_iff {e : ε} : Can M (.raise e : Program Op Res ε α) s o t ↔ o = some (.error e) ∧ t = s := by
  constructor
  · rintro ⟨trace, h⟩
    cases h
    exact ⟨rfl, rfl⟩
  · rintro ⟨rfl, rfl⟩
    exact ⟨[], .raise e t⟩

/-- A call answers and the program goes on, or it is cut short. -/
theorem can_call_iff {op : Op} {next : Res op → Program Op Res ε α} : Can M (.call op next) s o t ↔
    (∃ r u, M.Does op s (some r) u ∧ Can M (next r) u o t) ∨ (o = none ∧ M.Does op s none t) := by
  constructor
  · rintro ⟨trace, h⟩
    cases h with
    | step later => exact Or.inl ⟨_, _, .works, _, later⟩
    | fault failed later => exact Or.inl ⟨_, _, .fails failed, _, later⟩
    | crash cut => exact Or.inr ⟨rfl, .stops cut⟩
  · rintro (⟨r, u, hdoes, trace, later⟩ | ⟨rfl, hdoes⟩)
    · cases hdoes with
      | works => exact ⟨_, .step later⟩
      | fails failed => exact ⟨_, .fault failed later⟩
    · cases hdoes with
      | stops cut => exact ⟨_, .crash cut⟩

theorem Can.bind {a : α} {u : σ} {o : Option (Except ε β)} (h : Can M p s (some (.ok a)) u)
    (next : Can M (f a) u o t) : Can M (p >>= f) s o t := by
  obtain ⟨trace, h⟩ := h
  obtain ⟨trace', next⟩ := next
  exact ⟨trace ++ trace', h.bind next⟩

theorem Can.bind_cut (h : Can M p s none t) : Can M (p >>= f) s none t := by
  obtain ⟨trace, h⟩ := h
  exact ⟨trace, h.bind_cut f⟩

theorem Can.bind_error {e : ε} (h : Can M p s (some (.error e)) t) : Can M (p >>= f) s (some (.error e)) t := by
  induction p generalizing s with
  | done a =>
    obtain ⟨ho, _⟩ := can_done_iff.mp h
    cases ho
  | raise e' =>
    obtain ⟨ho, rfl⟩ := can_raise_iff.mp h
    cases ho
    exact can_raise_iff.mpr ⟨rfl, rfl⟩
  | call op next ih =>
    rcases can_call_iff.mp h with ⟨r, u, hdoes, later⟩ | ⟨ho, _⟩
    · exact can_call_iff.mpr (Or.inl ⟨r, u, hdoes, ih r later⟩)
    · cases ho

/-- The second program starts where the first one answered. -/
theorem can_bind_iff {o : Option (Except ε β)} : Can M (p >>= f) s o t ↔
    (∃ a u, Can M p s (some (.ok a)) u ∧ Can M (f a) u o t) ∨
      (∃ e, o = some (.error e) ∧ Can M p s (some (.error e)) t) ∨ (o = none ∧ Can M p s none t) := by
  constructor
  · intro h
    induction p generalizing s with
    | done a => exact Or.inl ⟨a, s, can_done_iff.mpr ⟨rfl, rfl⟩, h⟩
    | raise e =>
      obtain ⟨rfl, rfl⟩ := can_raise_iff.mp h
      exact Or.inr (Or.inl ⟨e, rfl, can_raise_iff.mpr ⟨rfl, rfl⟩⟩)
    | call op next ih =>
      rcases can_call_iff.mp h with ⟨r, u, hdoes, later⟩ | ⟨rfl, hdoes⟩
      · have hcall : ∀ {o : Option (Except ε α)} {v : σ}, Can M (next r) u o v → Can M (.call op next) s o v :=
          fun hnext => can_call_iff.mpr (Or.inl ⟨r, u, hdoes, hnext⟩)
        rcases ih r later with ⟨a, v, ha, hrest⟩ | ⟨e, rfl, he⟩ | ⟨rfl, hcut⟩
        · exact Or.inl ⟨a, v, hcall ha, hrest⟩
        · exact Or.inr (Or.inl ⟨e, rfl, hcall he⟩)
        · exact Or.inr (Or.inr ⟨rfl, hcall hcut⟩)
      · exact Or.inr (Or.inr ⟨rfl, can_call_iff.mpr (Or.inr ⟨rfl, hdoes⟩)⟩)
  · rintro (⟨a, u, ha, hrest⟩ | ⟨e, rfl, he⟩ | ⟨rfl, hcut⟩)
    · exact ha.bind hrest
    · exact he.bind_error
    · exact hcut.bind_cut

/-- An attempt ends as the program does, its error an answer. -/
theorem can_attempt_iff {o : Option (Except ε' (Except ε α))} :
    Can M (p.attempt : Program Op Res ε' (Except ε α)) s o t ↔
      ∃ o', Can M p s o' t ∧ o = o'.map .ok := by
  induction p generalizing s with
  | done a =>
    simp only [Program.attempt, can_done_iff]
    constructor
    · rintro ⟨rfl, rfl⟩
      exact ⟨_, ⟨rfl, rfl⟩, rfl⟩
    · rintro ⟨_, ⟨rfl, rfl⟩, rfl⟩
      exact ⟨rfl, rfl⟩
  | raise e =>
    simp only [Program.attempt, can_done_iff, can_raise_iff]
    constructor
    · rintro ⟨rfl, rfl⟩
      exact ⟨_, ⟨rfl, rfl⟩, rfl⟩
    · rintro ⟨_, ⟨rfl, rfl⟩, rfl⟩
      exact ⟨rfl, rfl⟩
  | call op next ih =>
    simp only [Program.attempt, can_call_iff, ih]
    constructor
    · rintro (⟨r, u, hdoes, o', hlater, rfl⟩ | ⟨rfl, hdoes⟩)
      · exact ⟨o', Or.inl ⟨r, u, hdoes, hlater⟩, rfl⟩
      · exact ⟨none, Or.inr ⟨rfl, hdoes⟩, rfl⟩
    · rintro ⟨o', ⟨r, u, hdoes, hlater⟩ | ⟨rfl, hdoes⟩, rfl⟩
      · exact Or.inl ⟨r, u, hdoes, o', hlater, rfl⟩
      · exact Or.inr ⟨rfl, hdoes⟩

theorem Can.attempt (h : Can M p s o t) :
    Can M (p.attempt : Program Op Res ε' (Except ε α)) s (o.map .ok) t :=
  can_attempt_iff.mpr ⟨o, h, rfl⟩

theorem can_exec (p : Program Op Res ε α) (s : σ) : Can M p s (some (exec M p s).1) (exec M p s).2 :=
  outcome_exec p s

theorem Can.raises {E : ε → Prop} {e : ε} (h : Can M p s (some (.error e)) t) (hp : p.Raises E) : E e := by
  induction p generalizing s with
  | done a =>
    obtain ⟨ho, _⟩ := can_done_iff.mp h
    cases ho
  | raise e' =>
    obtain ⟨ho, _⟩ := can_raise_iff.mp h
    cases ho
    exact hp
  | call op next ih =>
    rcases can_call_iff.mp h with ⟨r, u, _, later⟩ | ⟨ho, _⟩
    · exact ih r later (hp r)
    · cases ho

/-- What the programs can do that carry the upper calls out is what the upper calls can do, as far
as the states are told apart by `R`. -/
structure Layered (M : Machine Op Res σ) (M' : Machine Op' Res' τ)
    (implement : (op : Op) → Program Op' Res' ε (Res op)) (R : τ → σ → Prop) : Prop where
  sound : ∀ {op s a o t}, R s a → Can M' (implement op) s o t →
    ∃ r b, o = Option.map Except.ok r ∧ R t b ∧ M.Does op a r b
  complete : ∀ {op s a r b}, R s a → M.Does op a r b →
    ∃ t, R t b ∧ Can M' (implement op) s (Option.map Except.ok r) t

section Layered
variable {implement : (op : Op) → Program Op' Res' ε (Res op)} {R : τ → σ → Prop} {a b : σ} {u v : τ}

theorem Layered.sound_program (h : Layered M M' implement R) (hR : R u a)
    (hcan : Can M' (p.expand implement) u o v) : ∃ b, R v b ∧ Can M p a o b := by
  induction p generalizing u a with
  | done x =>
    obtain ⟨rfl, rfl⟩ := can_done_iff.mp hcan
    exact ⟨a, hR, can_done_iff.mpr ⟨rfl, rfl⟩⟩
  | raise e =>
    obtain ⟨rfl, rfl⟩ := can_raise_iff.mp hcan
    exact ⟨a, hR, can_raise_iff.mpr ⟨rfl, rfl⟩⟩
  | call op next ih =>
    rcases can_bind_iff.mp hcan with ⟨r, w, hop, hlater⟩ | ⟨e, rfl, hop⟩ | ⟨rfl, hop⟩
    · obtain ⟨r', c, hr, hRc, hdoes⟩ := h.sound hR hop
      obtain ⟨x, rfl, hx⟩ := Option.map_eq_some_iff.mp hr.symm
      cases hx
      obtain ⟨b, hRb, hcan'⟩ := ih _ hRc hlater
      exact ⟨b, hRb, can_call_iff.mpr (Or.inl ⟨_, c, hdoes, hcan'⟩)⟩
    · obtain ⟨r', c, hr, _⟩ := h.sound hR hop
      obtain ⟨x, _, hx⟩ := Option.map_eq_some_iff.mp hr.symm
      cases hx
    · obtain ⟨r', c, hr, hRc, hdoes⟩ := h.sound hR hop
      obtain rfl : r' = none := Option.map_eq_none_iff.mp hr.symm
      exact ⟨c, hRc, can_call_iff.mpr (Or.inr ⟨rfl, hdoes⟩)⟩

theorem Layered.complete_program (h : Layered M M' implement R) (hR : R u a) (hcan : Can M p a o b) :
    ∃ v, R v b ∧ Can M' (p.expand implement) u o v := by
  induction p generalizing u a with
  | done x =>
    obtain ⟨rfl, rfl⟩ := can_done_iff.mp hcan
    exact ⟨u, hR, can_done_iff.mpr ⟨rfl, rfl⟩⟩
  | raise e =>
    obtain ⟨rfl, rfl⟩ := can_raise_iff.mp hcan
    exact ⟨u, hR, can_raise_iff.mpr ⟨rfl, rfl⟩⟩
  | call op next ih =>
    rcases can_call_iff.mp hcan with ⟨r, c, hdoes, hlater⟩ | ⟨rfl, hdoes⟩
    · obtain ⟨w, hRw, hop⟩ := h.complete hR hdoes
      obtain ⟨v, hRv, hcan'⟩ := ih r hRw hlater
      exact ⟨v, hRv, can_bind_iff.mpr (Or.inl ⟨r, w, hop, hcan'⟩)⟩
    · obtain ⟨w, hRw, hop⟩ := h.complete hR hdoes
      exact ⟨w, hRw, can_bind_iff.mpr (Or.inr (Or.inr ⟨rfl, hop⟩))⟩

/-- Without interruption the programs answer as the calls do. -/
theorem exec_expand (h : ∀ op u a, R u a → ∃ v, exec M' (implement op) u = (.ok (M.run op a).1, v) ∧
    R v (M.run op a).2) (p : Program Op Res ε α) (hR : R u a) :
    ∃ v, exec M' (p.expand implement) u = ((exec M p a).1, v) ∧ R v (exec M p a).2 := by
  induction p generalizing u a with
  | done x => exact ⟨u, rfl, hR⟩
  | raise e => exact ⟨u, rfl, hR⟩
  | call op next ih =>
    obtain ⟨w, hop, hRw⟩ := h op u a hR
    obtain ⟨v, hlater, hRv⟩ := ih _ hRw
    refine ⟨v, ?_, hRv⟩
    rw [Program.expand, exec_bind, hop]
    exact hlater

end Layered

/-- Machines whose calls work alike run a program alike. -/
theorem exec_agree {N : Machine Op Res σ} {C : Op → Prop} {A : α → Prop}
    (hrun : ∀ op s, C op → M.run op s = N.run op s) (hp : p.Forall C A) (s : σ) : exec M p s = exec N p s := by
  induction p generalizing s with
  | done a => rfl
  | raise e => rfl
  | call op next ih =>
    rw [exec_call, exec_call, hrun op s hp.1]
    exact ih _ (hp.2 _) _

theorem exec_attempt (M : Machine Op Res σ) (p : Program Op Res ε α) (s : σ) :
    exec M (p.attempt : Program Op Res ε' (Except ε α)) s = (.ok (exec M p s).1, (exec M p s).2) := by
  induction p generalizing s with
  | done a => rfl
  | raise e => rfl
  | call op next ih => exact ih _ _

/-- A history of one system seen as a history of another, step by step. -/
theorem History.simulate {step : τ → ℓ → τ → Prop} {step' : σ → ℓ → σ → Prop} {R : τ → σ → Prop}
    (sim : ∀ u l v a, R u a → step u l v → ∃ b, R v b ∧ step' a l b) {u v : τ} {ls : List (τ × ℓ)}
    (h : History step u ls v) {a : σ} (hR : R u a) :
    ∃ ks b, R v b ∧ History step' a ks b ∧ ks.map Prod.snd = ls.map Prod.snd := by
  induction h with
  | start => exact ⟨[], a, hR, .start a, rfl⟩
  | @snoc w x ls l _ last ih =>
    obtain ⟨ks, b, hRb, hks, hlabels⟩ := ih
    obtain ⟨c, hRc, hstep⟩ := sim w l x b hRb last
    exact ⟨ks ++ [(b, l)], c, hRc, .snoc hks hstep, by simp [hlabels]⟩

end EffectPrograms
