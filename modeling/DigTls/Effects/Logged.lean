import DigTls.Effects.Program

/-! # A machine that keeps a log

The log lists the calls begun, each with the state it was begun in. A program does with a log what
it does without, and what its past was becomes a statement about the state it has reached.
-/
namespace EffectPrograms
variable {Op : Type} {Res : Op → Type} {ε α σ : Type}

/-- The states a call may lead to: by working, by failing or by being cut short. -/
def Machine.Leads (M : Machine Op Res σ) (op : Op) (s t : σ) : Prop :=
  t = (M.run op s).2 ∨ (∃ r, M.fault op s r t) ∨ M.torn op s t

def Machine.logged (M : Machine Op Res σ) : Machine Op Res (σ × List (σ × Op)) where
  run op x := ((M.run op x.1).1, (M.run op x.1).2, x.2 ++ [(x.1, op)])
  fault op x r y := M.fault op x.1 r y.1 ∧ y.2 = x.2 ++ [(x.1, op)]
  torn op x y := M.torn op x.1 y.1 ∧ y.2 = x.2 ++ [(x.1, op)]

variable {M : Machine Op Res σ} {p : Program Op Res ε α} {x y : σ × List (σ × Op)} {s t : σ}
  {trace : List Op} {o : Option (Except ε α)}

theorem leads_logged {op : Op} (h : M.logged.Leads op x y) :
    M.Leads op x.1 y.1 ∧ y.2 = x.2 ++ [(x.1, op)] := by
  rcases h with rfl | ⟨r, hf, hlog⟩ | ⟨ht, hlog⟩
  · exact ⟨Or.inl rfl, rfl⟩
  · exact ⟨Or.inr (Or.inl ⟨r, hf⟩), hlog⟩
  · exact ⟨Or.inr (Or.inr ht), hlog⟩

/-- Without its log, an outcome is one of the machine itself. -/
theorem Outcome.unlogged (h : Outcome M.logged p x trace o y) : Outcome M p x.1 trace o y.1 := by
  induction h with
  | done a x => exact .done a x.1
  | raise e x => exact .raise e x.1
  | step _ ih => exact .step ih
  | fault failed _ ih => exact .fault failed.1 ih
  | crash cut => exact .crash cut.1

/-- Every outcome can be had with a log, in which every call made is found. -/
theorem Outcome.logged (h : Outcome M p s trace o t) (log : List (σ × Op)) :
    ∃ log', Outcome M.logged p (s, log) trace o (t, log') ∧ log ⊆ log' ∧ ∀ op ∈ trace, ∃ u, (u, op) ∈ log' := by
  induction h generalizing log with
  | done a s => exact ⟨log, .done a _, List.Subset.refl _, by simp⟩
  | raise e s => exact ⟨log, .raise e _, List.Subset.refl _, by simp⟩
  | @step op next s t trace o _ ih =>
    obtain ⟨log', hlater, hsub, htrace⟩ := ih (log ++ [(s, op)])
    refine ⟨log', .step hlater, fun y hy => hsub (List.mem_append_left _ hy), ?_⟩
    rw [List.forall_mem_cons]
    exact ⟨⟨s, hsub (by simp)⟩, htrace⟩
  | @fault op next s u t r trace o failed _ ih =>
    obtain ⟨log', hlater, hsub, htrace⟩ := ih (log ++ [(s, op)])
    exact ⟨log', .fault ⟨failed, rfl⟩ hlater, fun y hy => hsub (List.mem_append_left _ hy), htrace⟩
  | @crash op next s t cut =>
    exact ⟨log ++ [(s, op)], .crash ⟨cut, rfl⟩, List.subset_append_left _ _, by simp⟩

theorem ensures_logged {Q : List Op → Option (Except ε α) → σ → Prop} (h : Ensures M p x.1 Q) :
    Ensures M.logged p x fun trace o y => Q trace o y.1 :=
  fun _ _ _ ho => h _ _ _ ho.unlogged

/-- An invariant of the calls that a program can make, where a call may lead in three ways. -/
theorem keeps_of_leads {I : σ → Prop} {C : Op → Prop} {A : α → Prop}
    (h : ∀ op s t, C op → M.Leads op s t → I s → I t) (hp : p.Forall C A) : Keeps M I p A :=
  keeps_forall (fun op s hop => h op s _ hop (Or.inl rfl))
    (fun op s r t hop hf => h op s t hop (Or.inr (Or.inl ⟨r, hf⟩)))
    (fun op s t hop ht => h op s t hop (Or.inr (Or.inr ht))) hp

end EffectPrograms
