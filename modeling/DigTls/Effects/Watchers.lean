import DigTls.Effects.Layers
import DigTls.Effects.Replay
import Mathlib.Logic.Function.Basic
import Mathlib.Order.Nat

/-! # A program at work while others look on

One program changes the state, and may fail or be cut short at any call; any number of others only look,
each making its calls whenever it likes, and may fail as well. What a looker is told, call by call, held at moments
of the writer's own run, one after the other; and the writer runs as if it were alone.
-/
namespace EffectPrograms
variable {Op ι : Type} {Res : Op → Type} {ε α β σ : Type}

namespace Program

/-- Made in states of `I`, no call of the program changes the state, be it answered or failed. -/
def Looks (M : Machine Op Res σ) (I : σ → Prop) : Program Op Res ε β → Prop
  | call op next => ∀ s r t, I s → M.Does op s (some r) t → t = s ∧ (next r).Looks M I
  | _ => True

/-- Called at stages from `k` to `l`, one after the other, the program answers `r`. -/
def Answers (M : Machine Op Res σ) (level : ℕ → σ → Prop) : Program Op Res ε β → ℕ → Except ε β → ℕ → Prop
  | done b, k, r, l => r = .ok b ∧ k ≤ l
  | raise e, k, r, l => r = .error e ∧ k ≤ l
  | call op next, k, r, l =>
    ∃ j s a t, k ≤ j ∧ level j s ∧ M.Does op s (some a) t ∧ (next a).Answers M level j r l

def series : List (Program Op Res ε β) → Program Op Res ε (List (Except ε β))
  | [] => done []
  | q :: qs => q.attempt >>= fun r => series qs >>= fun rs => done (r :: rs)

variable {M : Machine Op Res σ} {level : ℕ → σ → Prop} {q : Program Op Res ε β} {j k l : ℕ} {r : Except ε β}

theorem Answers.le (h : q.Answers M level k r l) : k ≤ l := by
  induction q generalizing k with
  | done b => exact h.2
  | raise e => exact h.2
  | call op next ih =>
    obtain ⟨j, s, a, t, hkj, _, _, hrest⟩ := h
    exact hkj.trans (ih _ hrest)

theorem Answers.earlier (h : q.Answers M level k r l) (hjk : j ≤ k) : q.Answers M level j r l := by
  cases q with
  | done b => exact ⟨h.1, hjk.trans h.2⟩
  | raise e => exact ⟨h.1, hjk.trans h.2⟩
  | call op next =>
    obtain ⟨i, s, a, t, hki, hs, hdoes, hrest⟩ := h
    exact ⟨i, s, a, t, hjk.trans hki, hs, hdoes, hrest⟩

theorem Answers.of_result (h : q.result = some r) : q.Answers M level k r k := by
  cases q with
  | done b =>
    cases h
    exact ⟨rfl, le_rfl⟩
  | raise e =>
    cases h
    exact ⟨rfl, le_rfl⟩
  | call op next => cases h

theorem Answers.later (h : q.Answers M level k r j) (hjl : j ≤ l) : q.Answers M level k r l := by
  induction q generalizing k with
  | done b => exact ⟨h.1, h.2.trans hjl⟩
  | raise e => exact ⟨h.1, h.2.trans hjl⟩
  | call op next ih =>
    obtain ⟨i, s, a, t, hki, hs, hdoes, hrest⟩ := h
    exact ⟨i, s, a, t, hki, hs, hdoes, ih _ hrest⟩

/-- Of two programs in a row the second is called at the stages after those of the first. -/
theorem Answers.of_bind {γ : Type} {f : β → Program Op Res ε γ} {r : Except ε γ}
    (h : (q >>= f).Answers M level k r l) :
    (∃ b j, q.Answers M level k (.ok b) j ∧ (f b).Answers M level j r l) ∨
      ∃ e, r = .error e ∧ q.Answers M level k (.error e) l := by
  induction q generalizing k with
  | done b => exact Or.inl ⟨b, k, ⟨rfl, le_rfl⟩, h⟩
  | raise e => exact Or.inr ⟨e, h.1, rfl, h.2⟩
  | call op next ih =>
    obtain ⟨j, s, a, t, hkj, hs, hdoes, hrest⟩ := h
    rcases ih _ hrest with ⟨b, i, hb, hf⟩ | ⟨e, rfl, he⟩
    · exact Or.inl ⟨b, i, ⟨j, s, a, t, hkj, hs, hdoes, hb⟩, hf⟩
    · exact Or.inr ⟨e, rfl, j, s, a, t, hkj, hs, hdoes, he⟩

theorem Answers.of_attempt {ε' : Type} {r : Except ε' (Except ε β)}
    (h : (q.attempt : Program Op Res ε' (Except ε β)).Answers M level k r l) :
    ∃ r', r = .ok r' ∧ q.Answers M level k r' l := by
  induction q generalizing k with
  | done b => exact ⟨.ok b, h.1, rfl, h.2⟩
  | raise e => exact ⟨.error e, h.1, rfl, h.2⟩
  | call op next ih =>
    obtain ⟨j, s, a, t, hkj, hs, hdoes, hrest⟩ := h
    obtain ⟨r', rfl, hr'⟩ := ih _ hrest
    exact ⟨r', rfl, j, s, a, t, hkj, hs, hdoes, hr'⟩

/-- The programs have been answered so, one after the other, from the first stage to the last. -/
inductive Told (M : Machine Op Res σ) (level : ℕ → σ → Prop) :
    List (Program Op Res ε β) → ℕ → List (Except ε β) → ℕ → Prop
  | nil {k l : ℕ} (hkl : k ≤ l) : Told M level [] k [] l
  | cons {q : Program Op Res ε β} {qs : List (Program Op Res ε β)} {r : Except ε β} {rs : List (Except ε β)}
      {k j l : ℕ} (hq : q.Answers M level k r j) (hqs : Told M level qs j rs l) :
      Told M level (q :: qs) k (r :: rs) l

theorem Told.later {qs : List (Program Op Res ε β)} {rs : List (Except ε β)} (h : Told M level qs k rs j)
    (hjl : j ≤ l) : Told M level qs k rs l := by
  induction h with
  | nil hkl => exact .nil (hkl.trans hjl)
  | cons hq _ ih => exact .cons hq (ih hjl)

theorem Told.mem {qs : List (Program Op Res ε β)} {rs : List (Except ε β)} (h : Told M level qs k rs l)
    (hr : r ∈ rs) : ∃ q ∈ qs, ∃ j i, k ≤ j ∧ q.Answers M level j r i := by
  induction h with
  | nil => cases hr
  | cons hq _ ih =>
    rcases List.mem_cons.mp hr with rfl | hr
    · exact ⟨_, List.mem_cons_self, _, _, le_rfl, hq⟩
    · obtain ⟨q, hmem, j, i, hkj, hanswers⟩ := ih hr
      exact ⟨q, List.mem_cons_of_mem _ hmem, j, i, hq.le.trans hkj, hanswers⟩

theorem Answers.of_series {qs : List (Program Op Res ε β)} {r : Except ε (List (Except ε β))}
    (h : (series qs).Answers M level k r l) : ∃ rs, r = .ok rs ∧ Told M level qs k rs l := by
  induction qs generalizing k r l with
  | nil => exact ⟨[], h.1, .nil h.2⟩
  | cons q qs ih =>
    rcases Answers.of_bind h with ⟨a, j, ha, hrest⟩ | ⟨e, _, he⟩
    · obtain ⟨a', ha', hq⟩ := Answers.of_attempt ha
      cases ha'
      rcases Answers.of_bind hrest with ⟨rs, i, hrs, hdone⟩ | ⟨e, _, he⟩
      · obtain ⟨rs', hrs', hqs⟩ := ih hrs
        cases hrs'
        exact ⟨a :: rs, hdone.1, .cons hq (hqs.later hdone.2)⟩
      · obtain ⟨_, habsurd, _⟩ := ih he
        cases habsurd
    · obtain ⟨_, habsurd, _⟩ := Answers.of_attempt he
      cases habsurd

theorem Told.answered {γ : Type} {f : γ → Program Op Res ε β} {cs : List γ} {rs : List (Except ε β)}
    {P : γ → Except ε β → Prop} (h : Told M level (cs.map f) k rs l)
    (hP : ∀ c ∈ cs, ∀ k r l, (f c).Answers M level k r l → P c r) : List.Forall₂ P cs rs := by
  induction cs generalizing k rs with
  | nil =>
    cases h
    exact .nil
  | cons c cs ih =>
    cases h with
    | cons hc hcs =>
      exact .cons (hP c List.mem_cons_self _ _ _ hc) (ih hcs fun d hd => hP d (List.mem_cons_of_mem _ hd))

theorem Told.pairwise {γ : Type} {f : γ → Program Op Res ε β} {cs : List γ} {rs : List (Except ε β)}
    {N : Except ε β → Except ε β → Prop} (h : Told M level (cs.map f) k rs l)
    (hN : ∀ c ∈ cs, ∀ d ∈ cs, ∀ k r j j' r' l, (f c).Answers M level k r j → (f d).Answers M level j' r' l →
      j ≤ j' → N r r') : rs.Pairwise N := by
  induction cs generalizing k rs with
  | nil =>
    cases h
    exact .nil
  | cons c cs ih =>
    cases h with
    | @cons _ _ r rs' _ j _ hc hcs =>
      have hrest : rs'.Pairwise N :=
        ih hcs fun d hd d' hd' => hN d (List.mem_cons_of_mem _ hd) d' (List.mem_cons_of_mem _ hd')
      refine .cons (fun r' hr' => ?_) hrest
      obtain ⟨q, hq, j', l', hjj', hanswers⟩ := hcs.mem hr'
      obtain ⟨d, hd, rfl⟩ := List.mem_map.mp hq
      exact hN c List.mem_cons_self d (List.mem_cons_of_mem _ hd) k r j j' r' l' hc hanswers hjj'

variable {I : σ → Prop}

theorem Looks.bind {γ : Type} {f : β → Program Op Res ε γ} (hq : q.Looks M I) (hf : ∀ b, (f b).Looks M I) :
    (q >>= f).Looks M I := by
  induction q with
  | done b => exact hf b
  | raise e => trivial
  | call op next ih =>
    intro s r t hs hdoes
    obtain ⟨rfl, hnext⟩ := hq s r t hs hdoes
    exact ⟨rfl, ih r hnext⟩

theorem Looks.attempt {ε' : Type} (hq : q.Looks M I) :
    (q.attempt : Program Op Res ε' (Except ε β)).Looks M I := by
  induction q with
  | done b => trivial
  | raise e => trivial
  | call op next ih =>
    intro s r t hs hdoes
    obtain ⟨rfl, hnext⟩ := hq s r t hs hdoes
    exact ⟨rfl, ih r hnext⟩

theorem Looks.series {qs : List (Program Op Res ε β)} (h : ∀ q ∈ qs, q.Looks M I) : (series qs).Looks M I := by
  induction qs with
  | nil => trivial
  | cons q qs ih =>
    have hrest := ih fun q' hq' => h q' (List.mem_cons_of_mem _ hq')
    exact (h q List.mem_cons_self).attempt.bind fun r => hrest.bind fun rs => trivial

end Program

/-- The state, what the writer has left to do unless it is gone, its calls that took effect, and what
the lookers have left to do. -/
structure Scene (Op ι : Type) (Res : Op → Type) (ε α β σ : Type) where
  state : σ
  writer : Option (Program Op Res ε α)
  trace : List Op
  lookers : ι → Program Op Res ε β

namespace Scene
variable [DecidableEq ι]

def opening (s : σ) (p : Program Op Res ε α) (q : ι → Program Op Res ε β) : Scene Op ι Res ε α β σ :=
  ⟨s, some p, [], q⟩

inductive Turn (ι : Type) where
  | writes | fails | dies
  | looks (i : ι)

/-- One call: of the writer, or of one of the lookers. -/
inductive Step (M : Machine Op Res σ) : Scene Op ι Res ε α β σ → Turn ι → Scene Op ι Res ε α β σ → Prop
  | writes {c : Scene Op ι Res ε α β σ} {op : Op} {next : Res op → Program Op Res ε α}
      (due : c.writer = some (.call op next)) : Step M c .writes
        ⟨(M.run op c.state).2, some (next (M.run op c.state).1), c.trace ++ [op], c.lookers⟩
  | fails {c : Scene Op ι Res ε α β σ} {op : Op} {next : Res op → Program Op Res ε α} {r : Res op} {t : σ}
      (due : c.writer = some (.call op next)) (failed : M.fault op c.state r t) :
      Step M c .fails ⟨t, some (next r), c.trace, c.lookers⟩
  | dies {c : Scene Op ι Res ε α β σ} {op : Op} {next : Res op → Program Op Res ε α} {t : σ}
      (due : c.writer = some (.call op next)) (cut : M.torn op c.state t) :
      Step M c .dies ⟨t, none, c.trace, c.lookers⟩
  | looks {c : Scene Op ι Res ε α β σ} {i : ι} {op : Op} {next : Res op → Program Op Res ε β} {r : Res op} {t : σ}
      (due : c.lookers i = .call op next) (does : M.Does op c.state (some r) t) : Step M c (.looks i)
        { c with state := t, lookers := Function.update c.lookers i (next r) }

/-- The turns at which no call fails. -/
def act (M : Machine Op Res σ) (c : Scene Op ι Res ε α β σ) : Turn ι → Option (Scene Op ι Res ε α β σ)
  | .writes =>
    match c.writer with
    | some (.call op next) =>
      some ⟨(M.run op c.state).2, some (next (M.run op c.state).1), c.trace ++ [op], c.lookers⟩
    | _ => none
  | .looks i =>
    match c.lookers i with
    | .call op next => some
        { c with
          state := (M.run op c.state).2
          lookers := Function.update c.lookers i (next (M.run op c.state).1) }
    | _ => none
  | _ => none

abbrev Run (M : Machine Op Res σ) : Scene Op ι Res ε α β σ → List (Scene Op ι Res ε α β σ × Turn ι) →
    Scene Op ι Res ε α β σ → Prop := History (Step M)

/-- The writer has got where it is without the others. -/
def Alone (M : Machine Op Res σ) (p : Program Op Res ε α) (s : σ) (c : Scene Op ι Res ε α β σ) : Prop :=
  match c.writer with
  | none => Outcome M p s c.trace none c.state
  | some w => ∀ trace o t, Outcome M w c.state trace o t → Outcome M p s (c.trace ++ trace) o t

variable {M : Machine Op Res σ} {p : Program Op Res ε α} {s : σ} {q : ι → Program Op Res ε β}
  {c d : Scene Op ι Res ε α β σ} {e : Turn ι} {ls : List (Scene Op ι Res ε α β σ × Turn ι)}
  {rank : List Op → ℕ} {level : ℕ → σ → Prop}

omit [DecidableEq ι] in
/-- The state is one the writer may have left, had it been cut short now. -/
theorem Alone.outcome (h : c.Alone M p s) (hcut : ∀ op s, M.torn op s s) :
    ∃ o, Outcome M p s c.trace o c.state := by
  unfold Alone at h
  split at h
  · exact ⟨none, h⟩
  · case h_2 w hw =>
      cases w with
      | done a => exact ⟨some (.ok a), by simpa using h [] _ _ (.done a _)⟩
      | raise e => exact ⟨some (.error e), by simpa using h [] _ _ (.raise e _)⟩
      | call op next => exact ⟨none, by simpa using h [] _ _ (.crash (hcut op _))⟩

/-- What holds all along: the writer is alone, and whatever a looker will be told from now on it would
have been told from the start. -/
structure Sound (M : Machine Op Res σ) (p : Program Op Res ε α) (s : σ) (q : ι → Program Op Res ε β)
    (rank : List Op → ℕ) (level : ℕ → σ → Prop) (c : Scene Op ι Res ε α β σ) : Prop where
  alone : c.Alone M p s
  looks : ∀ i, (c.lookers i).Looks M fun u => ∃ k, level k u
  told : ∀ i r l, (c.lookers i).Answers M level (rank c.trace) r l → (q i).Answers M level 0 r l

theorem Sound.step (hrank : ∀ xs ys, rank xs ≤ rank (xs ++ ys)) (hcut : ∀ op s, M.torn op s s)
    (hlevel : Ensures M p s fun trace _ t => level (rank trace) t)
    (h : c.Sound M p s q rank level) (hstep : Step M c e d) : d.Sound M p s q rank level := by
  cases hstep with
  | @writes op next hdue =>
    have halone := h.alone
    rw [Alone, hdue] at halone
    refine ⟨fun trace o t ho => ?_, h.looks, fun i r l hr => h.told i r l (hr.earlier (hrank _ _))⟩
    rw [List.append_assoc]
    exact halone _ o t (.step ho)
  | fails hdue hfailed =>
    have halone := h.alone
    rw [Alone, hdue] at halone
    exact ⟨fun trace o t ho => halone _ o t (.fault hfailed ho), h.looks, h.told⟩
  | dies hdue hdies =>
    have halone := h.alone
    rw [Alone, hdue] at halone
    exact ⟨by simpa [Alone] using halone _ _ _ (.crash hdies), h.looks, h.told⟩
  | @looks i op next r u hdue hdoes =>
    obtain ⟨o, houtcome⟩ := h.alone.outcome hcut
    have hnow : level (rank c.trace) c.state := hlevel _ _ _ houtcome
    have hcall := h.looks i
    rw [hdue] at hcall
    obtain ⟨rfl, hnext⟩ := hcall c.state r u ⟨_, hnow⟩ hdoes
    refine ⟨h.alone, fun j => ?_, fun j a l hr => ?_⟩
    · by_cases hj : j = i
      · subst hj
        simpa using hnext
      · simpa [Function.update_of_ne hj] using h.looks j
    · by_cases hj : j = i
      · subst hj
        refine h.told j a l ?_
        rw [hdue]
        exact ⟨_, c.state, r, c.state, le_rfl, hnow, hdoes, by simpa using hr⟩
      · exact h.told j a l (by simpa [Function.update_of_ne hj] using hr)

/-- Each looker is told what held at stages of the writer, one after the other, and the writer has
worked as if it were alone. -/
theorem Run.sound (hrank : ∀ xs ys, rank xs ≤ rank (xs ++ ys)) (hcut : ∀ op s, M.torn op s s)
    (hlevel : Ensures M p s fun trace _ t => level (rank trace) t) (hzero : rank [] = 0)
    (hq : ∀ i, (q i).Looks M fun u => ∃ k, level k u) (hrun : Run M (opening s p q) ls c) :
    c.Alone M p s ∧ ∀ i r, (c.lookers i).result = some r → (q i).Answers M level 0 r (rank c.trace) := by
  have hopening : (opening s p q : Scene Op ι Res ε α β σ).Sound M p s q rank level :=
    ⟨fun _ _ _ ho => ho, hq, fun i r l hr => by simpa [opening, hzero] using hr⟩
  have hsound : c.Sound M p s q rank level := hrun.invariant (C := fun _ _ => True) hopening
    (fun _ _ => trivial) fun u e v _ hu hstep => hu.step hrank hcut hlevel hstep
  exact ⟨hsound.alone, fun i r hr => hsound.told i r _ (.of_result hr)⟩

theorem act_step {d : Scene Op ι Res ε α β σ} (h : c.act M e = some d) : Step M c e d := by
  cases e with
  | writes =>
    simp only [act] at h
    split at h
    · case h_1 op next hdue =>
        cases h
        exact .writes hdue
    · cases h
  | looks i =>
    simp only [act] at h
    split at h
    · case h_1 op next hdue =>
        cases h
        exact .looks hdue .works
    · cases h
  | fails => cases h
  | dies => cases h

end Scene

end EffectPrograms
