import DigTls.Effects.Program

/-! # Two programs on one state

Two programs run side by side when their calls are made in turn, in any order. Such a run is
serial when its answers and the state it leaves, as far as a view of the state shows it, are
those of running one program after the other. Two situations in which every run is serial are
worked out: one program is steady, whatever the other does, and one program reads up to a gate
that the other opens with a single call.
-/
namespace EffectPrograms
variable {Op : Type} {Res : Op → Type} {ε α β σ τ : Type} {M : Machine Op Res σ}

/-- `Interleaved M p q s r r' t`: from `s`, the healthy calls of both programs in some order
give `p` the answer `r` and `q` the answer `r'`, and leave `t`. -/
inductive Interleaved (M : Machine Op Res σ) : Program Op Res ε α → Program Op Res ε β → σ →
    Except ε α → Except ε β → σ → Prop
  | left {op : Op} {next : Res op → Program Op Res ε α} {q : Program Op Res ε β} {s t : σ}
      {r : Except ε α} {r' : Except ε β}
      (later : Interleaved M (next (M.run op s).1) q (M.run op s).2 r r' t) :
      Interleaved M (.call op next) q s r r' t
  | right {p : Program Op Res ε α} {op : Op} {next : Res op → Program Op Res ε β} {s t : σ}
      {r : Except ε α} {r' : Except ε β}
      (later : Interleaved M p (next (M.run op s).1) (M.run op s).2 r r' t) :
      Interleaved M p (.call op next) s r r' t
  | ended {p : Program Op Res ε α} {q : Program Op Res ε β} {s : σ} {r : Except ε α} {r' : Except ε β}
      (hp : p.result = some r) (hq : q.result = some r') : Interleaved M p q s r r' s

variable {p : Program Op Res ε α} {q : Program Op Res ε β} {s t : σ} {r : Except ε α} {r' : Except ε β}

theorem Interleaved.swap (h : Interleaved M p q s r r' t) : Interleaved M q p s r' r t := by
  induction h with
  | left _ ih => exact .right ih
  | right _ ih => exact .left ih
  | ended hp hq => exact .ended hq hp

/-- The calls made in the turns listed, `true` for the first program; a turn given to a program
that has ended is skipped. -/
def interleave (M : Machine Op Res σ) : List Bool → Program Op Res ε α → Program Op Res ε β → σ →
    Option (Except ε α × Except ε β × σ)
  | [], p, q, s => p.result.bind fun r => q.result.map fun r' => (r, r', s)
  | true :: turns, .call op next, q, s => interleave M turns (next (M.run op s).1) q (M.run op s).2
  | false :: turns, p, .call op next, s => interleave M turns p (next (M.run op s).1) (M.run op s).2
  | _ :: turns, p, q, s => interleave M turns p q s

theorem interleaved_of_turns {turns : List Bool} (h : interleave M turns p q s = some (r, r', t)) :
    Interleaved M p q s r r' t := by
  induction turns generalizing p q s with
  | nil =>
    obtain ⟨a, hp, hq⟩ := Option.bind_eq_some_iff.mp h
    obtain ⟨b, hb, heq⟩ := Option.map_eq_some_iff.mp hq
    cases heq
    exact .ended hp hb
  | cons turn turns ih =>
    cases turn with
    | true =>
      cases p with
      | done a => exact ih h
      | raise e => exact ih h
      | call op next => exact .left (ih h)
    | false =>
      cases q with
      | done b => exact ih h
      | raise e => exact ih h
      | call op next => exact .right (ih h)

/-- One of the two serial runs gives the same answers, and the same view of the state left. -/
def Serial (M : Machine Op Res σ) (view : σ → τ) (p : Program Op Res ε α) (q : Program Op Res ε β)
    (s : σ) (r : Except ε α) (r' : Except ε β) (t : σ) : Prop :=
  (∃ u v, exec M p s = (r, u) ∧ exec M q u = (r', v) ∧ view v = view t) ∨
  (∃ u v, exec M q s = (r', u) ∧ exec M p u = (r, v) ∧ view v = view t)

theorem serial_iff {view : σ → τ} : Serial M view p q s r r' t ↔
    ((exec M p s).1 = r ∧ (exec M q (exec M p s).2).1 = r' ∧ view (exec M q (exec M p s).2).2 = view t) ∨
    ((exec M q s).1 = r' ∧ (exec M p (exec M q s).2).1 = r ∧ view (exec M p (exec M q s).2).2 = view t) := by
  constructor
  · rintro (⟨u, v, hp, hq, hv⟩ | ⟨u, v, hq, hp, hv⟩)
    · exact Or.inl (by simp [hp, hq, hv])
    · exact Or.inr (by simp [hp, hq, hv])
  · rintro (⟨rfl, rfl, hv⟩ | ⟨rfl, rfl, hv⟩)
    · exact Or.inl ⟨_, _, rfl, rfl, hv⟩
    · exact Or.inr ⟨_, _, rfl, rfl, hv⟩

instance {view : σ → τ} [DecidableEq τ] [DecidableEq ε] [DecidableEq α] [DecidableEq β] :
    Decidable (Serial M view p q s r r' t) :=
  decidable_of_iff _ serial_iff.symm

theorem Serial.swap {view : σ → τ} (h : Serial M view q p s r' r t) : Serial M view p q s r r' t :=
  h.symm

theorem Serial.coarsen {τ' : Type} {view : σ → τ} {view' : σ → τ'} (h : Serial M view p q s r r' t)
    (hview : ∀ s s', view s = view s' → view' s = view' s') : Serial M view' p q s r r' t := by
  rcases h with ⟨u, v, hp, hq, hv⟩ | ⟨u, v, hq, hp, hv⟩
  · exact Or.inl ⟨u, v, hp, hq, hview _ _ hv⟩
  · exact Or.inr ⟨u, v, hq, hp, hview _ _ hv⟩

/-- No call can tell states with the same view apart. -/
def Faithful (M : Machine Op Res σ) (view : σ → τ) : Prop :=
  ∀ op s s', view s = view s' →
    (M.run op s).1 = (M.run op s').1 ∧ view (M.run op s).2 = view (M.run op s').2

def Shown (view : σ → τ) (I : σ → Prop) : Prop := ∀ s s', view s = view s' → I s → I s'

theorem exec_of_result {a : Except ε α} (h : p.result = some a) (s : σ) : exec M p s = (a, s) := by
  cases p with
  | done b =>
    cases h
    rfl
  | raise e =>
    cases h
    rfl
  | call op next => cases h

theorem exec_view {view : σ → τ} (hview : Faithful M view) (p : Program Op Res ε α) {s s' : σ}
    (h : view s = view s') :
    (exec M p s).1 = (exec M p s').1 ∧ view (exec M p s).2 = view (exec M p s').2 := by
  induction p generalizing s s' with
  | done a => exact ⟨rfl, h⟩
  | raise e => exact ⟨rfl, h⟩
  | call op next ih =>
    obtain ⟨hans, hstate⟩ := hview op s s' h
    rw [exec_call, exec_call, hans]
    exact ih _ hstate

/-- Made from states of `I`, every call of the program leads to a state of `I`. -/
def Program.Within (M : Machine Op Res σ) (I : σ → Prop) : Program Op Res ε α → Prop
  | .call op next => ∀ s, I s → I (M.run op s).2 ∧ (next (M.run op s).1).Within M I
  | _ => True

/-- Made from states of `I`, the calls of the program change nothing in view, and it ends with `r`. -/
def Program.Steady (M : Machine Op Res σ) (view : σ → τ) (I : σ → Prop) (r : Except ε α) :
    Program Op Res ε α → Prop
  | .call op next => ∀ s, I s → view (M.run op s).2 = view s ∧ (next (M.run op s).1).Steady M view I r
  | p => p.result = some r

section Invariants
variable {view : σ → τ} {I : σ → Prop} {γ : Type}

theorem Program.Within.bind {f : α → Program Op Res ε γ} (hp : p.Within M I)
    (hf : ∀ a, (f a).Within M I) : (p >>= f).Within M I := by
  induction p with
  | done a => exact hf a
  | raise e => trivial
  | call op next ih =>
    intro s hs
    obtain ⟨hI, hnext⟩ := hp s hs
    exact ⟨hI, ih _ hnext⟩

theorem Program.within_of_all (hrun : ∀ op s, I s → I (M.run op s).2) (p : Program Op Res ε α) :
    p.Within M I := by
  induction p with
  | done a => trivial
  | raise e => trivial
  | call op next ih => exact fun s hs => ⟨hrun op s hs, ih _⟩

theorem Program.Steady.within (hI : Shown view I) (h : p.Steady M view I r) : p.Within M I := by
  induction p with
  | done a => trivial
  | raise e => trivial
  | call op next ih =>
    intro s hs
    obtain ⟨hsame, hnext⟩ := h s hs
    exact ⟨hI s _ hsame.symm hs, ih _ hnext⟩

theorem Program.Steady.bind {a : α} {b : Except ε γ} {f : α → Program Op Res ε γ}
    (hp : p.Steady M view I (.ok a)) (hf : (f a).Steady M view I b) : (p >>= f).Steady M view I b := by
  induction p with
  | done a' =>
    cases hp
    exact hf
  | raise e => cases hp
  | call op next ih =>
    intro s hs
    obtain ⟨hsame, hnext⟩ := hp s hs
    exact ⟨hsame, ih _ hnext⟩

theorem Program.Steady.bind_error {e : ε} {f : α → Program Op Res ε γ}
    (hp : p.Steady M view I (.error e)) : (p >>= f).Steady M view I (.error e) := by
  induction p with
  | done a => cases hp
  | raise e' =>
    cases hp
    rfl
  | call op next ih =>
    intro s hs
    obtain ⟨hsame, hnext⟩ := hp s hs
    exact ⟨hsame, ih _ hnext⟩

theorem Program.Steady.exec (hI : Shown view I) (h : p.Steady M view I r) (hs : I s) :
    (exec M p s).1 = r ∧ view (exec M p s).2 = view s := by
  induction p generalizing s with
  | done a =>
    cases h
    exact ⟨rfl, rfl⟩
  | raise e =>
    cases h
    exact ⟨rfl, rfl⟩
  | call op next ih =>
    obtain ⟨hsame, hnext⟩ := h s hs
    obtain ⟨hans, hstate⟩ := ih _ hnext (hI s _ hsame.symm hs)
    exact ⟨hans, hstate.trans hsame⟩

/-- A program steady on an invariant the other keeps is not seen by the other. -/
theorem Interleaved.beside (hview : Faithful M view) (hI : Shown view I)
    (h : Interleaved M p q s r r' t) {b : Except ε β} (hp : p.Within M I) (hq : q.Steady M view I b)
    (hs : I s) : r' = b ∧ (exec M p s).1 = r ∧ view (exec M p s).2 = view t := by
  induction h with
  | @left op next _ s _ _ _ _ ih =>
    obtain ⟨hkept, hnext⟩ := hp s hs
    exact ih hnext hq hkept
  | @right p op next s _ _ _ _ ih =>
    obtain ⟨hsame, hnext⟩ := hq s hs
    obtain ⟨hans, hstate⟩ := exec_view hview p hsame
    obtain ⟨hb, hr, ht⟩ := ih hp hnext (hI s _ hsame.symm hs)
    exact ⟨hb, hans.symm.trans hr, hstate.symm.trans ht⟩
  | @ended p q s r r' hpr hqr =>
    rw [exec_of_result hpr]
    cases q with
    | done b' =>
      cases hq
      cases hqr
      exact ⟨rfl, rfl, rfl⟩
    | raise e =>
      cases hq
      cases hqr
      exact ⟨rfl, rfl, rfl⟩
    | call op next => cases hqr

theorem serial_of_steady (hview : Faithful M view) (hI : Shown view I)
    (h : Interleaved M p q s r r' t) {b : Except ε β} (hp : p.Within M I) (hq : q.Steady M view I b)
    (hs : I s) : Serial M view p q s r r' t := by
  obtain ⟨rfl, rfl, ht⟩ := h.beside hview hI hp hq hs
  obtain ⟨hq₁, hq₂⟩ := hq.exec hI hs
  obtain ⟨hp₁, hp₂⟩ := exec_view hview p hq₂
  exact Or.inr ⟨_, (exec M p (exec M q s).2).2, Prod.ext hq₁ rfl, Prod.ext hp₁ rfl, hp₂.trans ht⟩

end Invariants

/-- On the states of `I`, before the gate opens, each call of the program either decides it, with
the answer `r`, or gives an answer it will also give once the gate is open, on the states of `O`. -/
def Program.Gated (M : Machine Op Res σ) (I O : σ → Prop) (r : Except ε α) : Program Op Res ε α → Prop
  | .call op next => ∀ s, I s → (M.run op s).2 = s ∧ ((next (M.run op s).1).result = some r ∨
      (∀ u, O u → M.run op u = ((M.run op s).1, u)) ∧ (next (M.run op s).1).Gated M I O r)
  | _ => False

/-- Run alone from `s`, the program stays in `I` until one call opens the gate; what is left of it
then satisfies `P`. -/
def Program.Opens (M : Machine Op Res σ) (I : σ → Prop) (P : Program Op Res ε α → σ → Prop) :
    Program Op Res ε α → σ → Prop
  | .call op next, s => I (M.run op s).2 ∧ (next (M.run op s).1).Opens M I P (M.run op s).2 ∨
      P (next (M.run op s).1) (M.run op s).2
  | _, _ => True

section Gates
variable {view : σ → τ} {I O J : σ → Prop} {P : Program Op Res ε α → σ → Prop} {γ : Type}

theorem Program.Opens.mono {I' : σ → Prop} (h : p.Opens M I' P s) (hI : ∀ u, I' u → I u) : p.Opens M I P s := by
  induction p generalizing s with
  | done a => trivial
  | raise e => trivial
  | call op next ih =>
    rcases h with ⟨hs, hnext⟩ | hP
    · exact Or.inl ⟨hI _ hs, ih _ hnext⟩
    · exact Or.inr hP

theorem Program.Opens.bind {f : α → Program Op Res ε γ} {P : Program Op Res ε γ → σ → Prop}
    (hp : p.Within M I) (hs : I s)
    (hf : ∀ a u, exec M p s = (.ok a, u) → I u → (f a).Opens M I P u) : (p >>= f).Opens M I P s := by
  induction p generalizing s with
  | done a => exact hf a s rfl hs
  | raise e => trivial
  | call op next ih =>
    obtain ⟨hI, hnext⟩ := hp s hs
    exact Or.inl ⟨hI, ih _ hnext hI hf⟩

/-- A gated program that was refused has only read. -/
theorem Program.Gated.exec (h : q.Gated M I O r') (hs : I s) : EffectPrograms.exec M q s = (r', s) := by
  induction q with
  | done b => exact h.elim
  | raise e => exact h.elim
  | call op next ih =>
    obtain ⟨hsame, hdecided | ⟨_, hnext⟩⟩ := h s hs
    · rw [exec_call, hsame, exec_of_result hdecided]
    · rw [exec_call, hsame]
      exact ih _ hnext

/-- A program alone: what is interleaved with an ended program is its own run. -/
theorem Interleaved.alone (h : Interleaved M p q s r r' t) {b : Except ε β} (hq : q.result = some b) :
    r' = b ∧ exec M p s = (r, t) := by
  induction h with
  | left _ ih => exact ih hq
  | right _ => cases hq
  | ended hp hq' =>
    rw [hq'] at hq
    exact ⟨Option.some.inj hq, exec_of_result hp _⟩

/-- Once the gate is open, the rest of the opening program is steady beside the waiting one. -/
theorem Interleaved.gated (hview : Faithful M view) (hO : Shown view O)
    (hJ : Shown view J) (hJrun : ∀ op s, J s → J (M.run op s).2) {a : Except ε α}
    (h : Interleaved M p q s r r' t) {b : Except ε β}
    (hp : p.Opens M I (fun p' u => O u ∧ J u ∧ p'.Steady M view J a) s) (hq : q.Gated M I O b) (hs : I s) :
    r' = b ∧ exec M p s = (r, t) ∨
      ∃ u, exec M p s = (r, u) ∧ O u ∧ (exec M q u).1 = r' ∧ view (exec M q u).2 = view t := by
  induction h with
  | @left op next q s t r r' later ih =>
    rcases hp with ⟨hI', hnext⟩ | ⟨hOu, hJu, hsteady⟩
    · exact ih hnext hq hI'
    · obtain ⟨rfl, hr, ht⟩ := later.swap.beside hview hJ (q.within_of_all hJrun) hsteady hJu
      obtain ⟨hp₁, hp₂⟩ := hsteady.exec hJ hJu
      obtain ⟨hq₁, hq₂⟩ := exec_view hview q hp₂
      exact Or.inr ⟨_, Prod.ext hp₁ rfl, hO _ _ hp₂.symm hOu, hq₁.trans hr, hq₂.trans ht⟩
  | @right p op next s t r r' later ih =>
    obtain ⟨hsame, hdecided | ⟨hopen, hnext⟩⟩ := hq s hs
    · obtain ⟨hr', hp'⟩ := later.alone hdecided
      rw [hsame] at hp'
      exact Or.inl ⟨hr', hp'⟩
    · rw [hsame] at ih
      rcases ih hp hnext hs with hrefused | ⟨u, hpu, hOu, hr', ht⟩
      · exact Or.inl hrefused
      · refine Or.inr ⟨u, hpu, hOu, ?_, ?_⟩
        · rw [exec_call, hopen u hOu]
          exact hr'
        · rw [exec_call, hopen u hOu]
          exact ht
  | @ended p q s r r' hpr hqr =>
    cases q with
    | done b' => exact hq.elim
    | raise e => exact hq.elim
    | call op next => cases hqr

theorem serial_of_gated (hview : Faithful M view) (hO : Shown view O)
    (hJ : Shown view J) (hJrun : ∀ op s, J s → J (M.run op s).2) {a : Except ε α}
    (h : Interleaved M p q s r r' t) {b : Except ε β}
    (hp : p.Opens M I (fun p' u => O u ∧ J u ∧ p'.Steady M view J a) s) (hq : q.Gated M I O b) (hs : I s) :
    Serial M view p q s r r' t := by
  rcases h.gated hview hO hJ hJrun hp hq hs with ⟨rfl, hpt⟩ | ⟨u, hpu, _, hr', ht⟩
  · exact Or.inr ⟨s, t, hq.exec hs, hpt, rfl⟩
  · exact Or.inl ⟨u, _, hpu, Prod.ext hr' rfl, ht⟩

end Gates
end EffectPrograms
