import DigTls.Effects.Program

/-! # Registers that are copied from a root

Registers are looked up in a state. A step leaves in each what it held, nothing, what the root of the
register held before the step, or, in a root, something the step makes. If no value is made by two steps,
each value has an age, and a root never goes back behind what it or a copy of it once held.
-/
namespace EffectPrograms
variable {σ ℓ F V : Type} {step : σ → ℓ → σ → Prop} {s t u v : σ} {ls : List (σ × ℓ)} {l l' : ℓ} {i j k n : ℕ}

namespace History

/-- The step at a place of a history, between what comes before it and what comes after. -/
theorem at_place (h : History step s ls t) (hi : ls[i]? = some (u, l)) :
    ∃ v, History step s (ls.take i) u ∧ step u l v ∧ History step v (ls.drop (i + 1)) t := by
  induction h with
  | start => simp at hi
  | @snoc t w ks l' before last ih =>
    by_cases hlt : i < ks.length
    · rw [List.getElem?_append_left hlt] at hi
      obtain ⟨v, hbefore, hstep, hafter⟩ := ih hi
      refine ⟨v, ?_, hstep, ?_⟩
      · rw [List.take_append_of_le_length (Nat.le_of_lt hlt)]
        exact hbefore
      · rw [List.drop_append_of_le_length hlt]
        exact .snoc hafter last
    · have hplace : i = ks.length := by
        have hbound := (List.getElem?_eq_some_iff.mp hi).1
        simp only [List.length_append, List.length_cons, List.length_nil] at hbound
        omega
      subst hplace
      simp only [List.getElem?_concat_length, Option.some.injEq, Prod.mk.injEq] at hi
      obtain ⟨rfl, rfl⟩ := hi
      refine ⟨w, ?_, last, ?_⟩
      · simpa using before
      · simpa using History.start w

theorem starts (h : History step s ls t) (hfirst : ls[0]? = some (u, l)) : u = s := by
  obtain ⟨_, hbefore, _, _⟩ := h.at_place hfirst
  rw [List.take_zero] at hbefore
  generalize hnone : ([] : List (σ × ℓ)) = ks at hbefore
  cases hbefore with
  | start => rfl
  | snoc => simp at hnone

theorem follows (h : History step s ls t) (hi : ls[i]? = some (u, l)) (hnext : ls[i + 1]? = some (v, l')) :
    step u l v := by
  obtain ⟨w, _, hstep, hafter⟩ := h.at_place hi
  have hfirst : (ls.drop (i + 1))[0]? = some (v, l') := by simpa using hnext
  rw [hafter.starts hfirst]
  exact hstep

theorem onwards (h : History step s ls t) (hi : ls[i]? = some (u, l)) : History step u (ls.drop i) t := by
  obtain ⟨w, _, hstep, hafter⟩ := h.at_place hi
  obtain ⟨hbound, hplace⟩ := List.getElem?_eq_some_iff.mp hi
  rw [List.drop_eq_getElem_cons hbound, hplace]
  exact (single hstep).append hafter

theorem between (h : History step s ls t) (hi : ls[i]? = some (u, l)) (hij : i ≤ j) (hj : ls[j]? = some (v, l')) :
    History step u ((ls.drop i).take (j - i)) v := by
  have hplace : (ls.drop i)[j - i]? = some (v, l') := by
    rw [List.getElem?_drop, Nat.add_sub_cancel' hij]
    exact hj
  obtain ⟨_, hbefore, _, _⟩ := (h.onwards hi).at_place hplace
  exact hbefore

end History

variable (look : σ → F → Option V) (root : F → F) (makes : ℓ → F → V → Prop)

/-- What the step may leave in the registers. -/
def Turns (s : σ) (l : ℓ) (t : σ) : Prop := ∀ f v, look t f = some v →
  look s f = some v ∨ look s (root f) = some v ∨ root f = f ∧ makes l f v

/-- The value was made for the register's root by the step at this place. -/
def Born (ls : List (σ × ℓ)) (f : F) (v : V) (k : ℕ) : Prop := ∃ x, ls[k]? = some x ∧ makes x.2 (root f) v

/-- No value is made for a register by two of the steps. -/
def MadeOnce (ls : List (σ × ℓ)) : Prop :=
  ∀ f v k n, Born root makes ls f v k → Born root makes ls f v n → k = n

/-- Every value that a register holds has been made, and none by a later step than what its root holds. -/
structure Aged (ls : List (σ × ℓ)) (s : σ) : Prop where
  born : ∀ f v, look s f = some v → ∃ k, Born root makes ls f v k
  behind : ∀ f v w k n, look s f = some v → look s (root f) = some w → Born root makes ls f v k →
    Born root makes ls f w n → k ≤ n

/-- The root of the register holds nothing that was made before this place. -/
def Since (ls : List (σ × ℓ)) (f : F) (k : ℕ) (s : σ) : Prop :=
  ∀ w n, look s (root f) = some w → Born root makes ls f w n → k ≤ n

variable {look root makes} {f : F} {w w' : V}

theorem Born.of_append {ms : List (σ × ℓ)} (h : Born root makes ls f w k) : Born root makes (ls ++ ms) f w k := by
  obtain ⟨x, hx, hmade⟩ := h
  refine ⟨x, ?_, hmade⟩
  rw [List.getElem?_append_left (List.getElem?_eq_some_iff.mp hx).1]
  exact hx

theorem born_now (h : makes l (root f) w) : Born root makes (ls ++ [(s, l)]) f w ls.length :=
  ⟨(s, l), by simp, h⟩

theorem Born.lt_length (h : Born root makes ls f w k) : k < ls.length := by
  obtain ⟨x, hx, _⟩ := h
  exact (List.getElem?_eq_some_iff.mp hx).1

theorem MadeOnce.of_append {ms : List (σ × ℓ)} (h : MadeOnce root makes (ls ++ ms)) : MadeOnce root makes ls :=
  fun f w k n hk hn => h f w k n hk.of_append hn.of_append

/-- A value in a register is made no later than what is in the root. -/
theorem Aged.since (h : Aged look root makes ls s) (hf : look s f = some w) (hk : Born root makes ls f w k) :
    Since look root makes ls f k s :=
  fun w' n hw' hn => h.behind f w w' k n hf hw' hk hn

section Roots
variable (hroot : ∀ f, root (root f) = root f)
include hroot

theorem born_root : Born root makes ls (root f) w k ↔ Born root makes ls f w k := by
  rw [Born, Born, hroot]

/-- What a register holds after the step, its root held before the step, or the register itself did, or
the step has made it and it is in the root. -/
theorem Aged.turn_born (h : Aged look root makes ls s) (hstep : Turns look root makes s l t)
    (hf : look t f = some w) : ∃ k, Born root makes (ls ++ [(s, l)]) f w k := by
  rcases hstep f w hf with hw | hw | ⟨hself, hmade⟩
  · obtain ⟨k, hk⟩ := h.born f w hw
    exact ⟨k, hk.of_append⟩
  · obtain ⟨k, hk⟩ := h.born (root f) w hw
    exact ⟨k, ((born_root hroot).mp hk).of_append⟩
  · exact ⟨ls.length, born_now (by rw [hself]; exact hmade)⟩

theorem Turns.root_cases (hstep : Turns look root makes s l t) (hw : look t (root f) = some w) :
    look s (root f) = some w ∨ makes l (root f) w := by
  rcases hstep (root f) w hw with hold | hold | ⟨_, hmade⟩
  · exact Or.inl hold
  · rw [hroot] at hold
    exact Or.inl hold
  · exact Or.inr hmade

/-- A root that holds nothing from before a place does not go back behind it. -/
theorem Since.turn (h : Since look root makes ls f k s) (hk : k ≤ ls.length) (haged : Aged look root makes ls s)
    (honce : MadeOnce root makes (ls ++ [(s, l)])) (hstep : Turns look root makes s l t) :
    Since look root makes (ls ++ [(s, l)]) f k t := by
  intro w n hw hn
  rcases hstep.root_cases hroot hw with hold | hmade
  · obtain ⟨m, hm⟩ := haged.born (root f) w hold
    have hm' : Born root makes ls f w m := (born_root hroot).mp hm
    rw [honce f w n m hn hm'.of_append]
    exact h w m hold hm'
  · rw [honce f w n ls.length hn (born_now hmade)]
    exact hk

theorem Aged.turn (h : Aged look root makes ls s) (honce : MadeOnce root makes (ls ++ [(s, l)]))
    (hstep : Turns look root makes s l t) : Aged look root makes (ls ++ [(s, l)]) t := by
  refine ⟨fun f w hf => h.turn_born hroot hstep hf, fun f w w' k n hf hw' hk hn => ?_⟩
  rcases hstep f w hf with hw | hw | ⟨hself, _⟩
  · obtain ⟨m, hm⟩ := h.born f w hw
    rw [honce f w k m hk hm.of_append]
    exact (h.since hw hm).turn hroot (Nat.le_of_lt hm.lt_length) h honce hstep w' n hw' hn
  · obtain ⟨m, hm⟩ := h.born (root f) w hw
    have hm' : Born root makes ls f w m := (born_root hroot).mp hm
    have hsame : Since look root makes ls f m s := by
      intro z a hz ha
      cases hw.symm.trans hz
      exact Nat.le_of_eq (honce.of_append f w m a hm' ha)
    rw [honce f w k m hk hm'.of_append]
    exact hsame.turn hroot (Nat.le_of_lt hm'.lt_length) h honce hstep w' n hw' hn
  · rw [hself] at hw'
    cases hf.symm.trans hw'
    exact Nat.le_of_eq (honce f w k n hk hn)

theorem aged_run (h : History step s ls t) (hturns : ∀ u l v, step u l v → Turns look root makes u l v)
    (hempty : ∀ f, look s f = none) (honce : MadeOnce root makes ls) : Aged look root makes ls t := by
  induction h with
  | start => exact ⟨fun f w hf => by simp [hempty] at hf, fun f w w' k n hf => by simp [hempty] at hf⟩
  | snoc before last ih => exact (ih honce.of_append).turn hroot honce (hturns _ _ _ last)

theorem since_run (h : History step s ls t) (hturns : ∀ u l v, step u l v → Turns look root makes u l v)
    {ks : List (σ × ℓ)} (haged : Aged look root makes ks s) (hk : k ≤ ks.length)
    (honce : MadeOnce root makes (ks ++ ls)) (hsince : Since look root makes ks f k s) :
    Aged look root makes (ks ++ ls) t ∧ Since look root makes (ks ++ ls) f k t := by
  induction h with
  | start => simpa using ⟨haged, hsince⟩
  | @snoc t u ls l _ last ih =>
    rw [← List.append_assoc] at honce ⊢
    obtain ⟨ht, hs⟩ := ih honce.of_append
    have hturn := hturns _ _ _ last
    have hlength : k ≤ (ks ++ ls).length := by
      rw [List.length_append]
      omega
    exact ⟨ht.turn hroot honce hturn, hs.turn hroot hlength ht honce hturn⟩

/-- What a register holds is made no later than what its root holds then or at any time after. -/
theorem root_never_behind (h : History step s ls t) (hturns : ∀ u l v, step u l v → Turns look root makes u l v)
    (hempty : ∀ f, look s f = none) (honce : MadeOnce root makes ls) (hi : ls[i]? = some (u, l)) (hij : i ≤ j)
    (hj : ls[j]? = some (v, l')) (hf : look u f = some w) (hw' : look v (root f) = some w')
    (hk : Born root makes ls f w k) (hn : Born root makes ls f w' n) : k ≤ n := by
  have hwhole : ls = (ls.take i ++ (ls.drop i).take (j - i)) ++ (ls.drop i).drop (j - i) := by
    rw [List.append_assoc, List.take_append_drop, List.take_append_drop]
  rw [hwhole] at honce hk hn
  obtain ⟨_, hbefore, _, _⟩ := h.at_place hi
  have haged : Aged look root makes (ls.take i) u :=
    aged_run hroot hbefore hturns hempty honce.of_append.of_append
  obtain ⟨m, hm⟩ := haged.born f w hf
  obtain ⟨hlater, hsince⟩ := since_run hroot (h.between hi hij hj) hturns haged (Nat.le_of_lt hm.lt_length)
    honce.of_append (haged.since hf hm)
  obtain ⟨a, ha⟩ := hlater.born (root f) w' hw'
  have ha' := (born_root hroot).mp ha
  rw [honce f w k m hk hm.of_append.of_append, honce f w' n a hn ha'.of_append]
  exact hsince w' a hw' ha'

end Roots

end EffectPrograms
