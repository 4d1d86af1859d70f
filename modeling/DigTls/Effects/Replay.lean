import DigTls.Effects.Program

/-! # Histories of steps that can be played

Where each step is a function of the state, a history is the play of its labels, and the states it
goes through are those that the first labels lead to.
-/
namespace EffectPrograms
variable {σ ℓ : Type} {next : σ → ℓ → Option σ}

def replay (next : σ → ℓ → Option σ) : σ → List ℓ → Option σ
  | s, [] => some s
  | s, l :: ls => (next s l).bind fun t => replay next t ls

theorem replay_append (s : σ) (ls ms : List ℓ) :
    replay next s (ls ++ ms) = (replay next s ls).bind fun t => replay next t ms := by
  induction ls generalizing s with
  | nil => rfl
  | cons l ls ih =>
    simp only [List.cons_append, replay, Option.bind_assoc]
    exact congrArg _ (funext fun t => ih t)

namespace History
variable {s t u : σ} {ls : List (σ × ℓ)}

theorem replayed (h : History (fun u l v => next u l = some v) s ls t) :
    replay next s (ls.map Prod.snd) = some t := by
  induction h with
  | start => rfl
  | @snoc t u ls l _ last ih =>
    rw [List.map_append, replay_append, ih]
    change (next t l).bind _ = some u
    rw [last]
    rfl

theorem of_replay {ms : List ℓ} (h : replay next s ms = some t) :
    ∃ ls, ls.map Prod.snd = ms ∧ History (fun u l v => next u l = some v) s ls t :=
  History.of_play (fun _ => rfl) (fun _ _ _ => rfl) h

theorem mono {step step' : σ → ℓ → σ → Prop} (h : History step s ls t) (hle : ∀ u l v, step u l v → step' u l v) :
    History step' s ls t := by
  induction h with
  | start => exact .start _
  | snoc _ last ih => exact .snoc ih (hle _ _ _ last)

theorem reached {l : ℓ} (h : History (fun u l v => next u l = some v) s ls t) (hx : (u, l) ∈ ls) :
    ∃ before after, ls.map Prod.snd = before ++ l :: after ∧ replay next s before = some u := by
  induction h with
  | start => cases hx
  | @snoc t v ls' l' before last ih =>
    rcases List.mem_append.mp hx with hx | hx
    · obtain ⟨ks, ms, hlabels, hks⟩ := ih hx
      exact ⟨ks, ms ++ [l'], by simp [hlabels], hks⟩
    · cases List.mem_singleton.mp hx
      exact ⟨ls'.map Prod.snd, [], by simp, before.replayed⟩

end History
end EffectPrograms
