import Mathlib.Data.Vector.Basic

/-! # Functions that may panic

A function ends with a value, with `None`, or in a panic. Indexing and slicing panic outside the
bounds of the array, copying into an array panics when the lengths differ, and the question mark
on an absent value ends the function with `None`.
-/
namespace Endings
variable {α β γ : Type} {n : ℕ}

/-- How a function ends. -/
inductive Ending (α : Type) where
  | value (a : α)
  | none
  | panic
  deriving DecidableEq

namespace Ending

def bind : Ending α → (α → Ending β) → Ending β
  | value a, f => f a
  | none, _ => none
  | panic, _ => panic

instance : Monad Ending where
  pure := value
  bind := bind

@[simp] theorem pure_eq (a : α) : (pure a : Ending α) = value a := rfl
@[simp] theorem value_bind (a : α) (f : α → Ending β) : (value a >>= f) = f a := rfl
@[simp] theorem none_bind (f : α → Ending β) : (none >>= f) = none := rfl
@[simp] theorem panic_bind (f : α → Ending β) : (panic >>= f) = panic := rfl

def ofOption : Option α → Ending α
  | some a => value a
  | .none => none

@[simp] theorem ofOption_some (a : α) : ofOption (some a) = value a := rfl
@[simp] theorem ofOption_none : ofOption (Option.none : Option α) = none := rfl

theorem ofOption_ne_panic (o : Option α) : ofOption o ≠ panic := by
  cases o <;> simp [ofOption]

end Ending

def index (xs : List α) (i : ℕ) : Ending α :=
  match xs[i]? with
  | some a => .value a
  | none => .panic

def slice (xs : List α) (start stop : ℕ) : Ending (List α) :=
  if start ≤ stop ∧ stop ≤ xs.length then .value ((xs.drop start).take (stop - start)) else .panic

def copyFromSlice (n : ℕ) (xs : List α) : Ending (List.Vector α n) :=
  if h : xs.length = n then .value ⟨xs, h⟩ else .panic

def assign (xs : List.Vector α n) (i : ℕ) (a : α) : Ending (List.Vector α n) :=
  if h : i < n then .value (xs.set ⟨i, h⟩ a) else .panic

theorem slice_eq_value {xs : List α} {start stop : ℕ} (h : start ≤ stop) (h' : stop ≤ xs.length) :
    slice xs start stop = .value ((xs.drop start).take (stop - start)) := if_pos ⟨h, h'⟩

theorem copyFromSlice_toList (xs : List.Vector α n) : copyFromSlice n xs.toList = .value xs :=
  dif_pos xs.toList_length

@[simp] theorem index_zero (a : α) (xs : List α) : index (a :: xs) 0 = .value a := rfl
@[simp] theorem index_succ (a : α) (xs : List α) (i : ℕ) : index (a :: xs) (i + 1) = index xs i := by
  simp [index]

theorem assign_append {xs : List.Vector α n} {pre rest : List α} {a b : α}
    (h : xs.toList = pre ++ b :: rest) :
    ∃ ys, assign xs pre.length a = .value ys ∧ ys.toList = pre ++ a :: rest := by
  have hlen : pre.length < n := by
    have hn := xs.toList_length
    rw [h, List.length_append, List.length_cons] at hn
    omega
  refine ⟨xs.set ⟨pre.length, hlen⟩ a, dif_pos hlen, ?_⟩
  rw [List.Vector.toList_set, h]
  simp

end Endings
