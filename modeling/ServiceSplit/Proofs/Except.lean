import Mathlib.Data.List.Forall2
import ServiceSplit.Failure

/-!
# Steps that can fail

How a sequence of steps comes to a result.
-/

namespace ServiceSplit

variable {ε ε' α β γ : Type}

/-- The first step of a sequence with a result has one. -/
theorem exists_of_bind_eq_ok {x : Except ε α} {f : α → Except ε β} {b : β}
    (h : x >>= f = .ok b) : ∃ a, x = .ok a ∧ f a = .ok b := by
  cases x with
  | error e => cases h
  | ok a => exact ⟨a, rfl, h⟩

/-- A step that only words its errors differently has the same result. -/
theorem exists_of_mapError_eq_ok {x : Except ε α} {g : ε → ε'} {a : α}
    (h : x.mapError g = .ok a) : x = .ok a := by
  cases x with
  | error e => cases h
  | ok b =>
    cases h
    rfl

/-- A step that is made for each element of a list gives the results one by one. -/
theorem forall₂_of_mapM_eq_ok {f : α → Except ε β} {xs : List α} {ys : List β}
    (h : xs.mapM f = .ok ys) : List.Forall₂ (fun x y => f x = .ok y) xs ys := by
  induction xs generalizing ys with
  | nil =>
    cases h
    exact .nil
  | cons x xs ih =>
    rw [List.mapM_cons] at h
    obtain ⟨y, hy, h⟩ := exists_of_bind_eq_ok h
    obtain ⟨rest, hrest, h⟩ := exists_of_bind_eq_ok h
    cases h
    exact .cons hy (ih hrest)

/-- Where each step puts its value into a result, there are values one by one. -/
theorem exists_of_mapM_map_eq_ok {f : α → Except ε β} {g : α → β → γ} {xs : List α} {ys : List γ}
    (h : (xs.mapM fun x => do let b ← f x; return g x b) = .ok ys) :
    ∃ bs, List.Forall₂ (fun x b => f x = .ok b) xs bs ∧ ys = List.zipWith g xs bs := by
  replace h := forall₂_of_mapM_eq_ok h
  induction h with
  | nil => exact ⟨[], .nil, rfl⟩
  | cons hy _ ih =>
    obtain ⟨b, hb, hy⟩ := exists_of_bind_eq_ok hy
    cases hy
    obtain ⟨bs, hbs, rfl⟩ := ih
    exact ⟨b :: bs, .cons hb hbs, rfl⟩

end ServiceSplit
