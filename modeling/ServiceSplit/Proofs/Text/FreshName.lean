import Mathlib.Data.List.Nodup
import Mathlib.Data.List.Perm.Subperm
import Mathlib.Data.Nat.Find
import Mathlib.Order.Bounds.Basic
import ServiceSplit.Text.FreshName

/-!
# Fresh names

The search for a free name ends, since different numbers make different names and only finitely many
of them are taken. The bound of the search never cuts it off, so that it finds the least free
number.
-/

namespace ServiceSplit.Text

variable {base : String} {taken : List String}

theorem decimal_injective {m n : Nat} (h : decimal m = decimal n) : m = n := by
  have hdigits : Nat.toDigits 10 m = Nat.toDigits 10 n := by
    rw [← Nat.toList_repr, ← Nat.toList_repr]
    exact congrArg String.toList h
  rw [← @Nat.ofDigitChars_ten_toDigits m, ← @Nat.ofDigitChars_ten_toDigits n, hdigits]

/-- The numbers from two on that make a free name of `base`. -/
def freeNumbers (base : String) (taken : List String) : Set Nat :=
  {n | 2 ≤ n ∧ base ++ decimal n ∉ taken}

/-- One of the first numbers is free, since there are more of them than taken names. -/
theorem exists_mem_freeNumbers (base : String) (taken : List String) :
    ∃ n ≤ taken.length + 2, n ∈ freeNumbers base taken := by
  by_contra hnone
  let candidates := (List.range (taken.length + 1)).map fun i => base ++ decimal (2 + i)
  have hnodup : candidates.Nodup := by
    refine List.nodup_range.map fun i j hij => ?_
    exact Nat.add_left_cancel (decimal_injective ((String.append_right_inj base).mp hij))
  have hsubset : candidates ⊆ taken := by
    intro name hname
    obtain ⟨i, hi, rfl⟩ := List.mem_map.mp hname
    have hi := List.mem_range.mp hi
    by_contra hfree
    exact hnone ⟨2 + i, by omega, Nat.le_add_right 2 i, hfree⟩
  have hlength := (hnodup.subperm hsubset).length_le
  simp only [candidates, List.length_map, List.length_range] at hlength
  exact absurd hlength (Nat.not_succ_le_self _)

theorem exists_isLeast_freeNumbers (base : String) (taken : List String) :
    ∃ n ≤ taken.length + 2, IsLeast (freeNumbers base taken) n := by
  classical
  obtain ⟨m, hm, hfree⟩ := exists_mem_freeNumbers base taken
  have hleast : IsLeast (freeNumbers base taken) (Nat.find ⟨m, hfree⟩) :=
    ⟨Nat.find_spec ⟨m, hfree⟩, fun k hk => Nat.find_min' _ hk⟩
  exact ⟨_, (hleast.2 hfree).trans hm, hleast⟩

/-- The search from `m` on passes over the numbers that are taken and stops at `n`. -/
theorem freshNumbered_eq {fuel m n : Nat} (hfree : base ++ decimal n ∉ taken)
    (htaken : ∀ k, m ≤ k → k < n → base ++ decimal k ∈ taken) (hmn : m ≤ n) (hfuel : n ≤ m + fuel) :
    freshNumbered base taken fuel m = base ++ decimal n := by
  induction fuel generalizing m with
  | zero =>
    obtain rfl : m = n := Nat.le_antisymm hmn hfuel
    rfl
  | succ fuel ih =>
    rw [freshNumbered]
    rcases hmn.eq_or_lt with rfl | hlt
    · rw [if_neg (by simpa using hfree)]
    · rw [if_pos (by simpa using htaken m le_rfl hlt)]
      exact ih (fun k hk => htaken k (Nat.le_of_succ_le hk)) hlt (by omega)

/-- Any bound that reaches the least free number gives the same name. -/
theorem freshNumbered_of_isLeast {fuel n : Nat} (hn : IsLeast (freeNumbers base taken) n)
    (hfuel : n ≤ fuel + 2) : freshNumbered base taken fuel 2 = base ++ decimal n := by
  refine freshNumbered_eq hn.1.2 (fun k hk hkn => ?_) hn.1.1 (by omega)
  by_contra hfree
  exact absurd (hn.2 ⟨hk, hfree⟩) (Nat.not_le.mpr hkn)

theorem freshName_of_notMem (h : base ∉ taken) : freshName base taken = base :=
  if_neg (by simpa using h)

theorem freshName_of_mem (h : base ∈ taken) :
    freshName base taken = freshNumbered base taken taken.length 2 :=
  if_pos (by simpa using h)

/-- A fresh name is not taken. -/
theorem freshName_notMem (base : String) (taken : List String) : freshName base taken ∉ taken := by
  by_cases h : base ∈ taken
  · obtain ⟨n, hle, hn⟩ := exists_isLeast_freeNumbers base taken
    rw [freshName_of_mem h, freshNumbered_of_isLeast hn hle]
    exact hn.1.2
  · rwa [freshName_of_notMem h]

end ServiceSplit.Text
