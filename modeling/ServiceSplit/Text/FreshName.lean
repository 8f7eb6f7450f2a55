import ServiceSplit.Text.Basic

/-!
# Fresh names

A name that is not taken: the base name itself, or the base name followed by the least free number
from two on.
-/

namespace ServiceSplit.Text

/-- The first of `base` followed by `n`, `n + 1`, … that is not taken. One more candidate than there
are taken names is enough, so the search is bounded by `fuel`. -/
def freshNumbered (base : String) (taken : List String) : (fuel n : Nat) → String
  | 0, n => base ++ decimal n
  | fuel + 1, n =>
    let candidate := base ++ decimal n
    if taken.contains candidate then freshNumbered base taken fuel (n + 1) else candidate

/-- `base` if it is free, and otherwise the first free one of `base2`, `base3`, …. -/
def freshName (base : String) (taken : List String) : String :=
  if taken.contains base then freshNumbered base taken taken.length 2 else base

end ServiceSplit.Text
