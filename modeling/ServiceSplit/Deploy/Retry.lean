/-!
# Retries

Trying something again until it gives a value, a limited number of times.
-/

namespace ServiceSplit

/-- How often something is tried, and the pause between two attempts. -/
structure RetryPolicy where
  /-- The number of attempts. -/
  maxAttempts : Nat
  /-- The pause in milliseconds. -/
  intervalMs : Nat
deriving DecidableEq, Repr, Inhabited

namespace RetryPolicy

variable {m : Type → Type} [Monad m] {ε α : Type}

/-- Makes up to `left` attempts, the first of which has number `n`. -/
def pollFrom (pause : m Unit) (attempt : Nat → ExceptT ε m (Option α)) :
    (left n : Nat) → ExceptT ε m (Option α)
  | 0, _ => return none
  | left + 1, n => do
    match ← attempt n with
    | some a => return some a
    | none =>
      if left ≠ 0 then ExceptT.lift pause
      pollFrom pause attempt left (n + 1)

/-- Makes attempts until one gives a value or fails, or there were enough. Attempts are counted from
one. -/
def poll (policy : RetryPolicy) (pause : Nat → m Unit) (attempt : Nat → ExceptT ε m (Option α)) :
    ExceptT ε m (Option α) :=
  pollFrom (if policy.intervalMs = 0 then pure () else pause policy.intervalMs) attempt
    policy.maxAttempts 1

end RetryPolicy

end ServiceSplit
