/-!
# Spans

A span is the range of bytes of the source text that a piece of syntax was read from. Pieces that
are made by the program itself have the synthetic span, which is the span of no text.
-/

namespace ServiceSplit

/-- The range of source bytes of a piece of syntax. -/
inductive Span where
  /-- The span of a piece that was not read from a source text. -/
  | synthetic
  /-- The bytes from `start` up to but excluding `stop`. -/
  | range (start stop : Nat)
deriving DecidableEq, Repr, Inhabited

namespace Span

/-- Whether the span belongs to no text. -/
def isSynthetic : Span → Bool
  | synthetic => true
  | range .. => false

/-- The first byte; zero for the synthetic span. -/
def start : Span → Nat
  | synthetic => 0
  | range a _ => a

/-- The end of the last byte; zero for the synthetic span. -/
def stop : Span → Nat
  | synthetic => 0
  | range _ b => b

/-- The number of bytes. -/
def length (s : Span) : Nat :=
  s.stop - s.start

/-- Whether the span has no bytes. -/
def isEmpty (s : Span) : Bool :=
  s.length == 0

/-- The least range around two spans. The synthetic span adds nothing. -/
def union : Span → Span → Span
  | synthetic, t => t
  | s, synthetic => s
  | range a b, range c d => range (min a c) (max b d)

/-- Position and length of the text that a diagnostic marks. -/
def label (s : Span) : Nat × Nat :=
  (s.start, s.length)

@[simp]
theorem synthetic_union (t : Span) : synthetic.union t = t := by
  cases t <;> rfl

@[simp]
theorem union_synthetic (s : Span) : s.union synthetic = s := by
  cases s <;> rfl

end Span

end ServiceSplit
