import ServiceSplit.Proofs.Induction
import ServiceSplit.Tree.Query

/-!
# Execution paths

The paths through the statements of a function, with what a `View` lets one see of them. Conditions
are not evaluated: an `if` takes either branch, a switch enters any clause, or none if it has no
default clause, a select takes any clause, and a loop with a condition, or over a range, makes any
number of rounds. A loop without condition goes on until something leaves it. A path may be looked
at up to any point only, so that the paths of a loop that never ends are seen as well.
-/

namespace ServiceSplit

/-- How a path leaves a part of a function. -/
inductive Exit where
  /-- It goes on behind the part. -/
  | next
  /-- It is on its way to the statement that a `break` or a `continue` leaves. -/
  | jump (isContinue : Bool) (label : Option String)
  /-- It goes on in the next clause of a switch. -/
  | fall
  /-- It is over. -/
  | finished
  /-- It goes on somehow, but is not looked at any further. -/
  | cut
deriving DecidableEq, Repr

namespace Exit

/-- Whether the path leaves the switch, select or loop with a label by a `break`. -/
def leaves (label : Option String) : Exit → Bool
  | jump false l => l.isNone || l == label
  | _ => false

/-- Whether a path at the end of the body of a loop stays in the loop. -/
def stays (label : Option String) : Exit → Bool
  | next => true
  | jump true l => l.isNone || l == label
  | _ => false

end Exit

/-- What is seen of a path at the statements without statements inside. -/
structure View (α : Type) where
  /-- What a statement shows. -/
  shows : Stmt → List α
  /-- Whether a path is over behind a statement. -/
  ends : Stmt → Bool

/-- Paths through a part of a function: what each of them shows, and how it leaves the part. -/
abbrev Runs (α : Type) :=
  List α → Exit → Prop

namespace Runs

variable {α : Type}

/-- The paths through a part that is done in one step. -/
def step (shown : List α) (exit : Exit) : Runs α := fun t x =>
  (t = [] ∧ x = .cut) ∨ (t = shown ∧ x = exit)

/-- The paths through a part where nothing happens. -/
def skip : Runs α :=
  step [] .next

/-- The paths through a part and then through another one. -/
def andThen (R S : Runs α) : Runs α := fun t x =>
  (R t x ∧ x ≠ .next) ∨ ∃ u v, R u .next ∧ S v x ∧ t = u ++ v

/-- The paths through either of two parts. -/
def either (R S : Runs α) : Runs α := fun t x =>
  R t x ∨ S t x

/-- The paths through one of some parts. -/
def oneOf (Rs : List (Runs α)) : Runs α := fun t x =>
  (t = [] ∧ x = .cut) ∨ ∃ R ∈ Rs, R t x

/-- The paths through the first of some clauses, and through those behind it as far as one falls
through into the next. -/
def falling : List (Runs α) → Runs α
  | [] => fun _ _ => False
  | R :: Rs => fun t x => (R t x ∧ x ≠ .fall) ∨ ∃ u v, R u .fall ∧ falling Rs v x ∧ t = u ++ v

/-- The paths that enter one of some clauses. -/
def entering : List (Runs α) → Runs α
  | [] => fun t x => t = [] ∧ x = .cut
  | R :: Rs => fun t x => falling (R :: Rs) t x ∨ entering Rs t x

/-- The paths through the clauses of a switch; `mayPass` tells that none has to be entered. -/
def clauses (mayPass : Bool) (Rs : List (Runs α)) : Runs α := fun t x =>
  entering Rs t x ∨ (mayPass = true ∧ t = [] ∧ x = .next)

/-- The paths through a switch or select whose inside is given. A `break` leaves it. -/
def breakable (label : Option String) (R : Runs α) : Runs α := fun t x =>
  (R t x ∧ x.leaves label = false) ∨ (x = .next ∧ ∃ y, R t y ∧ y.leaves label = true)

/-- The paths through a loop from the start of a round on; `mayStop` tells that it can be left
between rounds. -/
inductive Rounds (label : Option String) (mayStop : Bool) (body post : Runs α) : Runs α
  | cut : Rounds label mayStop body post [] .cut
  | stop (h : mayStop = true) : Rounds label mayStop body post [] .next
  | leave {t x} (hb : body t x) (hx : x.leaves label = true) :
      Rounds label mayStop body post t .next
  | pass {t x} (hb : body t x) (hl : x.leaves label = false) (hs : x.stays label = false) :
      Rounds label mayStop body post t x
  | halt {t x u y} (hb : body t x) (hs : x.stays label = true) (hp : post u y) (hy : y ≠ .next) :
      Rounds label mayStop body post (t ++ u) y
  | again {t x u v y} (hb : body t x) (hs : x.stays label = true) (hp : post u .next)
      (h : Rounds label mayStop body post v y) : Rounds label mayStop body post (t ++ u ++ v) y

end Runs

/-- The paths through a statement without statements inside. -/
def View.simple {α : Type} (V : View α) (s : Stmt) : Runs α :=
  .step (V.shows s) (if V.ends s then .finished else .next)

section

variable {α : Type} (V : View α)

mutual

/-- The paths through a statement with a label. A `goto` is not followed. -/
def Stmt.runs (label : Option String) : Stmt → Runs α
  | .decl d => V.simple (.decl d)
  | .labeled l s _ => s.runs (some l.name)
  | .expr x => V.simple (.expr x)
  | .send chan value span => V.simple (.send chan value span)
  | .incDec x inc span => V.simple (.incDec x inc span)
  | .assign lhs op rhs span => V.simple (.assign lhs op rhs span)
  | .go call span => V.simple (.go call span)
  | .defer call span => V.simple (.defer call span)
  | .returns results span => V.simple (.returns results span)
  | .branch .breakTo l _ => .step [] (.jump false (l.map Ident.name))
  | .branch .continueTo l _ => .step [] (.jump true (l.map Ident.name))
  | .branch .goto _ _ => .step [] .cut
  | .branch .fallthrough _ _ => .step [] .fall
  | .block b => b.runs
  | .ifElse init _ body els _ => (stmtRuns? init).andThen (body.runs.either (stmtRuns? els))
  | .switch init _ clauses _ =>
    (stmtRuns? init).andThen
      ((Runs.clauses (!clauses.any CaseClause.isDefault) (casesRuns clauses)).breakable label)
  | .typeSwitch init _ _ clauses _ =>
    (stmtRuns? init).andThen
      ((Runs.clauses (!clauses.any CaseClause.isDefault) (casesRuns clauses)).breakable label)
  | .select clauses _ => (Runs.oneOf (commsRuns clauses)).breakable label
  | .loop init cond post body _ =>
    (stmtRuns? init).andThen (Runs.Rounds label cond.isSome body.runs (stmtRuns? post))
  | .range _ _ _ _ body _ => Runs.Rounds label true body.runs .skip
  | .empty span => V.simple (.empty span)

/-- The paths through an optional statement. -/
def stmtRuns? : Option Stmt → Runs α
  | none => .skip
  | some s => s.runs none

/-- The paths through several statements. -/
def stmtsRuns : List Stmt → Runs α
  | [] => .skip
  | s :: ss => (s.runs none).andThen (stmtsRuns ss)

/-- The paths through a block. -/
def Block.runs : Block → Runs α
  | ⟨ss, _⟩ => stmtsRuns ss

/-- The paths through each clause of a switch. -/
def casesRuns : List CaseClause → List (Runs α)
  | [] => []
  | .case _ body _ :: cs => stmtsRuns body :: casesRuns cs
  | .default body _ :: cs => stmtsRuns body :: casesRuns cs

/-- The paths through each clause of a select: its communication, and then its statements. -/
def commsRuns : List CommClause → List (Runs α)
  | [] => []
  | ⟨comm, body, _⟩ :: cs => (stmtRuns? comm).andThen (stmtsRuns body) :: commsRuns cs

end

end

section

variable {α : Type} (V : View α)

theorem Block.runs_eq (b : Block) : b.runs V = stmtsRuns V b.stmts := by
  cases b
  rfl

/-! ### Paths that are not looked at -/

private theorem andThen_cut {R S : Runs α} (h : R [] .cut) : R.andThen S [] .cut :=
  Or.inl ⟨h, Exit.noConfusion⟩

private theorem breakable_cut {R : Runs α} {label : Option String} (h : R [] .cut) :
    R.breakable label [] .cut :=
  Or.inl ⟨h, rfl⟩

private theorem stmtRuns?_cut_of {s : Option Stmt} (ih : ∀ t ∈ s, ∀ label, t.runs V label [] .cut) :
    stmtRuns? V s [] .cut := by
  cases s with
  | none => exact Or.inl ⟨rfl, rfl⟩
  | some s => exact ih s rfl none

private theorem stmtsRuns_cut_of {ss : List Stmt} (ih : ∀ s ∈ ss, ∀ label, s.runs V label [] .cut) :
    stmtsRuns V ss [] .cut := by
  cases ss with
  | nil => exact Or.inl ⟨rfl, rfl⟩
  | cons s ss => exact andThen_cut (ih s List.mem_cons_self none)

theorem entering_cut (Rs : List (Runs α)) : Runs.entering Rs [] .cut := by
  induction Rs with
  | nil => exact ⟨rfl, rfl⟩
  | cons R Rs ih => exact Or.inr ih

/-- A path through a statement can be left out of sight at its start. -/
theorem Stmt.runs_cut (label : Option String) (s : Stmt) : s.runs V label [] .cut := by
  induction s using Stmt.partsInduction generalizing label with
  | decl | expr | send | incDec | assign | go | defer | returns | empty => exact Or.inl ⟨rfl, rfl⟩
  | labeled l s sp ih => exact ih (some l.name)
  | branch kind l sp => cases kind <;> exact Or.inl ⟨rfl, rfl⟩
  | block b ih =>
    rw [Stmt.runs, b.runs_eq V]
    exact stmtsRuns_cut_of V ih
  | ifElse init c b els sp hi hb he => exact andThen_cut (stmtRuns?_cut_of V hi)
  | switch init tag cs sp hi hc => exact andThen_cut (stmtRuns?_cut_of V hi)
  | typeSwitch init id x cs sp hi hc => exact andThen_cut (stmtRuns?_cut_of V hi)
  | select cs sp hc => exact breakable_cut (Or.inl ⟨rfl, rfl⟩)
  | loop init c post b sp hi hp hb => exact andThen_cut (stmtRuns?_cut_of V hi)
  | range k v d x b sp hb => exact .cut

theorem stmtRuns?_cut (s : Option Stmt) : stmtRuns? V s [] .cut :=
  stmtRuns?_cut_of V fun s _ label => s.runs_cut V label

theorem stmtsRuns_cut (ss : List Stmt) : stmtsRuns V ss [] .cut :=
  stmtsRuns_cut_of V fun s _ label => s.runs_cut V label

theorem breakable_clauses_cut (label : Option String) (mayPass : Bool) (Rs : List (Runs α)) :
    (Runs.clauses mayPass Rs).breakable label [] .cut :=
  breakable_cut (Or.inl (entering_cut Rs))

end

end ServiceSplit
