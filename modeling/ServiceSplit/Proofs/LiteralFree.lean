import ServiceSplit.Proofs.Induction
import ServiceSplit.Tree.Events

/-!
# Trees without function literals

A part of a tree has no function literals if none is opened on the way through it.
-/

namespace ServiceSplit

/-- Whether a function literal starts at an event. -/
def Event.opensLit : Event → Bool
  | .openLit _ _ => true
  | _ => false

/-- No function literal starts at one of some events. -/
def LiteralFree (events : List Event) : Prop :=
  ∀ e ∈ events, e.opensLit = false

instance (events : List Event) : Decidable (LiteralFree events) :=
  inferInstanceAs (Decidable (∀ e ∈ events, e.opensLit = false))

@[simp]
theorem literalFree_nil : LiteralFree [] :=
  List.forall_mem_nil _

@[simp]
theorem literalFree_cons (e : Event) (events : List Event) :
    LiteralFree (e :: events) ↔ e.opensLit = false ∧ LiteralFree events :=
  List.forall_mem_cons

@[simp]
theorem literalFree_append (events events' : List Event) :
    LiteralFree (events ++ events') ↔ LiteralFree events ∧ LiteralFree events' :=
  List.forall_mem_append

end ServiceSplit
