import ServiceSplit.Launch
import ServiceSplit.Text.Quoted
import ServiceSplit.Tree.Edit

/-!
# Routing slots

In the controller, the channels of launches are slots of a routing table. The declaration of such a
channel goes, and every use that resolves to it becomes the slot. Names are resolved with the scopes
of the language: a declaration is visible after its statement, up to the end of its scope.
-/

namespace ServiceSplit

/-- The name of the routing table. -/
def routesName : String :=
  "kompileRoutes"

/-- A place in the routing table. -/
structure Slot where
  /-- The key. -/
  endpoint : String
  /-- The type of the values. -/
  elem : TypeExpr

/-- The expression that refers to a slot. -/
def Slot.expr (slot : Slot) (span : Span) : Expr :=
  .typeAssert
    (.index (.ident ⟨routesName, span⟩)
      [.lit .string (Text.quote slot.endpoint) .synthetic] span)
    (some (.chan .both slot.elem)) span

/-- The slot of a channel argument. -/
def ChannelArg.slot (c : ChannelArg) : Slot :=
  ⟨c.endpoint, c.elem⟩

/-- What the names at a place stand for, scope by scope from inside out: a slot, or something else
that hides one. -/
abbrev Bindings := List (List (String × Option Slot))

namespace Bindings

/-- The slot that a name stands for. -/
def resolve (b : Bindings) (name : String) : Option Slot :=
  (b.findSome? (·.lookup name)).join

/-- Binds a name in the innermost scope. -/
def bind (b : Bindings) (name : String) (slot : Option Slot) : Bindings :=
  match b with
  | [] => []
  | frame :: outer => ((name, slot) :: frame) :: outer

/-- Binds names that stand for no slot. -/
def hide (b : Bindings) (names : List String) : Bindings :=
  names.foldl (·.bind · none) b

/-- Binds names to their slots. -/
def route (b : Bindings) (slots : List (String × Slot)) : Bindings :=
  slots.foldl (fun b (name, slot) => b.bind name (some slot)) b

/-- Opens a scope in which some names stand for no slot. -/
def enter (b : Bindings) (names : List String) : Bindings :=
  hide ([] :: b) names

/-- Closes the innermost scope. -/
def leave (b : Bindings) : Bindings :=
  b.tail

end Bindings

/-- The channels whose declaration a statement is. -/
def declaredChannels (channels : List ChannelArg) (s : Stmt) : List (String × Slot) :=
  (channels.filter fun c => c.decl == s.span && s.isChannelDecl c.arg).map fun c => (c.arg, c.slot)

/-- The channels that a statement allocates again. -/
def reallocatedChannels (b : Bindings) : Stmt → List (String × Slot)
  | .assign lhs .assign rhs _ =>
    if lhs.length = rhs.length then
      (lhs.zip rhs).filterMap fun (target, value) =>
        if value.isMakeChan then do
          let name ← target.asName
          return (name, ← b.resolve name)
        else none
    else []
  | _ => []

/-- The channels whose allocation a statement is; it is not needed any more. -/
def removedChannels (channels : List ChannelArg) (b : Bindings) (s : Stmt) :
    List (String × Slot) :=
  declaredChannels channels s ++ reallocatedChannels b s

/-- The elements whose mark is set. -/
def keepMarked {α : Type} (keep : List Bool) (xs : List α) : List α :=
  ((keep.zip xs).filter Prod.fst).map Prod.snd

/-- Which pairs of an assignment stay without the channels `gone`. -/
def keptPairs (gone : List String) (lhs rhs : List Expr) : List Bool :=
  (lhs.zip rhs).map fun (target, value) =>
    !(target.asName.any gone.contains && value.isMakeChan)

/-- What is left of `edited`, which `spec` became, without the channels `gone`. -/
def Spec.without (gone : List String) (spec edited : Spec) : Option Spec :=
  match edited with
  | .value names ty values span =>
    let keep := names.map fun id => !(gone.contains id.name && spec.declaresChannel id.name)
    let values := if values.length = names.length then keepMarked keep values else values
    match keepMarked keep names with
    | [] => none
    | names => some (.value names ty values span)
  | .type .. => some edited

/-- What is left of `edited`, which the statement `s` became, without the allocations of the
channels `gone`. -/
def Stmt.without (gone : List String) (s edited : Stmt) : Option Stmt :=
  match s, edited with
  | .assign lhs _ rhs _, .assign lhs' op rhs' span =>
    if (op = .define ∨ op = .assign) ∧ lhs.length = rhs.length then
      let keep := keptPairs gone lhs rhs
      match keepMarked keep lhs' with
      | [] => none
      | left => some (.assign left op (keepMarked keep rhs') span)
    else some edited
  | .decl d, .decl d' =>
    if d.kind = .var then
      match (d.specs.zip d'.specs).filterMap fun (spec, spec') => spec.without gone spec' with
      | [] => none
      | specs => some (.decl { d' with specs })
    else some edited
  | _, _ => some edited

/-- The statement that `edited` becomes without the channels `gone`. -/
def Stmt.removing (gone : List (String × Slot)) (s edited : Stmt) : List Stmt :=
  if gone.isEmpty then [edited] else (s.without (gone.map Prod.fst) edited).toList

/-- Puts slots in place of channels. -/
def slotEditor (channels : List ChannelArg) : Editor (StateM Bindings) where
  onStmt s inside := do
    let gone := removedChannels channels (← get) s
    if s.opensScope then modify (·.enter s.implicitNames)
    let edited ← inside
    if s.opensScope then modify Bindings.leave
    modify fun b => (b.hide s.declaredNames).route gone
    return s.removing gone edited
  onExpr role e inside :=
    match role, e with
    | .defined, _ => pure e
    | _, .ident id => do
      return ((← get).resolve id.name).elim e (·.expr id.span)
    | _, _ => inside
  onLit sig _ inside := do
    modify (·.enter (Field.allNames sig.fields))
    let body ← inside
    modify Bindings.leave
    return body

/-- A body with slots in place of the channels. -/
def reroute (channels : List ChannelArg) (body : Block) : Block :=
  if channels.isEmpty then body
  else ((slotEditor channels).block body |>.run [[]]).1

end ServiceSplit
