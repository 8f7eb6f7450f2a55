import ServiceSplit.Proofs.Tree.Parts

/-!
# Everything that stands in a tree

Types stand in expressions, statements and other types, and expressions stand in types again, as the
length of an array does. What stands in a declaration is what is reached from it by going from a
whole to its parts any number of times. A traversal that passes over nothing comes to exactly that.

## Main definitions

* `SyntaxNode`: a statement, an expression or a type.
* `SyntaxNode.nodes`, `Decl.nodes`: the nodes that stand directly in a node or in a declaration.
* `Decl.Contains`: a node stands in a declaration at some depth.

## Main results

* `Decl.contains_iff`: the nodes in a declaration are those that its events come to.
-/

namespace ServiceSplit

/-- A statement, an expression or a type. -/
inductive SyntaxNode where
  | part (p : Part)
  | type (t : TypeExpr)

/-! ### Direct parts -/

/-- The types of the parameters and results. -/
def Signature.types (sig : Signature) : List TypeExpr :=
  (sig.params ++ sig.results).map Field.ty

/-- The types in a line of an interface type. -/
def InterfaceElem.types : InterfaceElem → List TypeExpr
  | method _ sig => sig.types
  | embedded t => [t]

/-- The types and expressions that stand directly in a type. -/
def TypeExpr.nodes : TypeExpr → List SyntaxNode
  | .name _ _ args => args.map .type
  | .pointer e | .slice e | .chan _ e | .ellipsis e | .paren e => [.type e]
  | .array len e => .type e :: len.toList.map (.part <| .expr .use ·)
  | .map k v => [.type k, .type v]
  | .func sig => sig.types.map .type
  | .struct fields => fields.map (.type ·.ty)
  | .interface elems => (elems.flatMap InterfaceElem.types).map .type
  | .union terms => terms.map (.type ·.ty)

/-- The types that stand directly in a line of a declaration group. -/
def Spec.types : Spec → List TypeExpr
  | .value _ ty _ _ => ty.toList
  | .type _ params _ ty _ => params.map Field.ty ++ [ty]

/-- The types that stand directly in a statement or expression. -/
def Part.types : Part → List TypeExpr
  | .stmt (.decl d) => d.specs.flatMap Spec.types
  | .expr _ (.funcLit sig _ _) => sig.types
  | .expr _ (.typeAssert _ ty _) => ty.toList
  | .expr _ (.type ty _) => [ty]
  | _ => []

namespace SyntaxNode

/-- The nodes that stand directly in one. -/
def nodes : SyntaxNode → List SyntaxNode
  | part p => p.parts.map .part ++ p.types.map .type
  | type t => t.nodes

/-- The events of a node. -/
def events (T : Traversal) : SyntaxNode → List Event
  | part p => p.events T
  | type t => t.events T

/-- The events of a node that are not those of its parts. -/
def own : SyntaxNode → List Event
  | part (.stmt s) => [.enter s, .leave s]
  | part (.expr role x) => .expr role x ::
    match x with
    | .funcLit sig _ span => [.openLit sig span, .bodyLit sig, .closeLit]
    | _ => []
  | type t => [.type t]

/-- What holds of a node whenever it holds of its parts holds of every node. -/
theorem induction {P : SyntaxNode → Prop} (step : ∀ n : SyntaxNode, (∀ m ∈ n.nodes, P m) → P n)
    (n : SyntaxNode) :
    P n := by
  have steps : TreeSteps (fun t => P (.type t)) (fun x => ∀ role, P (.part (.expr role x)))
      (fun s => P (.part (.stmt s))) := by
    constructor
    case' toExprSteps => constructor
    all_goals intros; refine step _ fun m hm => ?_
    case interface elems ihm ihe =>
      simp only [nodes, TypeExpr.nodes, List.mem_map, List.mem_flatMap] at hm
      obtain ⟨t, ⟨e, he, ht⟩, rfl⟩ := hm
      cases e with
      | method id sig =>
        obtain ⟨f, hf, rfl⟩ := List.mem_map.mp ht
        exact (List.mem_append.mp hf).elim ((ihm id sig he).1 f) ((ihm id sig he).2 f)
      | embedded u => exact List.mem_singleton.mp ht ▸ ihe u he
    case composite ty elts span ihty ihelts ihpairs role =>
      simp only [nodes, Part.parts, Part.types, Expr.parts, List.map_nil, List.append_nil,
        List.mem_map, List.mem_append, List.mem_flatMap] at hm
      obtain ⟨p, ⟨x, hx, rfl⟩ | ⟨x, hx, hp⟩, rfl⟩ := hm
      · exact ihty x (Option.mem_toList.mp hx) .use
      · unfold Expr.eltParts at hp
        grind
    case decl d ihv iht =>
      simp only [nodes, Part.parts, Part.types, Stmt.parts, List.mem_map, List.mem_append,
        List.mem_flatMap] at hm
      obtain ⟨p, ⟨spec, hspec, hp⟩, rfl⟩ | ⟨t, ⟨spec, hspec, ht⟩, rfl⟩ := hm
      · cases spec with
        | value names ty values span =>
          obtain ⟨x, hx, rfl⟩ := List.mem_map.mp hp
          exact (ihv names ty values span hspec).2 x hx .use
        | type => cases hp
      · cases spec with
        | value names ty values span =>
          exact (ihv names ty values span hspec).1 t (Option.mem_toList.mp ht)
        | type id params isAlias u span =>
          obtain ⟨hparams, hu⟩ := iht id params isAlias u span hspec
          simp only [Spec.types, List.mem_append, List.mem_map, List.mem_singleton] at ht
          grind
    all_goals
      clear step
      simp only [nodes, TypeExpr.nodes, Part.parts, Part.types, Expr.parts, Stmt.parts,
        Signature.types, CaseClause.parts, CommClause.parts, List.mem_append, List.mem_cons,
        List.mem_map, List.mem_flatMap] at hm
      grind
  cases n with
  | part p =>
    cases p with
    | stmt s => exact steps.stmt s
    | expr role x => exact steps.expr x role
  | type t => exact steps.typeExpr t

@[simp] theorem events_stmt (T : Traversal) (s : Stmt) : events T (part (.stmt s)) = s.events T :=
  rfl

@[simp] theorem events_expr (T : Traversal) (role : Role) (x : Expr) :
    events T (part (.expr role x)) = x.events T role :=
  rfl

@[simp] theorem events_type (T : Traversal) (t : TypeExpr) : events T (type t) = t.events T :=
  rfl

theorem specEvents_eq (s : Spec) : s.events {} = s.types.flatMap (TypeExpr.events {}) ++
    s.parts.flatMap fun p => events {} (part p) := by
  cases s <;> simp [Spec.events, Spec.parts, Spec.types, typeEvents?_eq, exprsEvents_eq,
    fieldsEvents_eq, List.flatMap_map]

/-- The events of a node are its own and those of its parts. -/
theorem mem_events {n : SyntaxNode} {e : Event} :
    e ∈ n.events {} ↔ e ∈ n.own ∨ e ∈ n.nodes.flatMap (events {}) := by
  cases n with
  | type t =>
    have helem (elem : InterfaceElem) :
        elem.events {} = elem.types.flatMap (TypeExpr.events {}) := by
      cases elem <;> simp [InterfaceElem.events, InterfaceElem.types, Signature.events_eq,
        Signature.types, List.flatMap_map]
    cases t <;> simp [nodes, own, TypeExpr.events, TypeExpr.nodes, typesEvents_eq,
      exprEvents?_eq, Signature.events_eq, fieldsEvents_eq, elemsEvents_eq, termsEvents_eq,
      Signature.types, List.flatMap_map, helem, List.flatMap_assoc]
    all_goals grind
  | part p =>
    have helt (keyed : Bool) (x : Expr) :
        x.eltEvents {} keyed = (x.eltParts keyed).flatMap fun p => events {} (part p) := by
      cases x <;> simp [Expr.eltEvents, Expr.eltParts]
    cases p with
    | stmt s =>
      cases s <;> simp [nodes, own, Part.parts, Part.types, Stmt.events, Stmt.parts, exprsEvents_eq,
        exprEvents?_eq, rangeEvents?_eq, stmtEvents?_eq, Block.events_eq, casesEvents_eq,
        commsEvents_eq, GenDecl.events_eq, CaseClause.parts, CommClause.parts, List.flatMap_map,
        List.flatMap_assoc, specEvents_eq]
      all_goals grind
    | expr role x =>
      cases x <;> simp [nodes, own, Part.parts, Part.types, Expr.events, Expr.parts, exprsEvents_eq,
        exprEvents?_eq, typeEvents?_eq, eltsEvents_eq, Block.events_eq, Signature.events_eq,
        Signature.types, List.flatMap_map, List.flatMap_assoc, helt]
      all_goals grind

/-- The first one is the second one, or the second one stands in it at some depth. -/
def Contains : SyntaxNode → SyntaxNode → Prop :=
  Relation.ReflTransGen fun a b => b ∈ a.nodes

end SyntaxNode

/-- The node that an event comes to. -/
def Event.node? : Event → Option SyntaxNode
  | .enter s => some (.part (.stmt s))
  | .expr role x => some (.part (.expr role x))
  | .type t => some (.type t)
  | _ => none

/-- The nodes in a node are those that its events come to. -/
theorem SyntaxNode.contains_iff {n m : SyntaxNode} : n.Contains m ↔ ∃ e ∈ n.events {},
    e.node? = some m := by
  constructor
  · intro h
    have hown : ∃ e ∈ m.own, e.node? = some m := by
      cases m with
      | part p => cases p <;> exact ⟨_, List.mem_cons_self, rfl⟩
      | type t => exact ⟨_, List.mem_cons_self, rfl⟩
    obtain ⟨e, he, hnode⟩ := hown
    refine ⟨e, ?_, hnode⟩
    induction h using Relation.ReflTransGen.head_induction_on with
    | refl => exact mem_events.mpr (.inl he)
    | head hpart _ ih => exact mem_events.mpr (.inr (List.mem_flatMap.mpr ⟨_, hpart, ih⟩))
  · induction n using SyntaxNode.induction with
    | step n ih =>
      rintro ⟨e, he, hnode⟩
      rcases mem_events.mp he with he | he
      · have hself : n = m := by
          cases n with
          | type t =>
            cases List.mem_singleton.mp he
            exact Option.some.inj hnode
          | part p =>
            cases p with
            | stmt s =>
              unfold own at he
              grind [Event.node?]
            | expr role x =>
              unfold own at he
              grind [Event.node?]
        exact hself ▸ .refl
      · obtain ⟨k, hk, he⟩ := List.mem_flatMap.mp he
        exact .head hk (ih k hk ⟨e, he, hnode⟩)

/-! ### Declarations -/

namespace Decl

/-- The nodes that stand directly in a declaration. -/
def nodes : Decl → List SyntaxNode
  | .func f => ((f.recv.toList ++ f.typeParams).map Field.ty ++ f.sig.types).map .type ++
      (f.body.toList.flatMap Block.stmts).map (.part <| .stmt ·)
  | .gen g => (g.specs.flatMap Spec.types).map .type ++ (g.specs.flatMap Spec.parts).map .part

/-- A node stands in a declaration at some depth. -/
def Contains (d : Decl) (m : SyntaxNode) : Prop :=
  ∃ n ∈ d.nodes, n.Contains m

theorem mem_events {d : Decl} {e : Event} :
    e ∈ d.events {} ↔ e ∈ d.nodes.flatMap (SyntaxNode.events {}) := by
  cases d with
  | func f =>
    cases hbody : f.body <;> simp [Decl.events, nodes, hbody, Signature.events_eq, Signature.types,
      fieldsEvents_eq, Block.events_eq, List.flatMap_map]
  | gen g =>
    simp [Decl.events, nodes, GenDecl.events_eq, List.flatMap_map, List.flatMap_assoc,
      SyntaxNode.specEvents_eq]
    grind

/-- The nodes in a declaration are those that its events come to. -/
theorem contains_iff {d : Decl} {m : SyntaxNode} : d.Contains m ↔ ∃ e ∈ d.events {},
    e.node? = some m := by
  simp only [Contains, SyntaxNode.contains_iff, mem_events, List.mem_flatMap]
  exact ⟨fun ⟨n, hn, e, he, hm⟩ => ⟨e, ⟨n, hn, he⟩, hm⟩,
    fun ⟨e, ⟨n, hn, he⟩, hm⟩ => ⟨n, hn, e, he, hm⟩⟩

/-- What is collected at nodes with a property is found at those that stand in the declarations. -/
theorem mem_filterMap_events {α : Type} {decls : List Decl} {f : Event → Option α} {a : α}
    {P : SyntaxNode → Prop} (h : ∀ e, f e = some a ↔ ∃ n, e.node? = some n ∧ P n) :
    a ∈ (decls.flatMap (Decl.events {})).filterMap f ↔ ∃ d ∈ decls, ∃ n, d.Contains n ∧ P n := by
  simp only [List.mem_filterMap, List.mem_flatMap, h, contains_iff]
  constructor
  · rintro ⟨e, ⟨d, hd, he⟩, n, hn, hP⟩
    exact ⟨d, hd, n, ⟨e, he, hn⟩, hP⟩
  · rintro ⟨d, hd, n, ⟨e, he, hn⟩, hP⟩
    exact ⟨e, ⟨d, hd, he⟩, n, hn, hP⟩

end Decl

end ServiceSplit
