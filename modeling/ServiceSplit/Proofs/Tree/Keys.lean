import ServiceSplit.Parser.Statements
import ServiceSplit.Proofs.Tree.Traversal

/-!
# Where statements start

Some statements are told apart by where they stand: `go` statements, assignments and declarations.
The first bytes of those in a tree, at any depth, in the order of the text, are their keys.
-/

namespace ServiceSplit

/-- The first byte of the statement that is entered, if it is told apart by it. -/
def Event.keyStart? : Event → Option Nat
  | .enter (.go _ span) | .enter (.assign _ _ _ span) => some span.start
  | .enter (.decl d) => some d.span.start
  | _ => none

/-- The first bytes of the statements that are entered. -/
def keyStarts (es : List Event) : List Nat :=
  es.filterMap Event.keyStart?

/-- The values in which such statements may stand. -/
class HasKeys (α : Type) where
  /-- The first bytes of the statements in a value. -/
  keys : α → List Nat
  /-- Whether all of them start behind the first token of the value. -/
  lag : Bool := true

export HasKeys (keys lag)

/-! ### Values -/

/-- In other values there are none. -/
instance (priority := low) HasKeys.none (α : Type) : HasKeys α where
  keys _ := []

instance HasKeys.list {α : Type} [HasKeys α] : HasKeys (List α) where
  keys as := as.flatMap keys
  lag := lag α

instance HasKeys.option {α : Type} [HasKeys α] : HasKeys (Option α) where
  keys o := o.toList.flatMap keys
  lag := lag α

instance HasKeys.pair {α β : Type} [HasKeys α] [HasKeys β] : HasKeys (α × β) where
  keys p := keys p.1 ++ keys p.2
  lag := lag α && lag β

instance : HasKeys TypeExpr where
  keys t := keyStarts (t.events {})

instance : HasKeys Expr where
  keys x := keyStarts (x.events {} .use)

instance : HasKeys Stmt where
  keys s := keyStarts (s.events {})
  lag := false

instance : HasKeys Decl where
  keys d := keyStarts (d.events {})
  lag := false

instance : HasKeys Field where
  keys f := keys f.ty

instance : HasKeys UnionTerm where
  keys t := keys t.ty

instance : HasKeys Signature where
  keys sig := keys sig.params ++ keys sig.results

instance : HasKeys InterfaceElem where
  keys
    | .method _ sig => keys sig
    | .embedded t => keys t

instance : HasKeys ParamEntry where
  keys
    | .bare _ => []
    | .named _ t | .typed t _ => keys t

instance : HasKeys Block where
  keys b := keys b.stmts

instance : HasKeys Spec where
  keys
    | .value _ ty values _ => keys ty ++ keys values
    | .type _ params _ ty _ => keys params ++ keys ty

/-- A declaration group that is read may be a statement. -/
instance : HasKeys GenDecl where
  keys d := d.span.start :: keys d.specs
  lag := false

instance : HasKeys CaseClause where
  keys c := keys c.exprs ++ keys c.body

instance : HasKeys CommClause where
  keys c := keys c.comm ++ keys c.body

instance : HasKeys ForHeader where
  keys
    | .loop init cond post => keys init ++ keys cond ++ keys post
    | .range key value _ x => keys key ++ keys value ++ keys x
  lag := false

instance : HasKeys FuncDecl where
  keys f := keys (Decl.func f)

section Forms

variable {α β : Type}

@[simp] theorem keys_other (a : α) : @keys α (HasKeys.none α) a = [] :=
  rfl

@[simp] theorem keys_others (as : List α) : @keys _ (@HasKeys.list α (HasKeys.none α)) as = [] :=
  List.flatMap_eq_nil_iff.mpr fun _ _ => rfl

@[simp] theorem keys_other? (o : Option α) : @keys _ (@HasKeys.option α (HasKeys.none α)) o = [] :=
  keys_others o.toList

variable [HasKeys α] [HasKeys β]

@[simp] theorem keys_list : keys ([] : List α) = [] ∧
    (∀ (a : α) as, keys (a :: as) = keys a ++ keys as) ∧
    ∀ as bs : List α, keys (as ++ bs) = keys as ++ keys bs :=
  ⟨rfl, fun _ _ => List.flatMap_cons, fun _ _ => List.flatMap_append⟩

@[simp] theorem keys_option : keys (none : Option α) = [] ∧ ∀ a : α, keys (some a) = keys a :=
  ⟨rfl, fun _ => List.flatMap_singleton _ _⟩

@[simp] theorem keys_pair (p : α × β) : keys p = keys p.1 ++ keys p.2 :=
  rfl

omit [HasKeys β] in
@[simp] theorem keys_map_fst (ps : List (α × β)) :
    keys (ps.map Prod.fst) = @keys _ (@HasKeys.list _ (@HasKeys.pair α β _ (HasKeys.none β)))
    ps := by
  induction ps with
  | nil => rfl
  | cons p ps ih => simp [ih]

end Forms

/-! ### Trees -/

section Events

variable {α : Type}

@[simp] theorem keyStarts_nil : keyStarts [] = [] :=
  rfl

@[simp] theorem keyStarts_append (es fs : List Event) :
    keyStarts (es ++ fs) = keyStarts es ++ keyStarts fs :=
  List.filterMap_append

@[simp] theorem keyStarts_cons (e : Event) (es : List Event) :
    keyStarts (e :: es) = e.keyStart?.toList ++ keyStarts es := by
  unfold keyStarts
  rw [List.filterMap_cons]
  cases e.keyStart? <;> rfl

@[simp] theorem keyStarts_flatMap (as : List α) (f : α → List Event) :
    keyStarts (as.flatMap f) = as.flatMap fun a => keyStarts (f a) :=
  List.filterMap_flatMap

@[simp] theorem TypeExpr.keyStarts_events (t : TypeExpr) : keyStarts (t.events {}) = keys t :=
  rfl

/-- How an expression is used does not matter. -/
@[simp] theorem Expr.keyStarts_events (x : Expr) (role : Role) :
    keyStarts (x.events {} role) = keys x := by
  cases x <;> rfl

@[simp] theorem Stmt.keyStarts_events (s : Stmt) : keyStarts (s.events {}) = keys s :=
  rfl

@[simp] theorem flatMap_keys [HasKeys α] (as : List α) : as.flatMap keys = keys as :=
  rfl

@[simp] theorem toList_keys [HasKeys α] (o : Option α) : keys o.toList = keys o :=
  rfl

end Events

@[simp] theorem Signature.keyStarts_events (sig : Signature) :
    keyStarts (sig.events {}) = keys sig := by
  rw [Signature.events_eq, List.flatMap_append]
  simp only [keyStarts_append, keyStarts_flatMap]
  rfl

@[simp] theorem InterfaceElem.keyStarts_events (e : InterfaceElem) :
    keyStarts (e.events {}) = keys e := by
  cases e
  · exact Signature.keyStarts_events _
  · rfl

@[simp] theorem Block.keyStarts_events (b : Block) : keyStarts (b.events {}) = keys b := by
  rw [Block.events_eq, keyStarts_flatMap]
  rfl

@[simp] theorem Spec.keyStarts_events (s : Spec) : keyStarts (s.events {}) = keys s := by
  cases s <;> simp [Spec.events, typeEvents?_eq, exprsEvents_eq, fieldsEvents_eq] <;> rfl

@[simp] theorem GenDecl.keyStarts_events (d : GenDecl) :
    keyStarts (d.events {}) = keys d.specs := by
  rw [GenDecl.events_eq, keyStarts_flatMap, funext Spec.keyStarts_events]
  rfl

@[simp] theorem Expr.keyStarts_eltEvents (x : Expr) (keyed : Bool) :
    keyStarts (x.eltEvents {} keyed) = keys x := by
  cases x with
  | keyValue key value span =>
    rw [← Expr.keyStarts_events _ .use, Expr.events]
    simp [Expr.eltEvents, Event.keyStart?]
  | _ => simp [Expr.eltEvents]

@[simp] theorem keyStarts_casesEvents (cs : List CaseClause) :
    keyStarts (casesEvents {} cs) = keys cs := by
  rw [casesEvents_eq, keyStarts_flatMap]
  simp only [keyStarts_append, keyStarts_flatMap, Expr.keyStarts_events]
  rfl

@[simp] theorem keyStarts_commsEvents (cs : List CommClause) :
    keyStarts (commsEvents {} cs) = keys cs := by
  rw [commsEvents_eq, keyStarts_flatMap]
  simp only [keyStarts_append, keyStarts_flatMap]
  rfl

/-- A type has the keys of its parts. -/
@[simp] theorem TypeExpr.keys_forms :
    (∀ pkg n args, keys (name pkg n args) = keys args) ∧ (∀ t, keys (pointer t) = keys t) ∧
    (∀ t, keys (slice t) = keys t) ∧ (∀ len t, keys (array len t) = keys len ++ keys t) ∧
    (∀ k v, keys (map k v) = keys k ++ keys v) ∧ (∀ dir t, keys (chan dir t) = keys t) ∧
    (∀ sig, keys (func sig) = keys sig) ∧ (∀ fs, keys (struct fs) = keys fs) ∧
    (∀ es, keys (interface es) = keys es) ∧ (∀ t, keys (ellipsis t) = keys t) ∧
    (∀ ts, keys (union ts) = keys ts) ∧ ∀ t, keys (paren t) = keys t := by
  refine ⟨?_, ?_, ?_, ?_, ?_, ?_, ?_, ?_, ?_, ?_, ?_, ?_⟩ <;> intros <;>
    rw [← TypeExpr.keyStarts_events, events] <;>
    simp [Event.keyStart?, typesEvents_eq, exprEvents?_eq, fieldsEvents_eq, elemsEvents_eq,
      termsEvents_eq] <;>
    rfl

/-- An expression has the keys of its parts. -/
@[simp] theorem Expr.keys_forms :
    (∀ id, keys (ident id) = []) ∧ (∀ kind raw sp, keys (lit kind raw sp) = []) ∧
    (∀ ty elts sp, keys (composite ty elts sp) = keys ty ++ keys elts) ∧
    (∀ sig body sp, keys (funcLit sig body sp) = keys sig ++ keys body) ∧
    (∀ x sp, keys (paren x sp) = keys x) ∧ (∀ x sel sp, keys (selector x sel sp) = keys x) ∧
    (∀ x is sp, keys (index x is sp) = keys x ++ keys is) ∧
    (∀ x low high max three sp, keys (slice x low high max three sp) =
      keys x ++ keys low ++ keys high ++ keys max) ∧
    (∀ x ty sp, keys (typeAssert x ty sp) = keys x ++ keys ty) ∧
    (∀ fn args spread sp, keys (call fn args spread sp) = keys fn ++ keys args) ∧
    (∀ x sp, keys (star x sp) = keys x) ∧ (∀ op x sp, keys (unary op x sp) = keys x) ∧
    (∀ op x y sp, keys (binary op x y sp) = keys x ++ keys y) ∧
    (∀ k v sp, keys (keyValue k v sp) = keys k ++ keys v) ∧ ∀ t sp, keys (type t sp) = keys t := by
  refine ⟨?_, ?_, ?_, ?_, ?_, ?_, ?_, ?_, ?_, ?_, ?_, ?_, ?_, ?_, ?_⟩ <;> intros <;>
    rw [← Expr.keyStarts_events _ .use, events] <;>
    simp [Event.keyStart?, exprsEvents_eq, exprEvents?_eq, eltsEvents_eq, typeEvents?_eq]

/-- A statement has the keys of its parts, and perhaps one of its own. -/
@[simp] theorem Stmt.keys_forms :
    (∀ d, keys (decl d) = keys d) ∧ (∀ l s sp, keys (labeled l s sp) = keys s) ∧
    (∀ x, keys (Stmt.expr x) = keys x) ∧ (∀ c v sp, keys (send c v sp) = keys c ++ keys v) ∧
    (∀ x inc sp, keys (incDec x inc sp) = keys x) ∧
    (∀ lhs op rhs sp, keys (assign lhs op rhs sp) = sp.start :: (keys lhs ++ keys rhs)) ∧
    (∀ c sp, keys (go c sp) = sp.start :: keys c) ∧ (∀ c sp, keys (defer c sp) = keys c) ∧
    (∀ xs sp, keys (returns xs sp) = keys xs) ∧ (∀ kind l sp, keys (branch kind l sp) = []) ∧
    (∀ b, keys (block b) = keys b) ∧
    (∀ init c b els sp, keys (ifElse init c b els sp) = keys init ++ keys c ++ keys b ++ keys els) ∧
    (∀ init tag cs sp, keys (switch init tag cs sp) = keys init ++ keys tag ++ keys cs) ∧
    (∀ init id x cs sp, keys (typeSwitch init id x cs sp) = keys init ++ keys x ++ keys cs) ∧
    (∀ cs sp, keys (select cs sp) = keys cs) ∧
    (∀ init c post b sp, keys (loop init c post b sp) = keys init ++ keys c ++ keys post ++
    keys b) ∧
    (∀ k v d x b sp, keys (range k v d x b sp) = keys k ++ keys v ++ keys x ++ keys b) ∧
    ∀ sp, keys (empty sp) = [] := by
  refine ⟨?_, ?_, ?_, ?_, ?_, ?_, ?_, ?_, ?_, ?_, ?_, ?_, ?_, ?_, ?_, ?_, ?_, ?_⟩ <;> intros <;>
    rw [← Stmt.keyStarts_events, events] <;>
    simp [Event.keyStart?, exprsEvents_eq, exprEvents?_eq, rangeEvents?_eq, stmtEvents?_eq]
  rfl

/-- The parts of types, expressions and statements have the keys of their parts. -/
@[simp] theorem keys_parts :
    (∀ ids ty tag sp, keys (Field.mk ids ty tag sp) = keys ty) ∧
    (∀ ty, keys (Field.unnamed ty) = keys ty) ∧
    (∀ n, keys (TypeExpr.named n) = []) ∧ (∀ tilde ty, keys (UnionTerm.mk tilde ty) = keys ty) ∧
    (∀ params results, keys (Signature.mk params results) = keys params ++ keys results) ∧
    (∀ id sig, keys (InterfaceElem.method id sig) = keys sig) ∧
    (∀ ty, keys (InterfaceElem.embedded ty) = keys ty) ∧ (∀ id, keys (ParamEntry.bare id) = []) ∧
    (∀ id ty, keys (ParamEntry.named id ty) = keys ty) ∧
    (∀ ty sp, keys (ParamEntry.typed ty sp) = keys ty) ∧
    (∀ ss sp, keys (Block.mk ss sp) = keys ss) ∧
    (∀ ids ty xs sp, keys (Spec.value ids ty xs sp) = keys ty ++ keys xs) ∧
    (∀ id params a ty sp, keys (Spec.type id params a ty sp) = keys params ++ keys ty) ∧
    (∀ list body sp, keys (CaseClause.case list body sp) = keys list ++ keys body) ∧
    (∀ body sp, keys (CaseClause.default body sp) = keys body) ∧
    (∀ comm body sp, keys (CommClause.mk comm body sp) = keys comm ++ keys body) ∧
    (∀ init c post, keys (ForHeader.loop init c post) = keys init ++ keys c ++ keys post) ∧
    ∀ k v d x, keys (ForHeader.range k v d x) = keys k ++ keys v ++ keys x :=
  ⟨fun _ _ _ _ => rfl, fun _ => rfl, fun _ => rfl, fun _ _ => rfl, fun _ _ => rfl, fun _ _ => rfl,
    fun _ => rfl,
    fun _ => rfl, fun _ _ => rfl, fun _ _ => rfl, fun _ _ => rfl, fun _ _ _ _ => rfl,
    fun _ _ _ _ _ => rfl, fun _ _ _ => rfl, fun _ _ => rfl, fun _ _ _ => rfl, fun _ _ _ => rfl,
    fun _ _ _ _ => rfl⟩

/-- A declaration has the keys of its parts. -/
@[simp] theorem Decl.keys_forms :
    (∀ d, keys (gen d) = keys d.specs) ∧ (∀ d : GenDecl, keys d = d.span.start :: keys d.specs) ∧
    (∀ f, keys (func f) = keys f) ∧
    ∀ f : FuncDecl, keys f = keys f.recv ++ keys f.typeParams ++ keys f.sig ++ keys f.body := by
  refine ⟨GenDecl.keyStarts_events, fun _ => rfl, fun _ => rfl, fun f => ?_⟩
  change keyStarts (Decl.events {} (func f)) = _
  cases h : f.body <;> simp [Decl.events, fieldsEvents_eq, h] <;> rfl

end ServiceSplit
