import ServiceSplit.Tree.Query

/-!
# Induction on syntax trees

Types, expressions and statements contain one another through lists, options and records. This file
states once how a property passes from the parts of a tree to the tree, so that the proofs about
walks over trees have one case for each form and no case for lists and options.
-/

namespace ServiceSplit

/-- The cases of a clause; the default clause has none. -/
def CaseClause.exprs : CaseClause → List Expr
  | case list _ _ => list
  | default _ _ => []

/-- The property `PT` of types and `PE` of expressions hold of one whenever they hold of the parts
that stand directly in it, and `PS` holds of statements. The key and the value of an element of a
composite literal count as parts of the literal as well. -/
structure ExprSteps (PT : TypeExpr → Prop) (PE : Expr → Prop) (PS : Stmt → Prop) : Prop where
  name : ∀ pkg n args, (∀ t ∈ args, PT t) → PT (.name pkg n args)
  pointer : ∀ t, PT t → PT (.pointer t)
  sliceType : ∀ t, PT t → PT (.slice t)
  array : ∀ len t, (∀ x ∈ len, PE x) → PT t → PT (.array len t)
  map : ∀ k v, PT k → PT v → PT (.map k v)
  chan : ∀ dir t, PT t → PT (.chan dir t)
  func : ∀ sig, (∀ f ∈ sig.params, PT f.ty) → (∀ f ∈ sig.results, PT f.ty) → PT (.func sig)
  struct : ∀ fs, (∀ f ∈ fs, PT f.ty) → PT (.struct fs)
  interface : ∀ es,
    (∀ id sig, .method id sig ∈ es →
      (∀ f ∈ sig.params, PT f.ty) ∧ ∀ f ∈ sig.results, PT f.ty) →
    (∀ t, .embedded t ∈ es → PT t) → PT (.interface es)
  ellipsis : ∀ t, PT t → PT (.ellipsis t)
  union : ∀ ts, (∀ u ∈ ts, PT u.ty) → PT (.union ts)
  parenType : ∀ t, PT t → PT (.paren t)
  ident : ∀ id, PE (.ident id)
  lit : ∀ kind raw sp, PE (.lit kind raw sp)
  composite : ∀ ty elts sp, (∀ x ∈ ty, PE x) → (∀ x ∈ elts, PE x) →
    (∀ k v sp, .keyValue k v sp ∈ elts → PE k ∧ PE v) → PE (.composite ty elts sp)
  funcLit : ∀ sig body sp, (∀ f ∈ sig.params, PT f.ty) → (∀ f ∈ sig.results, PT f.ty) →
    (∀ s ∈ body.stmts, PS s) → PE (.funcLit sig body sp)
  paren : ∀ x sp, PE x → PE (.paren x sp)
  selector : ∀ x sel sp, PE x → PE (.selector x sel sp)
  index : ∀ x indices sp, PE x → (∀ i ∈ indices, PE i) → PE (.index x indices sp)
  slice : ∀ x low high max three sp, PE x → (∀ y ∈ low, PE y) → (∀ y ∈ high, PE y) →
    (∀ y ∈ max, PE y) → PE (.slice x low high max three sp)
  typeAssert : ∀ x ty sp, PE x → (∀ t ∈ ty, PT t) → PE (.typeAssert x ty sp)
  call : ∀ fn args spread sp, PE fn → (∀ x ∈ args, PE x) → PE (.call fn args spread sp)
  star : ∀ x sp, PE x → PE (.star x sp)
  unary : ∀ op x sp, PE x → PE (.unary op x sp)
  binary : ∀ op x y sp, PE x → PE y → PE (.binary op x y sp)
  keyValue : ∀ k v sp, PE k → PE v → PE (.keyValue k v sp)
  type : ∀ t sp, PT t → PE (.type t sp)

/-- The property `PT` of types, `PE` of expressions and `PS` of statements hold of a tree whenever
they hold of the parts that stand directly in it. -/
structure TreeSteps (PT : TypeExpr → Prop) (PE : Expr → Prop) (PS : Stmt → Prop) : Prop
    extends ExprSteps PT PE PS where
  decl : ∀ d,
    (∀ names ty values sp, .value names ty values sp ∈ d.specs →
      (∀ t ∈ ty, PT t) ∧ ∀ x ∈ values, PE x) →
    (∀ id params isAlias t sp, .type id params isAlias t sp ∈ d.specs →
      (∀ f ∈ params, PT f.ty) ∧ PT t) → PS (.decl d)
  labeled : ∀ l s sp, PS s → PS (.labeled l s sp)
  exprStmt : ∀ x, PE x → PS (.expr x)
  send : ∀ c v sp, PE c → PE v → PS (.send c v sp)
  incDec : ∀ x inc sp, PE x → PS (.incDec x inc sp)
  assign : ∀ lhs op rhs sp, (∀ x ∈ lhs, PE x) → (∀ x ∈ rhs, PE x) → PS (.assign lhs op rhs sp)
  go : ∀ c sp, PE c → PS (.go c sp)
  defer : ∀ c sp, PE c → PS (.defer c sp)
  returns : ∀ xs sp, (∀ x ∈ xs, PE x) → PS (.returns xs sp)
  branch : ∀ kind l sp, PS (.branch kind l sp)
  block : ∀ b, (∀ s ∈ b.stmts, PS s) → PS (.block b)
  ifElse : ∀ init c b els sp, (∀ s ∈ init, PS s) → PE c → (∀ s ∈ b.stmts, PS s) →
    (∀ s ∈ els, PS s) → PS (.ifElse init c b els sp)
  switch : ∀ init tag cs sp, (∀ s ∈ init, PS s) → (∀ x ∈ tag, PE x) →
    (∀ c ∈ cs, (∀ x ∈ c.exprs, PE x) ∧ ∀ s ∈ c.body, PS s) → PS (.switch init tag cs sp)
  typeSwitch : ∀ init id x cs sp, (∀ s ∈ init, PS s) → PE x →
    (∀ c ∈ cs, (∀ x ∈ c.exprs, PE x) ∧ ∀ s ∈ c.body, PS s) → PS (.typeSwitch init id x cs sp)
  select : ∀ cs sp, (∀ c ∈ cs, (∀ s ∈ c.comm, PS s) ∧ ∀ s ∈ c.body, PS s) → PS (.select cs sp)
  loop : ∀ init c post b sp, (∀ s ∈ init, PS s) → (∀ x ∈ c, PE x) → (∀ s ∈ post, PS s) →
    (∀ s ∈ b.stmts, PS s) → PS (.loop init c post b sp)
  range : ∀ k v d x b sp, (∀ y ∈ k, PE y) → (∀ y ∈ v, PE y) → PE x → (∀ s ∈ b.stmts, PS s) →
    PS (.range k v d x b sp)
  empty : ∀ sp, PS (.empty sp)

/-- Where nothing is said of statements, the steps for types and expressions are enough. -/
theorem ExprSteps.tree {PT : TypeExpr → Prop} {PE : Expr → Prop}
    (h : ExprSteps PT PE fun _ => True) :
    TreeSteps PT PE fun _ => True := by
  constructor
  case toExprSteps => exact h
  all_goals intros; trivial

namespace TreeSteps

variable {PT : TypeExpr → Prop} {PE : Expr → Prop} {PS : Stmt → Prop}

mutual

/-- The property of types holds of every type. -/
theorem typeExpr (h : TreeSteps PT PE PS) : (t : TypeExpr) → PT t
  | .name pkg n args => h.name pkg n args (inTypes h args)
  | .pointer t => h.pointer t (typeExpr h t)
  | .slice t => h.sliceType t (typeExpr h t)
  | .array len t => h.array len t (inExpr? h len) (typeExpr h t)
  | .map k v => h.map k v (typeExpr h k) (typeExpr h v)
  | .chan dir t => h.chan dir t (typeExpr h t)
  | .func ⟨params, results⟩ => h.func ⟨params, results⟩ (inFields h params) (inFields h results)
  | .struct fs => h.struct fs (inFields h fs)
  | .interface es =>
    h.interface es (fun _ _ hm => inElems h es _ hm) fun _ hm => inElems h es _ hm
  | .ellipsis t => h.ellipsis t (typeExpr h t)
  | .union ts => h.union ts (inTerms h ts)
  | .paren t => h.parenType t (typeExpr h t)

private theorem inTypes (h : TreeSteps PT PE PS) : (ts : List TypeExpr) → ∀ t ∈ ts, PT t
  | [] => List.forall_mem_nil _
  | t :: ts => List.forall_mem_cons.mpr ⟨typeExpr h t, inTypes h ts⟩

private theorem inType? (h : TreeSteps PT PE PS) : (o : Option TypeExpr) → ∀ t ∈ o, PT t
  | none => fun _ ht => nomatch ht
  | some t => fun _ ht => Option.mem_some.mp ht ▸ typeExpr h t

private theorem inField (h : TreeSteps PT PE PS) : (f : Field) → PT f.ty
  | ⟨_, ty, _, _⟩ => typeExpr h ty

private theorem inFields (h : TreeSteps PT PE PS) : (fs : List Field) → ∀ f ∈ fs, PT f.ty
  | [] => List.forall_mem_nil _
  | f :: fs => List.forall_mem_cons.mpr ⟨inField h f, inFields h fs⟩

private theorem inElem (h : TreeSteps PT PE PS) : (e : InterfaceElem) →
    match e with
    | .method _ sig => (∀ f ∈ sig.params, PT f.ty) ∧ ∀ f ∈ sig.results, PT f.ty
    | .embedded t => PT t
  | .method _ ⟨params, results⟩ => ⟨inFields h params, inFields h results⟩
  | .embedded t => typeExpr h t

private theorem inElems (h : TreeSteps PT PE PS) : (es : List InterfaceElem) → ∀ e ∈ es,
    match e with
    | .method _ sig => (∀ f ∈ sig.params, PT f.ty) ∧ ∀ f ∈ sig.results, PT f.ty
    | .embedded t => PT t
  | [] => List.forall_mem_nil _
  | e :: es => List.forall_mem_cons.mpr ⟨inElem h e, inElems h es⟩

private theorem inTerm (h : TreeSteps PT PE PS) : (u : UnionTerm) → PT u.ty
  | ⟨_, ty⟩ => typeExpr h ty

private theorem inTerms (h : TreeSteps PT PE PS) : (us : List UnionTerm) → ∀ u ∈ us, PT u.ty
  | [] => List.forall_mem_nil _
  | u :: us => List.forall_mem_cons.mpr ⟨inTerm h u, inTerms h us⟩

/-- The property of expressions holds of every expression. -/
theorem expr (h : TreeSteps PT PE PS) : (e : Expr) → PE e
  | .ident id => h.ident id
  | .lit kind raw sp => h.lit kind raw sp
  | .composite ty elts sp =>
    h.composite ty elts sp (inExpr? h ty) (fun x hx => (inElts h elts x hx).1)
      fun k v sp hx => (inElts h elts _ hx).2 k v sp rfl
  | .funcLit ⟨params, results⟩ body sp =>
    h.funcLit ⟨params, results⟩ body sp (inFields h params) (inFields h results) (inBlock h body)
  | .paren x sp => h.paren x sp (expr h x)
  | .selector x sel sp => h.selector x sel sp (expr h x)
  | .index x indices sp => h.index x indices sp (expr h x) (inExprs h indices)
  | .slice x low high max three sp =>
    h.slice x low high max three sp (expr h x) (inExpr? h low) (inExpr? h high) (inExpr? h max)
  | .typeAssert x ty sp => h.typeAssert x ty sp (expr h x) (inType? h ty)
  | .call fn args spread sp => h.call fn args spread sp (expr h fn) (inExprs h args)
  | .star x sp => h.star x sp (expr h x)
  | .unary op x sp => h.unary op x sp (expr h x)
  | .binary op x y sp => h.binary op x y sp (expr h x) (expr h y)
  | .keyValue k v sp => h.keyValue k v sp (expr h k) (expr h v)
  | .type t sp => h.type t sp (typeExpr h t)

private theorem inElt (h : TreeSteps PT PE PS) :
    (x : Expr) → ∀ k v sp, x = .keyValue k v sp → PE k ∧ PE v
  | .keyValue k v _ => fun _ _ _ hx => by
    cases hx
    exact ⟨expr h k, expr h v⟩
  | .ident _ | .lit .. | .composite .. | .funcLit .. | .paren .. | .selector .. | .index ..
  | .slice .. | .typeAssert .. | .call .. | .star .. | .unary .. | .binary .. | .type .. =>
    fun _ _ _ hx => nomatch hx

private theorem inElts (h : TreeSteps PT PE PS) : (xs : List Expr) → ∀ x ∈ xs,
    PE x ∧ ∀ k v sp, x = .keyValue k v sp → PE k ∧ PE v
  | [] => List.forall_mem_nil _
  | x :: xs => List.forall_mem_cons.mpr ⟨⟨expr h x, inElt h x⟩, inElts h xs⟩

private theorem inExprs (h : TreeSteps PT PE PS) : (xs : List Expr) → ∀ x ∈ xs, PE x
  | [] => List.forall_mem_nil _
  | x :: xs => List.forall_mem_cons.mpr ⟨expr h x, inExprs h xs⟩

private theorem inExpr? (h : TreeSteps PT PE PS) : (o : Option Expr) → ∀ x ∈ o, PE x
  | none => fun _ hx => nomatch hx
  | some x => fun _ hx => Option.mem_some.mp hx ▸ expr h x

private theorem inSpec (h : TreeSteps PT PE PS) : (sp : Spec) →
    match sp with
    | .value _ ty values _ => (∀ t ∈ ty, PT t) ∧ ∀ x ∈ values, PE x
    | .type _ params _ t _ => (∀ f ∈ params, PT f.ty) ∧ PT t
  | .value _ ty values _ => ⟨inType? h ty, inExprs h values⟩
  | .type _ params _ t _ => ⟨inFields h params, typeExpr h t⟩

private theorem inSpecs (h : TreeSteps PT PE PS) : (sps : List Spec) → ∀ sp ∈ sps,
    match sp with
    | .value _ ty values _ => (∀ t ∈ ty, PT t) ∧ ∀ x ∈ values, PE x
    | .type _ params _ t _ => (∀ f ∈ params, PT f.ty) ∧ PT t
  | [] => List.forall_mem_nil _
  | sp :: sps => List.forall_mem_cons.mpr ⟨inSpec h sp, inSpecs h sps⟩

/-- The property of statements holds of every statement. -/
theorem stmt (h : TreeSteps PT PE PS) : (s : Stmt) → PS s
  | .decl ⟨kind, specs, grouped, directives, sp⟩ =>
    h.decl ⟨kind, specs, grouped, directives, sp⟩ (fun _ _ _ _ hm => inSpecs h specs _ hm)
      fun _ _ _ _ _ hm => inSpecs h specs _ hm
  | .labeled l s sp => h.labeled l s sp (stmt h s)
  | .expr x => h.exprStmt x (expr h x)
  | .send c v sp => h.send c v sp (expr h c) (expr h v)
  | .incDec x inc sp => h.incDec x inc sp (expr h x)
  | .assign lhs op rhs sp => h.assign lhs op rhs sp (inExprs h lhs) (inExprs h rhs)
  | .go c sp => h.go c sp (expr h c)
  | .defer c sp => h.defer c sp (expr h c)
  | .returns xs sp => h.returns xs sp (inExprs h xs)
  | .branch kind l sp => h.branch kind l sp
  | .block b => h.block b (inBlock h b)
  | .ifElse init c b els sp =>
    h.ifElse init c b els sp (inStmt? h init) (expr h c) (inBlock h b) (inStmt? h els)
  | .switch init tag cs sp =>
    h.switch init tag cs sp (inStmt? h init) (inExpr? h tag) (inCases h cs)
  | .typeSwitch init id x cs sp =>
    h.typeSwitch init id x cs sp (inStmt? h init) (expr h x) (inCases h cs)
  | .select cs sp => h.select cs sp (inComms h cs)
  | .loop init c post b sp =>
    h.loop init c post b sp (inStmt? h init) (inExpr? h c) (inStmt? h post) (inBlock h b)
  | .range k v d x b sp =>
    h.range k v d x b sp (inExpr? h k) (inExpr? h v) (expr h x) (inBlock h b)
  | .empty sp => h.empty sp

private theorem inStmts (h : TreeSteps PT PE PS) : (ss : List Stmt) → ∀ s ∈ ss, PS s
  | [] => List.forall_mem_nil _
  | s :: ss => List.forall_mem_cons.mpr ⟨stmt h s, inStmts h ss⟩

private theorem inBlock (h : TreeSteps PT PE PS) : (b : Block) → ∀ s ∈ b.stmts, PS s
  | ⟨ss, _⟩ => inStmts h ss

private theorem inStmt? (h : TreeSteps PT PE PS) : (o : Option Stmt) → ∀ s ∈ o, PS s
  | none => fun _ hs => nomatch hs
  | some s => fun _ hs => Option.mem_some.mp hs ▸ stmt h s

private theorem inCase (h : TreeSteps PT PE PS) :
    (c : CaseClause) → (∀ x ∈ c.exprs, PE x) ∧ ∀ s ∈ c.body, PS s
  | .case list body _ => ⟨inExprs h list, inStmts h body⟩
  | .default body _ => ⟨List.forall_mem_nil _, inStmts h body⟩

private theorem inCases (h : TreeSteps PT PE PS) :
    (cs : List CaseClause) → ∀ c ∈ cs, (∀ x ∈ c.exprs, PE x) ∧ ∀ s ∈ c.body, PS s
  | [] => List.forall_mem_nil _
  | c :: cs => List.forall_mem_cons.mpr ⟨inCase h c, inCases h cs⟩

private theorem inComm (h : TreeSteps PT PE PS) :
    (c : CommClause) → (∀ s ∈ c.comm, PS s) ∧ ∀ s ∈ c.body, PS s
  | ⟨comm, body, _⟩ => ⟨inStmt? h comm, inStmts h body⟩

private theorem inComms (h : TreeSteps PT PE PS) :
    (cs : List CommClause) → ∀ c ∈ cs, (∀ s ∈ c.comm, PS s) ∧ ∀ s ∈ c.body, PS s
  | [] => List.forall_mem_nil _
  | c :: cs => List.forall_mem_cons.mpr ⟨inComm h c, inComms h cs⟩

end

end TreeSteps

/-- Induction over the statements that stand in a statement. Its expressions, and the bodies of
function literals in them, are not looked at. -/
@[elab_as_elim]
theorem Stmt.partsInduction {P : Stmt → Prop} (s : Stmt)
    (decl : ∀ d, P (.decl d))
    (labeled : ∀ l s sp, P s → P (.labeled l s sp))
    (expr : ∀ x, P (.expr x))
    (send : ∀ c v sp, P (.send c v sp))
    (incDec : ∀ x inc sp, P (.incDec x inc sp))
    (assign : ∀ lhs op rhs sp, P (.assign lhs op rhs sp))
    (go : ∀ c sp, P (.go c sp))
    (defer : ∀ c sp, P (.defer c sp))
    (returns : ∀ xs sp, P (.returns xs sp))
    (branch : ∀ kind l sp, P (.branch kind l sp))
    (block : ∀ b, (∀ s ∈ b.stmts, P s) → P (.block b))
    (ifElse : ∀ init c b els sp, (∀ s ∈ init, P s) → (∀ s ∈ b.stmts, P s) → (∀ s ∈ els, P s) →
      P (.ifElse init c b els sp))
    (switch : ∀ init tag cs sp, (∀ s ∈ init, P s) → (∀ c ∈ cs, ∀ s ∈ c.body, P s) →
      P (.switch init tag cs sp))
    (typeSwitch : ∀ init id x cs sp, (∀ s ∈ init, P s) → (∀ c ∈ cs, ∀ s ∈ c.body, P s) →
      P (.typeSwitch init id x cs sp))
    (select : ∀ cs sp, (∀ c ∈ cs, (∀ s ∈ c.comm, P s) ∧ ∀ s ∈ c.body, P s) → P (.select cs sp))
    (loop : ∀ init c post b sp, (∀ s ∈ init, P s) → (∀ s ∈ post, P s) → (∀ s ∈ b.stmts, P s) →
      P (.loop init c post b sp))
    (range : ∀ k v d x b sp, (∀ s ∈ b.stmts, P s) → P (.range k v d x b sp))
    (empty : ∀ sp, P (.empty sp)) : P s := by
  have steps : TreeSteps (fun _ => True) (fun _ => True) P := by
    constructor
    case' toExprSteps => constructor
    case decl => exact fun d _ _ => decl d
    case labeled => exact labeled
    case exprStmt => exact fun x _ => expr x
    case send => exact fun c v sp _ _ => send c v sp
    case incDec => exact fun x inc sp _ => incDec x inc sp
    case assign => exact fun lhs op rhs sp _ _ => assign lhs op rhs sp
    case go => exact fun c sp _ => go c sp
    case defer => exact fun c sp _ => defer c sp
    case returns => exact fun xs sp _ => returns xs sp
    case branch => exact branch
    case block => exact block
    case ifElse => exact fun init c b els sp hi _ hb he => ifElse init c b els sp hi hb he
    case switch =>
      exact fun init tag cs sp hi _ hc => switch init tag cs sp hi fun c h => (hc c h).2
    case typeSwitch =>
      exact fun init id x cs sp hi _ hc => typeSwitch init id x cs sp hi fun c h => (hc c h).2
    case select => exact select
    case loop => exact fun init c post b sp hi _ hp hb => loop init c post b sp hi hp hb
    case range => exact fun k v d x b sp _ _ _ hb => range k v d x b sp hb
    case empty => exact empty
    -- What is left is about types and expressions.
    all_goals intros; trivial
  exact steps.stmt s

end ServiceSplit
