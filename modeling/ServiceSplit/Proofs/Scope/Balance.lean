import ServiceSplit.Launch
import ServiceSplit.Proofs.Scope.References
import ServiceSplit.Proofs.Tree.Traversal

/-!
# Scopes that are left as they were found

The search for launches and the search for references both follow the events of a tree and keep the
scopes that are open. What they have in common is a `ScopeWalk`. A walk through an expression ends
with the scopes it began with, and a walk through a statement adds to the innermost scope the names
that the statement declares, and nothing else.
-/

namespace ServiceSplit

namespace Frame

@[simp] theorem isFunction_bind (f : Frame) (name : String) (channel : Option Span) :
    (f.bind name channel).isFunction = f.isFunction := by
  unfold bind
  split <;> rfl

theorem find?_bind (f : Frame) (name other : String) (channel : Option Span) :
    (f.bind other channel).find? name =
      if name = other ∧ name ≠ "_" then some channel else f.find? name := by
  unfold bind find?
  by_cases hblank : other = "_"
  · grind
  · by_cases hname : name = other
    · simp [hname, hblank]
    · simp [hname, hblank, List.lookup_cons, beq_false_of_ne hname]

end Frame

namespace Scopes

/-- What `after` has of every name is what `before` has, unless the name is one of `names`, and
`after` has the scopes around the innermost one from `before`. -/
structure Adds (names : List String) (channel : String → Option Span) (before after : Scopes) :
    Prop where
  outer : after.outer = before.outer
  isFunction : after.inner.isFunction = before.inner.isFunction
  find? : ∀ name, after.inner.find? name =
    if name ∈ names ∧ name ≠ "_" then some (channel name) else before.inner.find? name

variable {names : List String} {channel : String → Option Span} {before mid after : Scopes}

theorem Adds.trans {channel' : String → Option Span} (h : Adds names channel' before mid)
    (h' : Adds names channel mid after) : Adds names channel before after where
  outer := h'.outer.trans h.outer
  isFunction := h'.isFunction.trans h.isFunction
  find? name := by
    rw [h'.find?, h.find?]
    split <;> rfl

theorem adds_foldl_bindAs (names : List String) (channel : String → Option Span)
    (scopes : Scopes) :
    Adds names channel scopes
      (names.foldl (fun s name => s.bindAs name (channel name)) scopes) := by
  induction names generalizing scopes with
  | nil => exact ⟨rfl, rfl, fun name => by simp⟩
  | cons other names ih =>
    have hrest := ih (scopes.bindAs other (channel other))
    refine ⟨hrest.outer, hrest.isFunction.trans (Frame.isFunction_bind ..), fun name => ?_⟩
    rw [List.foldl_cons, hrest.find?, bindAs, Frame.find?_bind]
    by_cases hname : name = other
    · subst hname
      by_cases hblank : name = "_" <;> simp [hblank]
    · simp [hname]

theorem bindAll_outer (scopes : Scopes) (names : List String) :
    (scopes.bindAll names).outer = scopes.outer :=
  (adds_foldl_bindAs names (fun _ => none) scopes).outer

end Scopes

/-- The declaration that a statement records for the channel `name`. -/
def Stmt.channelSpan? (s : Stmt) (name : String) : Option Span :=
  if s.isChannelDecl name then some s.span else none

/-- A search through events that keeps the open scopes. -/
structure ScopeWalk (σ : Type) where
  /-- Looks at one event. -/
  step : σ → Event → σ
  /-- The scopes that are open. -/
  scopes : σ → Scopes
  /-- A statement with parts of its own scope opens it. -/
  enter : ∀ st s, if s.opensScope then (scopes (step st (.enter s))).outer = (scopes st).frames
    else scopes (step st (.enter s)) = scopes st
  /-- The scope of a statement is closed before the names it declares are bound. -/
  leave : ∀ st s, scopes (step st (.leave s)) =
    (if s.opensScope then (scopes st).pop else scopes st).bindDeclared s
  expr : ∀ st role x, scopes (step st (.expr role x)) = scopes st
  type : ∀ st t, scopes (step st (.type t)) = scopes st
  openLit : ∀ st sig span, (scopes (step st (.openLit sig span))).outer = (scopes st).frames
  bodyLit : ∀ st sig, (scopes (step st (.bodyLit sig))).outer = (scopes st).outer
  closeLit : ∀ st, scopes (step st .closeLit) = (scopes st).pop

namespace ScopeWalk

variable {σ : Type} (W : ScopeWalk σ) {T : Traversal} {as bs : List Event}

/-- Some events leave the open scopes as they are. -/
def Keeps (es : List Event) : Prop :=
  ∀ st, W.scopes (es.foldl W.step st) = W.scopes st

/-- Some events leave all open scopes but the innermost as they are. -/
def KeepsOuter (es : List Event) : Prop :=
  ∀ st, (W.scopes (es.foldl W.step st)).outer = (W.scopes st).outer

/-- A statement adds the names it declares to the innermost scope. -/
def Declares (T : Traversal) (s : Stmt) : Prop :=
  ∀ st, (W.scopes st).Adds s.declaredNames s.channelSpan? (W.scopes ((s.events T).foldl W.step st))

variable {W}

@[grind ←] theorem Keeps.outer (h : W.Keeps as) : W.KeepsOuter as :=
  fun st => congrArg Scopes.outer (h st)

@[grind ←] theorem Declares.outer {s : Stmt} (h : W.Declares T s) : W.KeepsOuter (s.events T) :=
  fun st => (h st).outer

@[grind .] theorem keeps_nil : W.Keeps [] :=
  fun _ => rfl

@[grind ←] theorem Keeps.append (ha : W.Keeps as) (hb : W.Keeps bs) : W.Keeps (as ++ bs) :=
  fun st => by rw [List.foldl_append, hb, ha]

@[grind ←] theorem KeepsOuter.append (ha : W.KeepsOuter as) (hb : W.KeepsOuter bs) :
    W.KeepsOuter (as ++ bs) :=
  fun st => by rw [List.foldl_append, hb, ha]

@[grind ←] theorem keeps_flatMap {α : Type} {f : α → List Event} (xs : List α)
    (h : ∀ x ∈ xs, W.Keeps (f x)) : W.Keeps (xs.flatMap f) := by
  induction xs with
  | nil => exact keeps_nil
  | cons x xs ih =>
    rw [List.forall_mem_cons] at h
    exact h.1.append (ih h.2)

@[grind ←] theorem keepsOuter_flatMap {α : Type} {f : α → List Event} (xs : List α)
    (h : ∀ x ∈ xs, W.KeepsOuter (f x)) : W.KeepsOuter (xs.flatMap f) := by
  induction xs with
  | nil => exact keeps_nil.outer
  | cons x xs ih =>
    rw [List.forall_mem_cons] at h
    exact h.1.append (ih h.2)

theorem Keeps.type (t : TypeExpr) (h : W.Keeps as) : W.Keeps (.type t :: as) :=
  fun st => (h _).trans (W.type st t)

theorem Keeps.expr (role : Role) (x : Expr) (h : W.Keeps as) :
    W.Keeps (if T.skip role x then [] else .expr role x :: as) := by
  split
  · exact keeps_nil
  · exact fun st => (h _).trans (W.expr st role x)

/-- The scope of a function literal is open for its signature and its body only. -/
theorem keeps_literal (sig : Signature) (span : Span) (ha : W.KeepsOuter as)
    (hb : W.KeepsOuter bs) :
    W.Keeps (.openLit sig span :: as ++ .bodyLit sig :: bs ++ [.closeLit]) := by
  intro st
  simp only [List.foldl_append, List.foldl_cons, List.foldl_nil, List.cons_append]
  rw [W.closeLit]
  apply Scopes.pop_eq_of_outer
  rw [hb, W.bodyLit, ha, W.openLit]

/-- A statement without a scope of its own, none of whose parts binds a name. -/
theorem declares_of_keeps {s : Stmt} (hs : s.opensScope = false) (hparts : W.Keeps as) (st : σ) :
    (W.scopes st).Adds s.declaredNames s.channelSpan?
      (W.scopes ((Event.enter s :: as ++ [Event.leave s]).foldl W.step st)) := by
  have henter := W.enter st s
  rw [hs, if_neg Bool.false_ne_true] at henter
  simp only [List.cons_append, List.foldl_cons, List.foldl_append, List.foldl_nil]
  rw [W.leave, hs, if_neg Bool.false_ne_true, hparts, henter]
  exact Scopes.adds_foldl_bindAs ..

/-- A statement with a scope of its own takes back what its parts bind. -/
theorem declares_of_opensScope {s : Stmt} (hs : s.opensScope = true) (hparts : W.KeepsOuter as)
    (st : σ) :
    (W.scopes st).Adds s.declaredNames s.channelSpan?
      (W.scopes ((Event.enter s :: as ++ [Event.leave s]).foldl W.step st)) := by
  have henter := W.enter st s
  rw [if_pos hs] at henter
  simp only [List.cons_append, List.foldl_cons, List.foldl_append, List.foldl_nil]
  rw [W.leave, if_pos hs, Scopes.pop_eq_of_outer ((hparts _).trans henter)]
  exact Scopes.adds_foldl_bindAs ..

variable (W)

/-- Types and expressions leave the scopes as they are, and statements add what they declare. -/
theorem steps (T : Traversal) :
    TreeSteps (fun t => W.Keeps (t.events T)) (fun x => ∀ role, W.Keeps (x.events T role))
      (W.Declares T) := by
  constructor
  case' toExprSteps => constructor
  case name | pointer | sliceType | array | map | chan | func | struct | ellipsis | union |
      parenType =>
    intros
    rw [TypeExpr.events]
    apply Keeps.type
    grind [typesEvents_eq, exprEvents?_eq, Signature.events_eq, fieldsEvents_eq, termsEvents_eq]
  case interface =>
    intro es hmethods hembedded
    rw [TypeExpr.events, elemsEvents_eq]
    refine Keeps.type _ (keeps_flatMap es fun e he => ?_)
    cases e with
    | method id sig => rw [InterfaceElem.events, Signature.events_eq]; grind
    | embedded t => exact hembedded t he
  case ident | lit | paren | selector | index | slice | typeAssert | call | star | unary | binary |
      keyValue | type =>
    intros
    rw [Expr.events]
    apply Keeps.expr
    grind [exprsEvents_eq, exprEvents?_eq, typeEvents?_eq]
  case composite =>
    intro ty elts sp hty helts hpairs role
    rw [Expr.events, exprEvents?_eq, eltsEvents_eq]
    refine Keeps.expr role _ (.append (by grind) (keeps_flatMap elts fun x hx => ?_))
    cases x with
    | keyValue k v sp => exact ((hpairs k v sp hx).1 _).append ((hpairs k v sp hx).2 _)
    | _ => exact helts _ hx .use
  case funcLit =>
    intro sig body sp hparams hresults hbody role
    rw [Expr.events, Block.events_eq, Signature.events_eq]
    refine Keeps.expr role _ (keeps_literal sig sp ?_ (by grind))
    split <;> grind
  case decl =>
    intro d hvalues htypes
    rw [Declares, Stmt.events, GenDecl.events_eq]
    refine declares_of_keeps rfl (keeps_flatMap d.specs fun spec hspec => ?_)
    cases spec with
    | value names ty values sp =>
      have hparts := hvalues names ty values sp hspec
      grind [Spec.events, typeEvents?_eq, exprsEvents_eq]
    | type id params isAlias t sp =>
      have hparts := htypes id params isAlias t sp hspec
      grind [Spec.events, fieldsEvents_eq]
  case labeled =>
    intro l s sp hs st
    -- The labelled statement binds its names, and the label binds them again.
    rw [Stmt.events]
    simp only [List.cons_append, List.foldl_cons, List.foldl_append, List.foldl_nil]
    have henter : W.scopes (W.step st (.enter (.labeled l s sp))) = W.scopes st :=
      W.enter st (.labeled l s sp)
    have hinner := hs (W.step st (.enter (.labeled l s sp)))
    rw [henter] at hinner
    rw [W.leave]
    exact hinner.trans (Scopes.adds_foldl_bindAs ..)
  case exprStmt | send | incDec | assign | go | defer | returns | branch | empty =>
    intros
    rw [Declares, Stmt.events]
    refine declares_of_keeps (by rfl) ?_
    grind [exprsEvents_eq]
  case block | ifElse | switch | typeSwitch | select | loop | range =>
    intros
    rw [Declares, Stmt.events]
    refine declares_of_opensScope (by rfl) ?_
    grind [Block.events_eq, stmtEvents?_eq, exprEvents?_eq, casesEvents_eq, commsEvents_eq,
      rangeEvents?_eq]

theorem declares (T : Traversal) (s : Stmt) : W.Declares T s :=
  (W.steps T).stmt s

end ScopeWalk

/-- The search for launches. -/
def Launches.scopeWalk (program : Program) : ScopeWalk Launches.Search where
  step := Search.step program
  scopes := Search.scopes
  enter st s := by
    unfold Search.step
    split <;> simp_all [Scopes.bindImplicit, Scopes.bindAll_outer, Scopes.push]
  leave _ _ := rfl
  expr _ _ _ := rfl
  type _ _ := rfl
  openLit st sig _ := Scopes.bindAll_outer st.scopes.pushFunction (Field.allNames sig.fields)
  bodyLit _ _ := rfl
  closeLit _ := rfl

/-- The search for references. -/
def Reference.scopeWalk : ScopeWalk Reference.Search where
  step := Search.step
  scopes := Search.scopes
  enter st s := by
    unfold Search.step
    split <;> simp_all [Scopes.bindImplicit, Scopes.bindAll_outer, Scopes.push]
  leave _ _ := rfl
  expr st role x := by
    unfold Search.step Search.note
    grind
  type st t := by
    unfold Search.step Search.note
    grind
  openLit _ _ _ := rfl
  bodyLit st sig := Scopes.bindAll_outer st.scopes (Field.allNames sig.fields)
  closeLit _ := rfl

/-- Whatever is inside a statement, both searches come out of it with the scopes they went in with,
except that the innermost one has the names that the statement declares. A name that was bound on
the way, in a scope of the statement or in a function literal, is not local any more. -/
theorem Stmt.scopes_after_visit (s : Stmt) :
    (∀ program (st : Launches.Search),
      st.scopes.Adds s.declaredNames s.channelSpan?
        ((s.events Launches.traversal).foldl (Launches.Search.step program) st).scopes) ∧
    ∀ st : Reference.Search,
      st.scopes.Adds s.declaredNames s.channelSpan?
      (st.run (s.events Reference.traversal)).scopes :=
  ⟨fun program => (Launches.scopeWalk program).declares Launches.traversal s,
    Reference.scopeWalk.declares Reference.traversal s⟩

end ServiceSplit
