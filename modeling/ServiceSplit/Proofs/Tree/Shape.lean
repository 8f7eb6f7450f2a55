import ServiceSplit.Printer.Tree
import ServiceSplit.Proofs.Tree.Grouping

/-!
# The shape of trees that are read

A type that is read from tokens has what its form needs, so that it can be read back. An expression
or a statement has what it needs to be printed. Names and literals are tokens of which something is
known, and so are the spans of names, of function literals and of some statements.
-/

namespace ServiceSplit

namespace TypeExpr

/-- Whether a type is a union, which only a constraint can be. -/
def isUnion : TypeExpr → Bool
  | union _ => true
  | _ => false

/-- Whether a struct field that starts like the type, with no name in front of it, is embedded. -/
def isEmbedded : TypeExpr → Bool
  | pointer _ | name (some _) _ _ | name none _ [] => true
  | _ => false

end TypeExpr

variable (K : TokenKind → Prop)

/-- The names are tokens that are known. -/
def Ident.AllKnown (ids : List Ident) : Prop :=
  ∀ id ∈ ids, K (.ident id.name)

/-- The parameters of a list all have names or none has, and they have no tags. -/
structure Field.ShapedParams (fs : List Field) : Prop where
  names : ∀ f ∈ fs, Ident.AllKnown K f.names
  tag : ∀ f ∈ fs, f.tag = none
  ty : ∀ f ∈ fs, f.ty.isUnion = false
  uniform : (∀ f ∈ fs, f.names ≠ []) ∨ ∀ f ∈ fs, f.names = []

/-- A line of a struct without names has a type that can be embedded. -/
structure Field.ShapedMember (f : Field) : Prop where
  names : Ident.AllKnown K f.names
  tag : ∀ raw ∈ f.tag, K (.literal .string raw)
  ty : f.ty.isUnion = false
  embedded : f.names = [] → f.ty.isEmbedded = true

/-- The parameters and results have the shape of lists of parameters. -/
structure Signature.Shaped (sig : Signature) : Prop where
  params : Field.ShapedParams K sig.params
  results : Field.ShapedParams K sig.results

/-- The method has a name and the shape of its parameters and results. -/
def InterfaceElem.Shaped : InterfaceElem → Prop
  | method name sig => K (.ident name.name) ∧ sig.Shaped K
  | embedded _ => True

/-- The type has what its form needs. -/
def TypeExpr.Shaped : TypeExpr → Prop
  | name pkg n args => (∀ p ∈ pkg, K (.ident p)) ∧ K (.ident n) ∧ ∀ a ∈ args, a.isUnion = false
  | pointer e | slice e | array _ e | chan _ e | ellipsis e | paren e => e.isUnion = false
  | map k v => k.isUnion = false ∧ v.isUnion = false
  | func sig => sig.Shaped K
  | struct fields => ∀ f ∈ fields, f.ShapedMember K
  | interface elems => ∀ e ∈ elems, e.Shaped K
  | union terms =>
    terms ≠ [] ∧ (∀ t, terms ≠ [⟨false, t⟩]) ∧ ∀ t ∈ terms, t.ty.isUnion = false

/-! ### Intact trees -/

/-- What is known of tokens and spans. -/
structure Known where
  kind : TokenKind → Prop
  span : Span → Prop

/-- The names are tokens that are known. -/
def Signature.Named (sig : Signature) : Prop :=
  ∀ f ∈ sig.params ++ sig.results, Ident.AllKnown K f.names

/-- The names in the type are known, and a union has terms. -/
def TypeExpr.Named : TypeExpr → Prop
  | name _ n _ => K (.ident n)
  | func sig => sig.Named K
  | struct fields => ∀ f ∈ fields, Ident.AllKnown K f.names
  | interface elems => ∀ id sig, .method id sig ∈ elems → K (.ident id.name) ∧ sig.Named K
  | union terms => terms ≠ []
  | _ => True

/-- Whether a statement can stand in the header of another one. -/
def Stmt.fitsHeader : Stmt → Bool
  | expr _ | send .. | incDec .. | assign .. | block _ => true
  | _ => false

/-- A clause that is not the default one has cases. -/
def CaseClause.Intact : CaseClause → Prop
  | case list _ _ => list ≠ []
  | default .. => True

section

variable (K : Known)

/-- The name and its place are known. -/
def Known.Name (id : Ident) : Prop :=
  K.kind (.ident id.name) ∧ K.span id.span

/-- The expression has what its form needs. -/
def Expr.Intact : Expr → Prop
  | ident id => K.Name id
  | lit kind raw _ => K.kind (.literal kind raw)
  | funcLit sig _ span => sig.Named K.kind ∧ K.span span
  | selector _ sel _ => K.kind (.ident sel.name)
  | index _ indices _ => indices ≠ []
  | slice _ _ _ max three _ => three = true → max ≠ none
  | call _ args spread _ => spread = true → args ≠ []
  | _ => True

/-- The line of a declaration group has names, and they are known. -/
def Spec.Intact : Spec → Prop
  | value names _ _ _ => names ≠ [] ∧ Ident.AllKnown K.kind names
  | type id params _ _ _ => K.kind (.ident id.name) ∧ ∀ f ∈ params, Ident.AllKnown K.kind f.names

/-- The declaration group has what its lines need. -/
structure GenDecl.Intact (d : GenDecl) : Prop where
  specs : ∀ spec ∈ d.specs, spec.Intact K
  span : K.span d.span

/-- The statement has what its form needs: operands, and statements in its header that fit there. -/
def Stmt.Intact : Stmt → Prop
  | decl d => d.Intact K
  | labeled id _ span => K.kind (.ident id.name) ∧ K.span span
  | send _ _ span | returns _ span | range _ _ _ _ _ span => K.span span
  | assign lhs _ rhs span => lhs ≠ [] ∧ rhs ≠ [] ∧ K.span span
  | go x _ | defer x _ => x.isCall = true
  | branch _ label _ => ∀ id ∈ label, K.kind (.ident id.name)
  | ifElse init _ _ els _ => (∀ s ∈ init, s.fitsHeader = true) ∧ ∀ s ∈ els, s.isElseBranch = true
  | switch init _ cs _ => (∀ s ∈ init, s.fitsHeader = true) ∧ ∀ c ∈ cs, c.Intact
  | typeSwitch init binding _ cs _ =>
    (∀ s ∈ init, s.fitsHeader = true) ∧ (∀ c ∈ cs, c.Intact) ∧ ∀ id ∈ binding, K.Name id
  | select cs _ => ∀ c ∈ cs, ∀ s ∈ c.comm, s.fitsHeader = true
  | loop init _ post _ _ => (∀ s ∈ init, s.fitsHeader = true) ∧ ∀ s ∈ post, s.fitsHeader = true
  | _ => True

/-- The types, expressions and statements have what their forms need. -/
def NodeProp.intact : NodeProp where
  type := TypeExpr.Named K.kind
  expr := Expr.Intact K
  stmt := Stmt.Intact K

/-- The names in the head of a declaration are known. -/
def Decl.HeadIntact : Decl → Prop
  | func f => K.Name f.name ∧ f.sig.Named K.kind ∧
    (∀ field ∈ f.recv, Ident.AllKnown K.kind field.names) ∧
    ∀ field ∈ f.typeParams, Ident.AllKnown K.kind field.names
  | gen g => g.Intact K

/-- All in a declaration has what its form needs. -/
structure Decl.Intact (d : Decl) : Prop where
  every : d.Every (.intact K)
  head : d.HeadIntact K

/-- All in a file has what its form needs. -/
structure File.Intact (file : File) : Prop where
  package : K.Name file.package
  imports : ∀ spec ∈ file.imports, spec.path.isEmpty = false
  decls : ∀ d ∈ file.decls, d.Intact K

end

theorem Signature.Shaped.named {K : TokenKind → Prop} {sig : Signature} (h : sig.Shaped K) :
    sig.Named K :=
  List.forall_mem_append.mpr ⟨h.params.names, h.results.names⟩

theorem TypeExpr.Shaped.named {K : TokenKind → Prop} {t : TypeExpr} (h : t.Shaped K) :
    t.Named K := by
  cases t with
  | name pkg n args => exact h.2.1
  | func sig => exact Signature.Shaped.named h
  | struct fields => exact fun f hf => (h f hf).names
  | interface elems => exact fun id sig hm => ⟨(h _ hm).1, (h _ hm).2.named⟩
  | union terms => exact h.1
  | _ => trivial

end ServiceSplit
