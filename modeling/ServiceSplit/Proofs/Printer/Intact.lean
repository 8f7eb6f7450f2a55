import ServiceSplit.Printer.File
import ServiceSplit.Proofs.Tree.Shape

/-!
# Intact trees have texts

A tree is printed if all in it has what its form needs. The proof follows the tree: a part is
printed if the parts in it are, and if it is none of those that have no text.
-/

namespace ServiceSplit

/-- A name or a literal has some text. -/
def TokenKind.HasText : TokenKind → Prop
  | ident name => name.isEmpty = false
  | literal _ raw => raw.isEmpty = false
  | _ => True

/-- Names and literals have texts, and something is known of spans. -/
abbrev Known.withText (σ : Span → Prop) : Known :=
  ⟨TokenKind.HasText, σ⟩

/-- All in a tree has what its form needs, and names and literals have texts. -/
abbrev NodeProp.written (σ : Span → Prop) : NodeProp :=
  .intact (.withText σ)

/-- There is a result. -/
def Prints {α : Type} (x : Except PrintError α) : Prop :=
  ∃ a, x = .ok a

namespace Prints

variable {α β : Type} {x : Except PrintError α}

theorem pure {a : α} : Prints (pure a) :=
  ⟨a, rfl⟩

theorem bind {f : α → Except PrintError β} (h : Prints x) (hf : ∀ a, Prints (f a)) :
    Prints (x >>= f) := by
  obtain ⟨a, rfl⟩ := h
  exact hf a

theorem returning {f : α → β} (h : Prints x) : Prints (do return f (← x)) :=
  h.bind fun _ => pure

theorem map {f : α → β} (h : Prints x) : Prints (f <$> x) :=
  h.returning

theorem list {f : List α → Except PrintError (List β)} (hnil : f [] = .ok []) {as : List α}
    (h : ∀ a ∈ as, ∀ rest, Prints (f rest) → Prints (f (a :: rest))) : Prints (f as) := by
  induction as with
  | nil => exact ⟨[], hnil⟩
  | cons a as ih =>
    rw [List.forall_mem_cons] at h
    exact h.1 as (ih h.2)

theorem mapM {f : α → Except PrintError β} {as : List α} (h : ∀ a ∈ as, Prints (f a)) :
    Prints (as.mapM f) := by
  refine list (f := List.mapM f) rfl fun a ha rest hrest => ?_
  rw [List.mapM_cons]
  exact (h a ha).bind fun _ => hrest.returning

end Prints

variable {σ : Span → Prop}

/-! ### Names and lists -/

theorem Ident.prints {id : Ident} (h : id.name.isEmpty = false) : Prints id.print := by
  rw [Ident.print, h]
  exact .pure

theorem Ident.printsAll {ids : List Ident} (h : Ident.AllKnown TokenKind.HasText ids) :
    Prints (Ident.printAll ids) :=
  .map (.mapM fun id hid => Ident.prints (h id hid))

private def TypePrints (σ : Span → Prop) (t : TypeExpr) : Prop :=
  t.Every (.written σ) → ∀ indent, Prints (printType indent t)

private def ExprPrints (σ : Span → Prop) (x : Expr) : Prop :=
  x.Every (.written σ) → ∀ indent depth, Prints (printExpr indent depth x)

private def StmtPrints (σ : Span → Prop) (s : Stmt) : Prop :=
  s.Every (.written σ) → ∀ place indent,
    (place = .header → s.fitsHeader = true ∨ s.isElseBranch = true) →
      Prints (printStmt place indent s)

private theorem Expr.parts_written {x : Expr} (h : x.Every (.written σ)) :
    x.Intact (.withText σ) ∧ x.EveryPart (.written σ) :=
  (Expr.every_iff _ (fun _ _ _ => trivial) x).mp h

private theorem prints_field {f : Field} (ih : TypePrints σ f.ty)
    (hnames : Ident.AllKnown TokenKind.HasText f.names) (h : f.ty.Every (.written σ))
    (indent : Nat) :
    Prints (printField indent f) := by
  obtain ⟨names, ty, tag, sp⟩ := f
  rw [printField]
  exact .bind (Ident.printsAll hnames) fun _ => (ih h _).returning

private theorem prints_fields {fs : List Field} (ih : ∀ f ∈ fs, TypePrints σ f.ty)
    (hnames : ∀ f ∈ fs, Ident.AllKnown TokenKind.HasText f.names)
    (h : ∀ f ∈ fs, f.ty.Every (.written σ))
    (indent : Nat) : Prints (printFields indent fs) := by
  refine .list (f := printFields indent) rfl fun f hf rest hrest => ?_
  rw [printFields]
  exact .bind (prints_field (ih f hf) (hnames f hf) (h f hf) indent) fun _ => hrest.returning

private theorem prints_signature {sig : Signature} (ihp : ∀ f ∈ sig.params, TypePrints σ f.ty)
    (ihr : ∀ f ∈ sig.results, TypePrints σ f.ty) (hnames : sig.Named TokenKind.HasText)
    (h : sig.Every (.written σ)) (indent : Nat) : Prints (printSignature indent sig) := by
  obtain ⟨params, results⟩ := sig
  obtain ⟨hparams, hresults⟩ := List.forall_mem_append.mp hnames
  rw [printSignature]
  refine .bind (prints_fields ihp hparams h.1 indent) fun _ => .returning ?_
  refine .list (f := printResults indent _) rfl fun f hf rest hrest => ?_
  obtain ⟨names, ty, tag, sp⟩ := f
  rw [printResults]
  exact .bind (Ident.printsAll (hresults _ hf)) fun _ => .bind (ihr _ hf (h.2 _ hf) _) fun _ =>
    hrest.returning

private theorem prints_exprs {xs : List Expr} (ih : ∀ x ∈ xs, ExprPrints σ x)
    (h : ∀ x ∈ xs, x.Every (.written σ)) (indent depth : Nat) :
    Prints (printExprs indent depth xs) := by
  refine .list (f := printExprs indent depth) rfl fun x hx rest hrest => ?_
  rw [printExprs]
  exact .bind (ih x hx (h x hx) _ _) fun _ => hrest.returning

private theorem prints_expr? {o : Option Expr} (ih : ∀ x ∈ o, ExprPrints σ x)
    (h : ∀ x ∈ o, x.Every (.written σ)) (indent depth : Nat) :
    Prints (printExpr? indent depth o) := by
  cases o with
  | none => exact .pure
  | some x => exact .map (ih x rfl (h x rfl) _ _)

private theorem prints_type? {o : Option TypeExpr} (ih : ∀ t ∈ o, TypePrints σ t)
    (h : ∀ t ∈ o, t.Every (.written σ)) (indent : Nat) : Prints (printType? indent o) := by
  cases o with
  | none => exact .pure
  | some t => exact .map (ih t rfl (h t rfl) _)

private theorem prints_stmts {ss : List Stmt} (ih : ∀ s ∈ ss, StmtPrints σ s)
    (h : ∀ s ∈ ss, s.Every (.written σ)) (indent : Nat) : Prints (printStmts indent ss) := by
  refine .list (f := printStmts indent) rfl fun s hs rest hrest => ?_
  rw [printStmts]
  exact .bind (ih s hs (h s hs) _ _ nofun) fun _ => hrest.returning

private theorem prints_block {b : Block} (ih : ∀ s ∈ b.stmts, StmtPrints σ s)
    (h : b.Every (.written σ)) (indent : Nat) : Prints (printBlock indent b) := by
  obtain ⟨ss, sp⟩ := b
  rw [printBlock]
  exact .returning (prints_stmts ih h _)

private theorem prints_stmt? {o : Option Stmt} (ih : ∀ s ∈ o, StmtPrints σ s)
    (h : ∀ s ∈ o, s.Every (.written σ))
    (hfits : ∀ s ∈ o, s.fitsHeader = true ∨ s.isElseBranch = true)
    (indent : Nat) : Prints (printStmt? indent o) := by
  cases o with
  | none => exact .pure
  | some s => exact .map (ih s rfl (h s rfl) _ _ fun _ => hfits s rfl)

private theorem prints_genDecl {d : GenDecl}
    (ihv : ∀ names ty values sp, .value names ty values sp ∈ d.specs →
      (∀ t ∈ ty, TypePrints σ t) ∧ ∀ x ∈ values, ExprPrints σ x)
    (iht : ∀ id params isAlias t sp, .type id params isAlias t sp ∈ d.specs →
      (∀ f ∈ params, TypePrints σ f.ty) ∧ TypePrints σ t)
    (hd : ∀ spec ∈ d.specs, spec.Intact (.withText σ))
    (h : ∀ spec ∈ d.specs, spec.Every (.written σ)) (indent : Nat) :
    Prints (printGenDecl indent d) := by
  obtain ⟨kind, specs, grouped, directives, sp⟩ := d
  rw [printGenDecl]
  refine .returning (.list (f := printSpecs _) rfl fun spec hspec rest hrest => ?_)
  have hintact := hd spec hspec
  have hevery := h spec hspec
  cases spec with
  | value names ty values sp =>
    obtain ⟨iht, ihx⟩ := ihv _ _ _ _ hspec
    rw [printSpecs, List.isEmpty_eq_false_iff.mpr hintact.1]
    exact .bind (Ident.printsAll hintact.2) fun _ => .bind (prints_type? iht hevery.1 _) fun _ =>
      .bind (prints_exprs ihx hevery.2 _ _) fun _ => hrest.returning
  | type id params isAlias t sp =>
    obtain ⟨ihf, iht⟩ := iht _ _ _ _ _ hspec
    rw [printSpecs]
    exact .bind (Ident.prints hintact.1) fun _ =>
      .bind (prints_fields ihf hintact.2 hevery.1 _) fun _ =>
      .bind (iht hevery.2 _) fun _ => hrest.returning

private theorem prints_cases {cs : List CaseClause}
    (ih : ∀ c ∈ cs, (∀ x ∈ c.exprs, ExprPrints σ x) ∧ ∀ s ∈ c.body, StmtPrints σ s)
    (hcs : ∀ c ∈ cs, c.Intact) (h : ∀ c ∈ cs, c.Every (.written σ)) (indent : Nat) :
    Prints (printCases indent cs) := by
  refine .list (f := printCases indent) rfl fun c hc rest hrest => ?_
  obtain ⟨ihx, ihs⟩ := ih c hc
  obtain ⟨hxs, hss⟩ := h c hc
  cases c with
  | case list body sp =>
    rw [printCases, List.isEmpty_eq_false_iff.mpr (hcs _ hc)]
    exact .bind (prints_exprs ihx hxs _ _) fun _ => .bind (prints_stmts ihs hss _) fun _ =>
      hrest.returning
  | default body sp =>
    rw [printCases]
    exact .bind (prints_stmts ihs hss _) fun _ => hrest.returning

/-! ### Trees -/

private theorem prints_steps : TreeSteps (TypePrints σ) (ExprPrints σ) (StmtPrints σ) := by
  constructor
  case' toExprSteps => constructor
  case name =>
    intro pkg n args ih h indent
    obtain ⟨hn, hargs⟩ := (TypeExpr.every_iff _ _).mp h
    have hprint : Prints (printTypes indent args) := by
      refine .list (f := printTypes indent) rfl fun t ht rest hrest => ?_
      rw [printTypes]
      exact .bind (ih t ht (hargs t ht) _) fun _ => hrest.returning
    cases pkg <;> rw [printType, show n.isEmpty = false from hn] <;> exact .returning hprint
  case pointer | sliceType | chan | ellipsis | parenType =>
    intros
    rename_i ih
    intro h indent
    rw [printType]
    exact .returning (ih ((TypeExpr.every_iff _ _).mp h).2 _)
  case array =>
    intro len t ihl iht h indent
    obtain ⟨-, hlen, ht⟩ := (TypeExpr.every_iff _ _).mp h
    rw [printType]
    exact .bind (prints_expr? ihl hlen _ _) fun _ => .returning (iht ht _)
  case map =>
    intro k v ihk ihv h indent
    obtain ⟨-, hk, hv⟩ := (TypeExpr.every_iff _ _).mp h
    rw [printType]
    exact .bind (ihk hk _) fun _ => .returning (ihv hv _)
  case func =>
    intro sig ihp ihr h indent
    obtain ⟨hnames, hsig⟩ := (TypeExpr.every_iff _ _).mp h
    rw [printType]
    exact .returning (prints_signature ihp ihr hnames hsig _)
  case struct =>
    intro fs ih h indent
    obtain ⟨hnames, hfs⟩ := (TypeExpr.every_iff _ _).mp h
    rw [printType]
    exact .returning (prints_fields ih hnames hfs _)
  case interface =>
    intro es ihm iht h indent
    obtain ⟨hnames, hes⟩ := (TypeExpr.every_iff _ _).mp h
    rw [printType]
    refine .returning (.list (f := printElems _) rfl fun e he rest hrest => ?_)
    cases e with
    | method id sig =>
      obtain ⟨ihp, ihr⟩ := ihm id sig he
      obtain ⟨hid, hsig⟩ := hnames id sig he
      rw [printElems]
      exact .bind (Ident.prints hid) fun _ => .bind (prints_signature ihp ihr hsig (hes _ he) _)
        fun _ => hrest.returning
    | embedded t =>
      rw [printElems]
      exact .bind (iht t he (hes _ he) _) fun _ => hrest.returning
  case union =>
    intro ts ih h indent
    obtain ⟨hne, hts⟩ := (TypeExpr.every_iff _ _).mp h
    rw [printType, List.isEmpty_eq_false_iff.mpr hne]
    refine .returning (.list (f := printTerms indent) rfl fun t ht rest hrest => ?_)
    obtain ⟨tilde, ty⟩ := t
    rw [printTerms]
    exact .bind (ih _ ht (hts _ ht) _) fun _ => hrest.returning
  case ident =>
    intro id h indent depth
    rw [printExpr]
    exact Ident.prints (Expr.parts_written h).1.1
  case lit =>
    intro kind raw sp h indent depth
    rw [printExpr, show raw.isEmpty = false from (Expr.parts_written h).1]
    exact .pure
  case composite =>
    intro ty elts sp iht ih _ h indent depth
    obtain ⟨-, hty, helts⟩ := Expr.parts_written h
    rw [printExpr]
    exact .bind (prints_expr? iht hty _ _) fun _ => .returning (prints_exprs ih helts _ _)
  case funcLit =>
    intro sig body sp ihp ihr ih h indent depth
    obtain ⟨⟨hnames, -⟩, hsig, hbody⟩ := Expr.parts_written h
    rw [printExpr]
    exact .bind (prints_signature ihp ihr hnames (hsig rfl) _) fun _ =>
      .returning (prints_block ih hbody _)
  case paren =>
    intro x sp ih h indent depth
    rw [printExpr]
    split
    · exact ih (Expr.parts_written h).2 _ _
    · exact .returning (ih (Expr.parts_written h).2 _ _)
  case selector =>
    intro x sel sp ih h indent depth
    obtain ⟨hsel, hx⟩ := Expr.parts_written h
    rw [printExpr]
    exact .bind (.map (ih hx _ _)) fun _ => .returning (Ident.prints hsel)
  case index =>
    intro x xs sp ih ihs h indent depth
    obtain ⟨hne, hx, hxs⟩ := Expr.parts_written h
    rw [printExpr, List.isEmpty_eq_false_iff.mpr hne]
    exact .bind (.map (ih hx _ _)) fun _ => .returning (prints_exprs ihs hxs _ _)
  case slice =>
    intro x low high max three sp ih ihl ihh ihm h indent depth
    obtain ⟨hmax, hx, hlow, hhigh, hevery⟩ := Expr.parts_written h
    have hthree : (three && max.isNone) = false := by
      cases three <;> cases max <;> simp_all [Expr.Intact]
    rw [printExpr, hthree]
    refine .bind (.map (ih hx _ _)) fun _ => .bind (prints_expr? ihl hlow _ _) fun _ =>
      .bind (prints_expr? ihh hhigh _ _) fun _ => ?_
    split
    · exact .returning (prints_expr? ihm hevery _ _)
    · exact .pure
  case typeAssert =>
    intro x ty sp ih iht h indent depth
    obtain ⟨-, hx, hty⟩ := Expr.parts_written h
    rw [printExpr]
    exact .bind (.map (ih hx _ _)) fun _ => .returning (prints_type? iht hty _)
  case call =>
    intro fn args spread sp ih ihs h indent depth
    obtain ⟨hspread, hfn, hargs⟩ := Expr.parts_written h
    have hspread : (spread && args.isEmpty) = false := by
      cases spread <;> cases args <;> simp_all [Expr.Intact]
    rw [printExpr, hspread]
    exact .bind (.map (ih hfn _ _)) fun _ => .returning (prints_exprs ihs hargs _ _)
  case star | unary =>
    intros
    rename_i ih
    intro h indent depth
    rw [printExpr]
    exact .returning (ih (Expr.parts_written h).2 _ _)
  case binary =>
    intro op x y sp ihx ihy h indent depth
    obtain ⟨-, hx, hy⟩ := Expr.parts_written h
    rw [printExpr]
    exact .bind (.map (ihx hx _ _)) fun _ => .bind (.map (ihy hy _ _)) fun _ => .pure
  case keyValue =>
    intro x y sp ihx ihy h indent depth
    obtain ⟨-, hx, hy⟩ := Expr.parts_written h
    rw [printExpr]
    exact .bind (ihx hx _ _) fun _ => .returning (ihy hy _ _)
  case type =>
    intro t sp ih h indent depth
    rw [printExpr]
    exact ih (Expr.parts_written h).2 _
  case decl =>
    intro d ihv iht h place indent _
    obtain ⟨hd, hspecs⟩ := (Stmt.every_iff _ _).mp h
    rw [printStmt]
    exact .returning (prints_genDecl ihv iht hd.specs hspecs _)
  case labeled =>
    intro l s sp ih h place indent hplace
    obtain ⟨hl, hs⟩ := (Stmt.every_iff _ _).mp h
    cases place with
    | header => simp [Stmt.fitsHeader, Stmt.isElseBranch] at hplace
    | line =>
      rw [printStmt]
      refine .bind (Ident.prints hl.1) fun _ => ?_
      split
      · exact .pure
      · exact .returning (ih hs _ _ nofun)
  case empty =>
    intro sp h place indent hplace
    cases place with
    | header => simp [Stmt.fitsHeader, Stmt.isElseBranch] at hplace
    | line => exact .pure
  case exprStmt | incDec =>
    intros
    rename_i ih
    intro h place indent _
    rw [printStmt]
    exact .returning (ih ((Stmt.every_iff _ _).mp h).2 _ _)
  case go | defer =>
    intros
    rename_i ih
    intro h place indent _
    obtain ⟨hcall, hx⟩ := (Stmt.every_iff _ _).mp h
    rw [printStmt, show Expr.isCall _ = true from hcall]
    exact .returning (ih hx _ _)
  case send =>
    intro c v sp ihc ihv h place indent _
    obtain ⟨-, hc, hv⟩ := (Stmt.every_iff _ _).mp h
    rw [printStmt]
    exact .bind (ihc hc _ _) fun _ => .returning (ihv hv _ _)
  case assign =>
    intro lhs op rhs sp ihl ihr h place indent _
    obtain ⟨⟨hl, hr, -⟩, hlhs, hrhs⟩ := (Stmt.every_iff _ _).mp h
    rw [printStmt, List.isEmpty_eq_false_iff.mpr hl, List.isEmpty_eq_false_iff.mpr hr]
    exact .bind (prints_exprs ihl hlhs _ _) fun _ => .returning (prints_exprs ihr hrhs _ _)
  case returns =>
    intro xs sp ih h place indent _
    obtain ⟨-, hxs⟩ := (Stmt.every_iff _ _).mp h
    rw [printStmt]
    exact .returning (prints_exprs ih hxs _ _)
  case branch =>
    intro kind l sp h place indent _
    obtain ⟨hl, -⟩ := (Stmt.every_iff _ _).mp h
    cases l with
    | none => exact .pure
    | some id =>
      rw [printStmt]
      exact .returning (Ident.prints (hl id rfl))
  case block =>
    intro b ih h place indent _
    obtain ⟨-, hb⟩ := (Stmt.every_iff _ _).mp h
    rw [printStmt]
    exact .returning (prints_block ih hb _)
  case ifElse =>
    intro init cond b els sp ihi ihc ihb ihe h place indent _
    obtain ⟨⟨hfits, hbranch⟩, hinit, hcond, hb, hels⟩ := (Stmt.every_iff _ _).mp h
    have hgood : (els.any fun s => !s.isElseBranch) = false := by
      cases els <;> simp_all
    rw [printStmt, hgood]
    refine .bind (prints_stmt? ihi hinit (fun s hs => .inl (hfits s hs)) _) fun _ =>
      .bind (ihc hcond _ _) fun _ => .bind (prints_block ihb hb _) fun _ =>
      .bind (prints_stmt? ihe hels (fun s hs => .inr (hbranch s hs)) _) fun o => ?_
    split <;> exact .pure
  case switch =>
    intro init tag cs sp ihi iht ihcs h place indent _
    obtain ⟨⟨hfits, hcases⟩, hinit, htag, hcs⟩ := (Stmt.every_iff _ _).mp h
    rw [printStmt]
    exact .bind (prints_stmt? ihi hinit (fun s hs => .inl (hfits s hs)) _) fun _ =>
      .bind (prints_expr? iht htag _ _) fun _ => .returning (prints_cases ihcs hcases hcs _)
  case typeSwitch =>
    intro init id x cs sp ihi ihx ihcs h place indent _
    obtain ⟨⟨hfits, hcases, hid⟩, hinit, hx, hcs⟩ := (Stmt.every_iff _ _).mp h
    rw [printStmt]
    refine .bind (prints_stmt? ihi hinit (fun s hs => .inl (hfits s hs)) _) fun _ => ?_
    cases id with
    | none =>
      exact .bind .pure fun _ => .bind (.map (ihx hx _ _)) fun _ =>
        .bind (prints_cases ihcs hcases hcs _) fun _ => .pure
    | some id =>
      exact .bind (Ident.prints (hid id rfl).1) fun _ => .bind .pure fun _ =>
        .bind (.map (ihx hx _ _)) fun _ => .bind (prints_cases ihcs hcases hcs _) fun _ => .pure
  case select =>
    intro cs sp ih h place indent _
    obtain ⟨hfits, hcs⟩ := (Stmt.every_iff _ _).mp h
    rw [printStmt]
    refine .returning (.list (f := printComms indent) rfl fun c hc rest hrest => ?_)
    obtain ⟨comm, body, sp⟩ := c
    rw [printComms]
    exact .bind (prints_stmt? (ih _ hc).1 (hcs _ hc).1 (fun s hs => .inl (hfits _ hc s hs)) _)
      fun _ =>
      .bind (prints_stmts (ih _ hc).2 (hcs _ hc).2 _) fun _ => hrest.returning
  case loop =>
    intro init cond post b sp ihi ihc ihp ihb h place indent _
    obtain ⟨⟨hfits, hfits'⟩, hinit, hcond, hpost, hb⟩ := (Stmt.every_iff _ _).mp h
    rw [printStmt]
    exact .bind (prints_stmt? ihi hinit (fun s hs => .inl (hfits s hs)) _) fun _ =>
      .bind (prints_expr? ihc hcond _ _) fun _ =>
      .bind (prints_stmt? ihp hpost (fun s hs => .inl (hfits' s hs)) _) fun _ =>
      .returning (prints_block ihb hb _)
  case range =>
    intro k v d x b sp ihk ihv ihx ihb h place indent _
    obtain ⟨-, hk, hv, hx, hb⟩ := (Stmt.every_iff _ _).mp h
    rw [printStmt]
    refine .bind (prints_expr? ihk hk _ _) fun _ => ?_
    cases k with
    | none =>
      exact .bind .pure fun _ => .bind (ihx hx _ _) fun _ => .bind (prints_block ihb hb _) fun _ =>
        .pure
    | some k =>
      exact .bind (prints_expr? ihv hv _ _) fun _ => .bind (ihx hx _ _) fun _ =>
        .bind (prints_block ihb hb _) fun _ => .pure

theorem TypeExpr.prints {t : TypeExpr} (h : t.Every (.written σ)) :
    Prints t.render :=
  .map (prints_steps.typeExpr t h 0)

theorem Expr.prints {x : Expr} (h : x.Every (.written σ)) : Prints x.render :=
  .map (prints_steps.expr x h 0 1)

/-! ### Declarations and files -/

theorem Decl.prints {d : Decl} (h : d.Intact (.withText σ)) : Prints d.print := by
  have hfields : ∀ {fs : List Field}, (∀ f ∈ fs, Ident.AllKnown TokenKind.HasText f.names) →
      (∀ f ∈ fs, f.ty.Every (.written σ)) → Prints (printFields 0 fs) :=
    fun hnames hfs => prints_fields (fun f _ => prints_steps.typeExpr f.ty) hnames hfs 0
  have hparts := (Decl.every_iff _ _).mp h.every
  cases d with
  | func f =>
    obtain ⟨hname, hsig, hrecv, hparams⟩ := h.head
    obtain ⟨hrecv', hparams', hsig', hbody⟩ := hparts
    refine .returning ?_
    unfold FuncDecl.print
    extract_lets rest
    have hrest : ∀ recv, Prints (rest recv) := by
      refine fun _ => .bind (Ident.prints hname.1) fun _ =>
        .bind (hfields hparams hparams') fun _ =>
        .bind (prints_signature (fun f _ => prints_steps.typeExpr f.ty)
          (fun f _ => prints_steps.typeExpr f.ty) hsig hsig' 0) fun _ => ?_
      cases hb : f.body with
      | none => exact .bind .pure fun _ => .pure
      | some b =>
        exact .bind (prints_block (fun s _ => prints_steps.stmt s) (hbody b hb) 0) fun _ => .pure
    cases hf : f.recv with
    | none => exact .bind .pure hrest
    | some field =>
      have hfield := prints_field (prints_steps.typeExpr field.ty) (hrecv field hf)
        (hrecv' field hf) 0
      exact .bind hfield fun _ => .bind .pure hrest
  | gen g =>
    exact .returning (prints_genDecl
      (fun _ _ _ _ _ => ⟨fun t _ => prints_steps.typeExpr t, fun x _ => prints_steps.expr x⟩)
      (fun _ _ _ _ _ _ => ⟨fun f _ => prints_steps.typeExpr f.ty, prints_steps.typeExpr _⟩)
      h.head.specs hparts 0)

theorem ImportSpec.prints {spec : ImportSpec} (h : spec.path.isEmpty = false) :
    Prints spec.print := by
  rw [ImportSpec.print, h]
  cases spec.alias? <;> exact .pure

/-- A file has a text if its package has a name, its imports have paths and its declarations have
texts. -/
theorem File.prints_of_decls {file : File} (hpackage : file.package.name.isEmpty = false)
    (himports : ∀ spec ∈ file.imports, spec.path.isEmpty = false)
    (hdecls : ∀ d ∈ file.decls, Prints d.print) : Prints file.render := by
  have himports := fun spec hspec => ImportSpec.prints (himports spec hspec)
  refine .map (.bind (Ident.prints hpackage) fun _ => .bind (.mapM fun spec hspec => ?_) fun _ =>
    .bind (.mapM fun spec hspec => ?_) fun _ => .returning (.mapM hdecls))
  · exact himports spec (List.mem_filter.mp hspec).1
  · exact .returning (himports spec (List.mem_filter.mp hspec).1)

/-- A file in which all has what its form needs has a text. -/
theorem File.prints {file : File} (h : file.Intact (.withText σ)) : Prints file.render :=
  prints_of_decls h.package.1 h.imports fun d hd => Decl.prints (h.decls d hd)

end ServiceSplit
