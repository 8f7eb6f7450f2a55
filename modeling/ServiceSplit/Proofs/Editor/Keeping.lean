import ServiceSplit.Proofs.Editor.Rebuilding
import ServiceSplit.Proofs.Tree.Shape

/-!
# What edited trees keep

A property of types, expressions and statements holds everywhere in an edited tree, if it holds of
what the hooks of the editor leave or put in, and if it does not get lost when a part is put
together again from edited parts. Where one statement can stand and several are put, they stand in a
block.
-/

namespace ServiceSplit

/-- A call is still a call. -/
def Expr.Fits (x y : Expr) : Prop :=
  x.isCall = true → y.isCall = true

/-- What can stand in a header or behind `else` still can. -/
structure Stmt.Fits (s t : Stmt) : Prop where
  header : s.fitsHeader = true → t.fitsHeader = true
  branch : s.isElseBranch = true → t.isElseBranch = true

theorem Stmt.Fits.refl (s : Stmt) : s.Fits s :=
  ⟨id, id⟩

/-- The property holds everywhere in what comes about, which can stand where it is put. -/
def Change.keeping (R : NodeProp) : Change where
  expr x y := y.Every R ∧ x.Fits y
  stmt s ts := ∀ t ∈ ts, t.Every R ∧ s.Fits t
  lit _ b := b.Every R

/-- Expressions and statements that are put together again from edited parts keep the property. -/
structure NodeProp.Rebuilt (R : NodeProp) : Prop where
  expr : ∀ {x y}, (Change.keeping R).InExpr x y → R.expr x → R.expr y
  stmt : ∀ {s t}, (Change.keeping R).InStmt s t → R.stmt s → R.stmt t
  pairs : ∀ k v sp, R.expr (.keyValue k v sp)
  block : ∀ b, R.stmt (.block b)
  empty : ∀ sp, R.stmt (.empty sp)

/-- Trees with the property `Q` everywhere have the property `R`, but for their statements. -/
structure NodeProp.Covers (Q R : NodeProp) : Prop where
  type : ∀ t : TypeExpr, t.Every Q → t.Every R
  expr : ∀ x : Expr, x.Every Q → R.expr x
  signatures : R.signatures = true → Q.signatures = true
  pairs : ∀ k v sp, Q.expr (.keyValue k v sp)

variable {Q R : NodeProp}

theorem NodeProp.Rebuilt.covers (h : R.Rebuilt) : R.Covers R :=
  ⟨fun _ ht => ht, fun x hx => ((Expr.every_iff R h.pairs x).mp hx).1, id, h.pairs⟩

namespace Change

theorem exists_of_mem_right {α β : Type} {P : α → β → Prop} {as : List α} {bs : List β}
    (h : List.Forall₂ P as bs) {b : β} (hb : b ∈ bs) : ∃ a ∈ as, P a b := by
  induction h with
  | nil => cases hb
  | cons hab _ ih =>
    rcases List.mem_cons.mp hb with rfl | hb
    · exact ⟨_, List.mem_cons_self, hab⟩
    · obtain ⟨a, ha, hP⟩ := ih hb
      exact ⟨a, List.mem_cons_of_mem _ ha, hP⟩

theorem InExprs.every {xs ys : List Expr} (h : (keeping R).InExprs xs ys) :
    ∀ y ∈ ys, y.Every R := by
  intro y hy
  obtain ⟨x, -, hxy⟩ := exists_of_mem_right h hy
  exact hxy.1

theorem InExpr?.every {x y : Option Expr} (h : (keeping R).InExpr? x y) : ∀ z ∈ y, z.Every R :=
  fun z hz => InExprs.every h z (Option.mem_toList.mpr hz)

theorem InStmts.exists_of_mem {ss ts : List Stmt} (h : (keeping R).InStmts ss ts) {t : Stmt}
    (ht : t ∈ ts) : t.Every R ∧ ∃ s ∈ ss, s.Fits t := by
  induction h with
  | nil => cases ht
  | cons hs _ ih =>
    rcases List.mem_append.mp ht with ht | ht
    · exact ⟨(hs t ht).1, _, List.mem_cons_self, (hs t ht).2⟩
    · obtain ⟨hevery, s, hs, hfits⟩ := ih ht
      exact ⟨hevery, s, List.mem_cons_of_mem _ hs, hfits⟩

theorem InStmts.every {ss ts : List Stmt} (h : (keeping R).InStmts ss ts) : ∀ t ∈ ts, t.Every R :=
  fun _ ht => (h.exists_of_mem ht).1

theorem InBlock.every {b b' : Block} (h : (keeping R).InBlock b b') : b'.Every R := by
  obtain ⟨h⟩ := h
  exact h.every

/-- A single statement in place of another one is one of those that are put there, or a block of
them. -/
theorem single_cases {ts : List Stmt} {t : Stmt} (h : t ∈ Stmt.single ts) :
    ts = [t] ∨ t = .block ⟨ts, .synthetic⟩ := by
  match ts, h with
  | [_], h => exact .inl (Option.mem_some.mp h ▸ rfl)
  | _ :: _ :: _, h => exact .inr (Option.mem_some.mp h).symm

theorem InCase.every {cs cs' : List CaseClause} (h : List.Forall₂ (keeping R).InCase cs cs') :
    ∀ c ∈ cs', c.Every R := by
  intro c hc
  obtain ⟨_, -, hcase⟩ := exists_of_mem_right h hc
  cases hcase with
  | case hxs hss => exact ⟨hxs.every, hss.every⟩
  | default hss => exact ⟨List.forall_mem_nil _, hss.every⟩

/-- The types in the lines of a declaration group stay as they are. -/
theorem InGenDecl.every (hQ : Q.Covers R) {d d' : GenDecl} (h : (keeping R).InGenDecl d d')
    (hd : ∀ spec ∈ d.specs, spec.Every Q) : ∀ spec ∈ d'.specs, spec.Every R := by
  obtain ⟨hspecs⟩ := h
  intro spec' hspec'
  obtain ⟨spec, hmem, hspec⟩ := exists_of_mem_right hspecs hspec'
  have hevery := hd spec hmem
  cases hspec with
  | value hxs => exact ⟨fun t ht => hQ.type t (hevery.1 t ht), hxs.every⟩
  | type => exact ⟨fun f hf => hQ.type _ (hevery.1 f hf), hQ.type _ hevery.2⟩

section

variable (hR : R.Rebuilt)

include hR

theorem every_single {ts : List Stmt} (h : ∀ t ∈ ts, t.Every R) : ∀ t ∈ Stmt.single ts,
    t.Every R := by
  intro t ht
  rcases single_cases ht with rfl | rfl
  · exact h t (List.mem_singleton_self t)
  · exact (Stmt.every_iff _ _).mpr ⟨hR.block _, h⟩

theorem InStmt?.every {s t : Option Stmt} (h : (keeping R).InStmt? s t) : ∀ u ∈ t, u.Every R := by
  obtain ⟨ts, hts, rfl⟩ := h
  exact every_single hR hts.every

theorem InComm.every {cs cs' : List CommClause} (h : List.Forall₂ (keeping R).InComm cs cs') :
    ∀ c ∈ cs', c.Every R := by
  intro c hc
  obtain ⟨_, -, ⟨hs, hss⟩⟩ := exists_of_mem_right h hc
  exact ⟨hs.every hR, hss.every⟩

theorem InExpr.every (hQ : Q.Covers R) {x y : Expr} (h : (keeping R).InExpr x y)
    (hold : x.Every Q) :
    y.Every R := by
  have hparts := ((Expr.every_iff Q hQ.pairs x).mp hold).2
  refine (Expr.every_iff R hR.pairs y).mpr ⟨hR.expr h (hQ.expr x hold), ?_⟩
  cases h with
  | ident | lit => trivial
  | type => exact hQ.type _ hparts
  | composite hty hxs => exact ⟨hty.every, hxs.every⟩
  | funcLit hb =>
    obtain ⟨hsig, -⟩ := hparts
    refine ⟨fun hsigs => ?_, hb⟩
    obtain ⟨hparams, hresults⟩ := hsig (hQ.signatures hsigs)
    exact ⟨fun f hf => hQ.type _ (hparams f hf), fun f hf => hQ.type _ (hresults f hf)⟩
  | paren hx | selector hx | star hx | unary hx => exact hx.1
  | index hx hxs | call hx hxs => exact ⟨hx.1, hxs.every⟩
  | slice hx hlow hhigh hmax => exact ⟨hx.1, hlow.every, hhigh.every, hmax.every⟩
  | typeAssert hx => exact ⟨hx.1, fun t ht => hQ.type t (hparts.2 t ht)⟩
  | binary hx hy | keyValue hx hy => exact ⟨hx.1, hy.1⟩

theorem InStmt.everyPart (hQ : Q.Covers R) {s t : Stmt} (h : (keeping R).InStmt s t)
    (hs : s.Every Q) :
    t.EveryPart R := by
  have hparts := ((Stmt.every_iff Q s).mp hs).2
  cases h with
  | decl hd => exact hd.every hQ hparts
  | @labeled _ _ ts sp hts =>
    have hall := every_single hR fun t ht => (hts t ht).1
    change ((Stmt.single ts).getD (.empty sp)).Every R
    cases hsingle : Stmt.single ts with
    | none => exact (Stmt.every_iff _ _).mpr ⟨hR.empty _, trivial⟩
    | some t => exact hall t hsingle
  | expr hx | incDec hx | go hx | defer hx => exact hx.1
  | send hx hy => exact ⟨hx.1, hy.1⟩
  | assign hxs hys => exact ⟨hxs.every, hys.every⟩
  | returns hxs => exact hxs.every
  | branch | empty => trivial
  | block hb => exact hb.every
  | ifElse hinit hcond hb hels => exact ⟨hinit.every hR, hcond.1, hb.every, hels.every hR⟩
  | switch hinit htag hcs => exact ⟨hinit.every hR, htag.every, InCase.every hcs⟩
  | typeSwitch hinit hx hcs => exact ⟨hinit.every hR, hx.1, InCase.every hcs⟩
  | select hcs => exact InComm.every hR hcs
  | loop hinit hcond hpost hb => exact ⟨hinit.every hR, hcond.every, hpost.every hR, hb.every⟩
  | range hk hv hx hb => exact ⟨hk.every, hv.every, hx.1, hb.every⟩

theorem InStmt.every (hQ : Q.Covers R) {s t : Stmt} (h : (keeping R).InStmt s t) (hs : s.Every Q)
    (hstmt : R.stmt s) : t.Every R :=
  (Stmt.every_iff R t).mpr ⟨hR.stmt h hstmt, h.everyPart hR hQ hs⟩

end

theorem InExpr.fits {x y : Expr} (h : (keeping R).InExpr x y) : x.Fits y := by
  cases h with
  | paren hx => exact hx.2
  | _ => exact id

theorem InStmt.fits {s t : Stmt} (h : (keeping R).InStmt s t) : s.Fits t := by
  cases h <;> exact ⟨id, id⟩

end Change

end ServiceSplit
