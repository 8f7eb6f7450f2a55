import ServiceSplit.Proofs.Induction
import ServiceSplit.Tree.Events

namespace ServiceSplit

variable {T : Traversal}

theorem typesEvents_eq (ts : List TypeExpr) :
    typesEvents T ts = ts.flatMap (TypeExpr.events T) := by
  induction ts with
  | nil => rfl
  | cons t ts ih => rw [typesEvents, ih, List.flatMap_cons]

theorem typeEvents?_eq (t : Option TypeExpr) :
    typeEvents? T t = t.toList.flatMap (TypeExpr.events T) := by
  cases t <;> simp [typeEvents?]

theorem fieldsEvents_eq (fs : List Field) :
    fieldsEvents T fs = fs.flatMap fun f => f.ty.events T := by
  induction fs with
  | nil => rfl
  | cons f fs ih =>
    obtain ⟨names, ty, tag, span⟩ := f
    rw [fieldsEvents, ih, List.flatMap_cons]

theorem Signature.events_eq (sig : Signature) :
    sig.events T = (sig.params ++ sig.results).flatMap fun f => f.ty.events T := by
  obtain ⟨params, results⟩ := sig
  rw [Signature.events, fieldsEvents_eq, fieldsEvents_eq, List.flatMap_append]

/-- The events of a line of an interface type. -/
def InterfaceElem.events (T : Traversal) : InterfaceElem → List Event
  | method _ sig => sig.events T
  | embedded t => t.events T

theorem elemsEvents_eq (es : List InterfaceElem) :
    elemsEvents T es = es.flatMap (InterfaceElem.events T) := by
  induction es with
  | nil => rfl
  | cons e es ih => cases e <;> rw [elemsEvents, ih, List.flatMap_cons, InterfaceElem.events]

theorem termsEvents_eq (ts : List UnionTerm) :
    termsEvents T ts = ts.flatMap fun t => t.ty.events T := by
  induction ts with
  | nil => rfl
  | cons t ts ih =>
    obtain ⟨tilde, ty⟩ := t
    rw [termsEvents, ih, List.flatMap_cons]

theorem exprsEvents_eq (role : Role) (xs : List Expr) :
    exprsEvents T role xs = xs.flatMap (Expr.events T role) := by
  induction xs with
  | nil => rfl
  | cons x xs ih => rw [exprsEvents, ih, List.flatMap_cons]

theorem exprEvents?_eq (x : Option Expr) :
    exprEvents? T x = x.toList.flatMap (Expr.events T .use) := by
  cases x <;> simp [exprEvents?]

theorem rangeEvents?_eq (role : Role) (x : Option Expr) :
    rangeEvents? T role x = x.toList.flatMap (Expr.events T role) := by
  cases x <;> simp [rangeEvents?]

/-- The events of an element of a composite literal. -/
def Expr.eltEvents (T : Traversal) (keyed : Bool) : Expr → List Event
  | .keyValue key value _ => key.events T (.key keyed) ++ value.events T .use
  | x => x.events T .use

theorem eltsEvents_eq (keyed : Bool) (xs : List Expr) :
    eltsEvents T keyed xs = xs.flatMap (Expr.eltEvents T keyed) := by
  induction xs with
  | nil => rfl
  | cons x xs ih => cases x <;> simp [eltsEvents, Expr.eltEvents, ih]

theorem stmtsEvents_eq (ss : List Stmt) :
    stmtsEvents T ss = ss.flatMap (Stmt.events T) := by
  induction ss with
  | nil => rfl
  | cons s ss ih => rw [stmtsEvents, ih, List.flatMap_cons]

theorem Block.events_eq (b : Block) : b.events T = b.stmts.flatMap (Stmt.events T) := by
  obtain ⟨stmts, span⟩ := b
  rw [Block.events, stmtsEvents_eq]

theorem stmtEvents?_eq (s : Option Stmt) :
    stmtEvents? T s = s.toList.flatMap (Stmt.events T) := by
  cases s <;> simp [stmtEvents?]

/-- The events of a line of a declaration group. -/
def Spec.events (T : Traversal) : Spec → List Event
  | value _ ty values _ => typeEvents? T ty ++ exprsEvents T .use values
  | type _ params _ ty _ => fieldsEvents T params ++ ty.events T

theorem GenDecl.events_eq (d : GenDecl) : d.events T = d.specs.flatMap (Spec.events T) := by
  obtain ⟨kind, specs, grouped, directives, span⟩ := d
  rw [GenDecl.events]
  induction specs with
  | nil => rfl
  | cons s specs ih => cases s <;> simp [specsEvents, Spec.events, ih]

theorem casesEvents_eq (cs : List CaseClause) : casesEvents T cs = cs.flatMap fun c =>
    c.exprs.flatMap (Expr.events T .use) ++ c.body.flatMap (Stmt.events T) := by
  induction cs with
  | nil => rfl
  | cons c cs ih =>
    cases c <;> simp [casesEvents, ih, exprsEvents_eq, stmtsEvents_eq, CaseClause.exprs,
      CaseClause.body]

theorem commsEvents_eq (cs : List CommClause) : commsEvents T cs = cs.flatMap fun c =>
    c.comm.toList.flatMap (Stmt.events T) ++ c.body.flatMap (Stmt.events T) := by
  induction cs with
  | nil => rfl
  | cons c cs ih =>
    obtain ⟨comm, body, span⟩ := c
    simp [commsEvents, ih, stmtEvents?_eq, stmtsEvents_eq]

/-! ### Passing over parts -/

/-- Some events are others without those of the parts that are passed over, and only statements that
are entered are left. The others are all events of these statements. -/
structure Thins (es fs : List Event) : Prop where
  sublist : es.Sublist fs
  entered : ∀ s, .leave s ∈ es → .enter s ∈ es
  inside : ∀ s, .enter s ∈ es → s.events {} ⊆ fs

namespace Thins

variable {es fs es' fs' : List Event}

theorem nil : Thins [] fs :=
  ⟨List.nil_sublist fs, nofun, nofun⟩

theorem append (h : Thins es fs) (h' : Thins es' fs') : Thins (es ++ es') (fs ++ fs') :=
  ⟨h.sublist.append h'.sublist, fun s hs => List.mem_append.mpr
    ((List.mem_append.mp hs).imp (h.entered s) (h'.entered s)), fun s hs =>
      (List.mem_append.mp hs).elim (fun hs => List.subset_append_of_subset_left _ (h.inside s hs))
        fun hs => List.subset_append_of_subset_right _ (h'.inside s hs)⟩

theorem cons (e : Event) (h : Thins es fs) (he : ∀ s, .leave s ≠ e ∧ .enter s ≠ e) :
    Thins (e :: es) (e :: fs) :=
  ⟨h.sublist.cons_cons e,
    fun s hs => List.mem_cons_of_mem e (h.entered s ((List.mem_cons.mp hs).resolve_left (he s).1)),
    fun s hs =>
      List.subset_cons_of_subset e (h.inside s ((List.mem_cons.mp hs).resolve_left (he s).2))⟩

theorem skip {role : Role} {x : Expr} (h : Thins es fs) {skipped kept : Bool}
    (hkept : kept = false) :
    Thins (if skipped then [] else .expr role x :: es)
    (if kept then [] else .expr role x :: fs) := by
  rw [hkept, if_neg Bool.false_ne_true]
  split
  · exact nil
  · exact h.cons _ fun _ => ⟨nofun, nofun⟩

theorem enclose (s : Stmt) (h : Thins es fs) (hs : s.events {} = .enter s :: fs ++ [.leave s]) :
    Thins (.enter s :: es ++ [.leave s]) (.enter s :: fs ++ [.leave s]) := by
  refine ⟨(h.sublist.cons_cons _).append (List.Sublist.refl _), fun t ht => ?_, fun t ht => ?_⟩
  · have ht : t = s ∨ .leave t ∈ es := by simpa [or_comm] using ht
    rcases ht with rfl | ht
    · exact List.mem_cons_self
    · exact List.mem_append_left _ (List.mem_cons_of_mem _ (h.entered t ht))
  · have ht : t = s ∨ .enter t ∈ es := by simpa using ht
    rcases ht with rfl | ht
    · rw [hs]
      exact List.Subset.refl _
    · exact List.subset_append_of_subset_left _ (List.subset_cons_of_subset _ (h.inside t ht))

theorem flatMap {α : Type} {xs : List α} {f g : α → List Event}
    (h : ∀ x ∈ xs, Thins (f x) (g x)) : Thins (xs.flatMap f) (xs.flatMap g) := by
  induction xs with
  | nil => exact nil
  | cons x xs ih =>
    rw [List.forall_mem_cons] at h
    exact h.1.append (ih h.2)

end Thins

private theorem thins_steps (T : Traversal) :
    TreeSteps (fun t => Thins (t.events T) (t.events {}))
      (fun x => ∀ role, Thins (x.events T role) (x.events {} role))
      (fun s => Thins (s.events T) (s.events {})) := by
  constructor
  case' toExprSteps => constructor
  case name | pointer | sliceType | ellipsis | parenType | chan | array | map | func | struct |
      union =>
    intros
    rw [TypeExpr.events, TypeExpr.events]
    refine .cons _ ?_ (by simp)
    grind [typesEvents_eq, exprEvents?_eq, Signature.events_eq, fieldsEvents_eq, termsEvents_eq,
      ← Thins.append, ← Thins.flatMap]
  case interface =>
    intro es ihm ihe
    rw [TypeExpr.events, TypeExpr.events, elemsEvents_eq, elemsEvents_eq]
    refine .cons _ (.flatMap fun e he => ?_) (by simp)
    cases e with
    | method id sig =>
      simp only [InterfaceElem.events, Signature.events_eq]
      exact .flatMap fun f hf => (List.mem_append.mp hf).elim ((ihm id sig he).1 f)
        ((ihm id sig he).2 f)
    | embedded t => exact ihe t he
  case ident | lit | paren | selector | star | unary | index | slice | typeAssert | call | binary |
      keyValue | type =>
    intros
    rw [Expr.events, Expr.events]
    refine .skip ?_ rfl
    grind [exprsEvents_eq, exprEvents?_eq, typeEvents?_eq, ← Thins.append, ← Thins.flatMap,
      Thins.nil]
  case composite =>
    intro ty elts sp iht ih ihkv role
    rw [Expr.events, Expr.events, exprEvents?_eq, exprEvents?_eq, eltsEvents_eq, eltsEvents_eq]
    refine .skip (.append (.flatMap fun x hx => ?_) (.flatMap fun x hx => ?_)) rfl
    · exact iht x (Option.mem_toList.mp hx) .use
    · cases x with
      | keyValue k v sp =>
        obtain ⟨ihk, ihv⟩ := ihkv k v sp hx
        exact (ihk _).append (ihv _)
      | _ => exact ih _ hx .use
  case funcLit =>
    intro sig body sp ihp ihr ihb role
    rw [Expr.events, Expr.events, Block.events_eq, Block.events_eq, Signature.events_eq,
      Signature.events_eq, if_pos rfl]
    refine .skip (.append (.append (.cons _ ?_ (by simp)) (.cons _ (.flatMap ihb) (by simp)))
      (.cons _ .nil (by simp))) rfl
    split
    · exact .flatMap fun f hf => (List.mem_append.mp hf).elim (ihp f) (ihr f)
    · exact .nil
  case decl =>
    intro d ihv iht
    rw [Stmt.events, Stmt.events, GenDecl.events_eq, GenDecl.events_eq]
    refine .enclose _ (.flatMap fun s hs => ?_) (by rw [Stmt.events, GenDecl.events_eq])
    cases s with
    | value names ty values sp =>
      obtain ⟨hty, hvalues⟩ := ihv names ty values sp hs
      simp only [Spec.events, typeEvents?_eq, exprsEvents_eq]
      exact .append (.flatMap fun t ht => hty t (Option.mem_toList.mp ht))
        (.flatMap fun x hx => hvalues x hx _)
    | type id params isAlias t sp =>
      obtain ⟨hparams, ht⟩ := iht id params isAlias t sp hs
      simp only [Spec.events, fieldsEvents_eq]
      exact .append (.flatMap hparams) ht
  case labeled | exprStmt | send | incDec | assign | go | defer | returns | branch | empty | block |
      ifElse | switch | typeSwitch | select | loop | range =>
    intros
    rw [Stmt.events, Stmt.events]
    refine .enclose _ ?_ (by rw [Stmt.events])
    grind [exprsEvents_eq, Block.events_eq, stmtEvents?_eq, exprEvents?_eq, casesEvents_eq,
      commsEvents_eq, rangeEvents?_eq, ← Thins.append, ← Thins.flatMap, Thins.nil]

theorem TypeExpr.thins_events (T : Traversal) (t : TypeExpr) : Thins (t.events T) (t.events {}) :=
  (thins_steps T).typeExpr t

theorem Expr.thins_events (T : Traversal) (role : Role) (x : Expr) :
    Thins (x.events T role) (x.events {} role) :=
  (thins_steps T).expr x role

theorem Block.thins_events (T : Traversal) (b : Block) : Thins (b.events T) (b.events {}) := by
  rw [Block.events_eq, Block.events_eq]
  exact .flatMap fun s _ => (thins_steps T).stmt s

/-- A traversal that passes over parts of a declaration comes to events of the declaration. -/
theorem Decl.thins_events (T : Traversal) (d : Decl) : Thins (d.events T) (d.events {}) := by
  have hfields : ∀ fs : List Field, Thins (fieldsEvents T fs) (fieldsEvents {} fs) := by
    intro fs
    rw [fieldsEvents_eq, fieldsEvents_eq]
    exact .flatMap fun f _ => f.ty.thins_events T
  cases d with
  | func f =>
    refine .append (.append ((hfields _).append (hfields _)) ?_) ?_
    · rw [Signature.events_eq, Signature.events_eq]
      exact .flatMap fun f _ => f.ty.thins_events T
    · cases f.body with
      | none => exact .nil
      | some b => exact b.thins_events T
  | gen g =>
    rw [Decl.events, Decl.events, GenDecl.events_eq, GenDecl.events_eq]
    refine .flatMap fun s _ => ?_
    cases s with
    | value names ty values sp =>
      rw [Spec.events, Spec.events, typeEvents?_eq, typeEvents?_eq, exprsEvents_eq, exprsEvents_eq]
      exact .append (.flatMap fun t _ => t.thins_events T)
        (.flatMap fun x _ => x.thins_events T .use)
    | type id params isAlias t sp => exact (hfields params).append (t.thins_events T)

end ServiceSplit
