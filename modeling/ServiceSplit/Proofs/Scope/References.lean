import ServiceSplit.Proofs.Induction
import ServiceSplit.Proofs.Scope.Uses

/-!
# References and uses

The search for the references of a declaration goes through its events and keeps the scopes that are
open. It reads the scopes with one scope per statement: a use whose name is not tracked is noted as
a reference.
-/

namespace ServiceSplit

/-- The reference that a use is. A key is not sure to refer to a declaration. -/
def NameUse.reference (u : NameUse) : Reference :=
  ⟨u.id.name, u.id.span, !u.isKey⟩

namespace Scopes

/-- Every local name is tracked. -/
def Within (scopes : Scopes) (σ : Sight) : Prop :=
  ∀ name, scopes.isLocal name = true → name ∈ σ.tracked

variable {scopes : Scopes} {σ τ : Sight}

private theorem isLocal_bindAs {name other : String} {channel : Option Span}
    (h : (scopes.bindAs other channel).isLocal name = true) :
    name = other ∨ scopes.isLocal name = true := by
  simp only [isLocal, frames, bindAs, Frame.bind, List.any_cons, Bool.or_eq_true] at h ⊢
  rcases h with h | h
  · split at h
    · exact Or.inr (Or.inl h)
    · simp only [Frame.declares, Frame.find?, List.lookup_cons] at h ⊢
      split at h
      · rename_i heq
        exact Or.inl (eq_of_beq heq)
      · exact Or.inr (Or.inl h)
  · exact Or.inr (Or.inr h)

private theorem Within.bindAs {other : String} {channel : Option Span} (h : scopes.Within σ)
    (hother : other ∈ σ.tracked) : (scopes.bindAs other channel).Within σ := by
  intro name hname
  rcases isLocal_bindAs hname with rfl | hname
  · exact hother
  · exact h name hname

private theorem Within.mono (h : scopes.Within σ) (hsub : σ.tracked ⊆ τ.tracked) :
    scopes.Within τ :=
  fun name hname => hsub (h name hname)

/-- Binding names one after the other stays among the tracked names if all of them are tracked, and
leaves the outer scopes. -/
private theorem Within.foldl_bindAs {names : List String} (channel : String → Option Span)
    (h : scopes.Within σ) (hnames : names ⊆ σ.tracked) :
    (names.foldl (fun s name => s.bindAs name (channel name)) scopes).Within σ ∧
      (names.foldl (fun s name => s.bindAs name (channel name)) scopes).outer = scopes.outer := by
  induction names generalizing scopes with
  | nil => exact ⟨h, rfl⟩
  | cons name names ih =>
    have hname := List.cons_subset.mp hnames
    exact ih (h.bindAs hname.1) hname.2

theorem Within.bindAll {names : List String} (h : scopes.Within σ) :
    (scopes.bindAll names).Within (σ.track names) ∧
      (scopes.bindAll names).outer = scopes.outer :=
  (h.mono (List.subset_append_right names _)).foldl_bindAs (fun _ => none)
    (List.subset_append_left names _)

theorem Within.bindDeclared (h : scopes.Within σ) (s : Stmt) :
    (scopes.bindDeclared s).Within (σ.after s) ∧
      (scopes.bindDeclared s).outer = scopes.outer :=
  (h.mono (List.subset_append_right s.declaredNames _)).foldl_bindAs
    (fun name => if s.isChannelDecl name then some s.span else none)
    (List.subset_append_left _ _)

theorem Within.push (h : scopes.Within σ) : scopes.push.Within σ := by
  intro name hname
  simp only [isLocal, Scopes.push, frames, List.any_cons, Bool.or_eq_true] at hname
  rcases hname with hname | hname
  · cases hname
  · exact h name (by simpa only [isLocal, frames, List.any_cons, Bool.or_eq_true] using hname)

/-- Closing a scope gives back what was there when it was opened. -/
theorem pop_eq_of_outer {inside : Scopes} (h : inside.outer = scopes.frames) :
    inside.pop = scopes := by
  rw [pop, h]
  rfl

end Scopes

namespace Reference.Search

variable {σ τ υ : Sight} {as bs : List Event} {us vs : List NameUse}

@[simp] theorem run_nil (st : Search) : st.run [] = st := rfl

@[simp] theorem run_cons (st : Search) (e : Event) (es : List Event) :
    st.run (e :: es) = (st.step e).run es := rfl

@[simp] theorem run_append (st : Search) (as bs : List Event) :
    st.run (as ++ bs) = (st.run as).run bs :=
  List.foldl_append

private theorem found_subset_note (st : Search) (r : Reference) :
    st.found ⊆ (st.note r).found := by
  rw [note]
  split
  · exact List.Subset.refl _
  · exact List.subset_cons_self r st.found

private theorem found_subset_step (st : Search) (e : Event) : st.found ⊆ (st.step e).found := by
  unfold step
  split
  case h_1 s => split <;> exact List.Subset.refl _
  case h_3 | h_4 | h_6 => exact found_subset_note st _
  all_goals exact List.Subset.refl _

/-- What is found stays found. -/
theorem found_subset_run (st : Search) (es : List Event) : st.found ⊆ (st.run es).found := by
  induction es generalizing st with
  | nil => exact List.Subset.refl _
  | cons e es ih => exact List.Subset.trans (found_subset_step st e) (ih (st.step e))

/-- Some events note the uses `us`, lead from scopes within `σ` to scopes within `τ`, and leave the
outer scopes as they are. -/
structure Walks (σ τ : Sight) (es : List Event) (us : List NameUse) : Prop where
  within : ∀ st : Search, st.scopes.Within σ → (st.run es).scopes.Within τ
  outer : ∀ st : Search, st.scopes.Within σ → (st.run es).scopes.outer = st.scopes.outer
  found : ∀ st : Search, st.scopes.Within σ →
    ∀ u ∈ us, u.isTracked = false → u.reference ∈ (st.run es).found

namespace Walks

theorem nil : Walks σ σ [] [] :=
  ⟨fun _ h => h, fun _ _ => rfl, fun _ _ _ hu => nomatch hu⟩

theorem append (ha : Walks σ τ as us) (hb : Walks τ υ bs vs) :
    Walks σ υ (as ++ bs) (us ++ vs) where
  within st h := by
    rw [run_append]
    exact hb.within _ (ha.within st h)
  outer st h := by
    rw [run_append, hb.outer _ (ha.within st h), ha.outer st h]
  found st h u hu hfree := by
    rw [run_append]
    rcases List.mem_append.mp hu with hu | hu
    · exact found_subset_run _ bs (ha.found st h u hu hfree)
    · exact hb.found _ (ha.within st h) u hu hfree

/-- Only the tracked names matter to the search. -/
theorem congr {σ' τ' : Sight} (h : Walks σ τ as us) (hσ : σ'.tracked = σ.tracked)
    (hτ : τ'.tracked = τ.tracked) : Walks σ' τ' as us := by
  have hin : ∀ scopes : Scopes, scopes.Within σ' → scopes.Within σ := fun _ hs n hn => hσ ▸ hs n hn
  exact ⟨fun st hs n hn => hτ ▸ h.within st (hin _ hs) n hn, fun st hs => h.outer st (hin _ hs),
    fun st hs => h.found st (hin _ hs)⟩

/-- An event in front that the search passes over. -/
theorem behind {e : Event} (h : Walks σ τ as us) (he : ∀ st : Search, st.step e = st) :
    Walks σ τ (e :: as) us := by
  have hrun : ∀ st : Search, st.run (e :: as) = st.run as := fun st => by rw [run_cons, he]
  exact ⟨fun st hs => hrun st ▸ h.within st hs, fun st hs => hrun st ▸ h.outer st hs,
    fun st hs => hrun st ▸ h.found st hs⟩

/-- An event that uses a name. -/
theorem note {e : Event} {id : Ident} {isKey : Bool}
    (h : ∀ st : Search, st.step e = st.note ⟨id.name, id.span, !isKey⟩) :
    Walks σ σ [e] [σ.use id isKey] := by
  have hscopes : ∀ st : Search, (st.run [e]).scopes = st.scopes := by
    intro st
    rw [run_cons, run_nil, h, Search.note]
    split <;> rfl
  refine ⟨fun st hs => hscopes st ▸ hs, fun st _ => congrArg _ (hscopes st), ?_⟩
  intro st hs u hu hfree
  rw [List.mem_singleton.mp hu] at hfree ⊢
  have hfresh : ¬st.scopes.isLocal id.name = true := by
    intro hlocal
    have htracked := List.contains_iff_mem.mpr (hs id.name hlocal)
    rw [Sight.use, htracked] at hfree
    cases hfree
  rw [run_cons, run_nil, h, Search.note, if_neg hfresh]
  exact List.mem_cons_self

/-- A statement that opens no scope. -/
theorem plain {s : Stmt} (h : Walks σ τ as us) (hs : s.opensScope = false)
    (hτ : (τ.after s).tracked ⊆ (σ.after s).tracked) :
    Walks σ (σ.after s) (.enter s :: as ++ [.leave s]) us := by
  have henter : ∀ st : Search, st.step (.enter s) = st := fun st => by simp [step, hs]
  have hleave : ∀ st : Search,
      st.step (.leave s) = { st with scopes := st.scopes.bindDeclared s } :=
    fun st => by simp [step, hs]
  refine ⟨fun st hw => ?_, fun st hw => ?_, fun st hw u hu hfree => ?_⟩
  · simp only [run_append, run_cons, run_nil, henter, hleave]
    exact fun n hn => hτ (((h.within st hw).bindDeclared s).1 n hn)
  · simp only [run_append, run_cons, run_nil, henter, hleave]
    exact ((h.within st hw).bindDeclared s).2.trans (h.outer st hw)
  · simp only [run_append, run_cons st, henter]
    exact found_subset_run _ _ (h.found st hw u hu hfree)

/-- A statement that opens a scope. -/
theorem inScope {s : Stmt} (h : ∃ τ, Walks (σ.track s.implicitNames) τ as us)
    (hs : s.opensScope = true) (hd : s.declaredNames = []) :
    Walks σ (σ.after s) (.enter s :: as ++ [.leave s]) us := by
  obtain ⟨τ, h⟩ := h
  have henter : ∀ st : Search,
      st.step (.enter s) = { st with scopes := st.scopes.push.bindImplicit s } :=
    fun st => by simp [step, hs]
  have hopen : ∀ st : Search, st.scopes.Within σ →
      (st.step (.enter s)).scopes.Within (σ.track s.implicitNames) ∧
        (st.step (.enter s)).scopes.outer = st.scopes.frames := by
    intro st hw
    rw [henter]
    exact hw.push.bindAll
  have hscopes : ∀ st : Search, st.scopes.Within σ →
      (st.run (.enter s :: as ++ [.leave s])).scopes = st.scopes := by
    intro st hw
    have houter := (h.outer _ (hopen st hw).1).trans (hopen st hw).2
    simp only [run_append, run_cons, run_nil, step, hs, if_true]
    rw [Scopes.bindDeclared, hd]
    exact Scopes.pop_eq_of_outer (by simpa only [step, hs, if_true] using houter)
  refine ⟨fun st hw => ?_, fun st hw => congrArg _ (hscopes st hw), fun st hw u hu hfree => ?_⟩
  · rw [hscopes st hw]
    exact fun n hn => List.mem_append_right _ (hw n hn)
  · rw [run_append, run_cons st]
    exact found_subset_run _ _ (h.found _ (hopen st hw).1 u hu hfree)

end Walks

/-! ### Types and expressions -/

attribute [local simp] Expr.events Stmt.events

/-- The search notes what a type uses. -/
private def WalksType (t : TypeExpr) : Prop :=
  ∀ σ, Walks σ σ (t.events traversal) (t.uses σ)

/-- The search notes what an expression uses. -/
private def WalksExpr (x : Expr) : Prop :=
  ∀ σ, Walks σ σ (x.events traversal .use) (x.uses σ)

/-- The search notes what a statement uses. -/
private def WalksStmt (s : Stmt) : Prop :=
  ∀ σ, Walks σ (σ.after s) (s.events traversal) (s.uses σ)

private theorem types_walks {ts : List TypeExpr} (ih : ∀ t ∈ ts, WalksType t) :
    Walks σ σ (typesEvents traversal ts) (typesUses σ ts) := by
  induction ts with
  | nil => exact .nil
  | cons t ts iht =>
    exact (ih t List.mem_cons_self σ).append (iht fun u hu => ih u (List.mem_cons_of_mem t hu))

private theorem type?_walks {ty : Option TypeExpr} (ih : ∀ t ∈ ty, WalksType t) :
    Walks σ σ (typeEvents? traversal ty) (typeUses? σ ty) := by
  cases ty with
  | none => exact .nil
  | some t => exact ih t rfl σ

private theorem fields_walks {fs : List Field} (ih : ∀ f ∈ fs, WalksType f.ty) :
    Walks σ σ (fieldsEvents traversal fs) (fieldsUses σ fs) := by
  induction fs with
  | nil => exact .nil
  | cons f fs ihf =>
    obtain ⟨names, ty, tag, sp⟩ := f
    exact (ih _ List.mem_cons_self σ).append (ihf fun g hg => ih g (List.mem_cons_of_mem _ hg))

private theorem signature_walks {sig : Signature} (ihp : ∀ f ∈ sig.params, WalksType f.ty)
    (ihr : ∀ f ∈ sig.results, WalksType f.ty) :
    Walks σ σ (sig.events traversal) (sig.uses σ) := by
  obtain ⟨params, results⟩ := sig
  exact (fields_walks ihp).append (fields_walks ihr)

private theorem elems_walks {es : List InterfaceElem}
    (ihm : ∀ id sig, .method id sig ∈ es →
      (∀ f ∈ sig.params, WalksType f.ty) ∧ ∀ f ∈ sig.results, WalksType f.ty)
    (iht : ∀ t, .embedded t ∈ es → WalksType t) :
    Walks σ σ (elemsEvents traversal es) (elemsUses σ es) := by
  induction es with
  | nil => exact .nil
  | cons e es ih =>
    have ih := ih (fun id sig hm => ihm id sig (List.mem_cons_of_mem e hm))
      fun t ht => iht t (List.mem_cons_of_mem e ht)
    cases e with
    | method id sig =>
      obtain ⟨hp, hr⟩ := ihm id sig List.mem_cons_self
      exact (signature_walks hp hr).append ih
    | embedded t =>
      exact (iht t List.mem_cons_self σ).append ih

private theorem terms_walks {ts : List UnionTerm} (ih : ∀ u ∈ ts, WalksType u.ty) :
    Walks σ σ (termsEvents traversal ts) (termsUses σ ts) := by
  induction ts with
  | nil => exact .nil
  | cons u ts ihu =>
    obtain ⟨tilde, ty⟩ := u
    exact (ih _ List.mem_cons_self σ).append (ihu fun w hw => ih w (List.mem_cons_of_mem _ hw))

/-- What is below an expression does not depend on its role. -/
private theorem events_of_ne_defined (x : Expr) {role : Role} (hrole : role ≠ .defined) :
    x.events traversal role = .expr role x :: (x.events traversal .use).tail := by
  cases x <;> simp [Expr.events, traversal, hrole]

/-- Only an identifier in the place of a key is treated in its own way. -/
private theorem expr_walks {x : Expr} {role : Role} (ih : WalksExpr x) (hrole : role ≠ .defined)
    (hkey : role = .key false → ∀ id, x ≠ .ident id) :
    Walks σ σ (x.events traversal role) (x.uses σ) := by
  have hstep : ∀ st : Search, st.step (.expr role x) = st.step (.expr .use x) := by
    intro st
    cases x with
    | ident id =>
      cases role with
      | key value =>
        cases value with
        | false => exact absurd rfl (hkey rfl id)
        | true => rfl
      | _ => rfl
    | _ => cases role with
      | key value => cases value <;> rfl
      | _ => rfl
  have hrun : ∀ st : Search, st.run (x.events traversal role) =
      st.run (x.events traversal .use) := by
    intro st
    have huse : Role.use ≠ .defined := by simp
    rw [events_of_ne_defined x hrole, run_cons, hstep, ← run_cons, ← events_of_ne_defined x huse]
  have h := ih σ
  exact ⟨fun st hs => hrun st ▸ h.within st hs, fun st hs => hrun st ▸ h.outer st hs,
    fun st hs => hrun st ▸ h.found st hs⟩

private theorem exprs_walks {xs : List Expr} (ih : ∀ x ∈ xs, WalksExpr x) :
    Walks σ σ (exprsEvents traversal .use xs) (exprsUses σ xs) := by
  induction xs with
  | nil => exact .nil
  | cons x xs ihx =>
    exact (ih x List.mem_cons_self σ).append (ihx fun y hy => ih y (List.mem_cons_of_mem x hy))

private theorem expr?_walks {x : Option Expr} (ih : ∀ y ∈ x, WalksExpr y) :
    Walks σ σ (exprEvents? traversal x) (exprUses? σ x) := by
  cases x with
  | none => exact .nil
  | some y => exact ih y rfl σ

private theorem elts_walks {xs : List Expr} {keyed : Bool} (ih : ∀ x ∈ xs, WalksExpr x)
    (ihkv : ∀ k v sp, .keyValue k v sp ∈ xs → WalksExpr k ∧ WalksExpr v) :
    Walks σ σ (eltsEvents traversal keyed xs) (eltsUses σ keyed xs) := by
  induction xs with
  | nil => exact .nil
  | cons x xs ihx =>
    have ihx := ihx (fun y hy => ih y (List.mem_cons_of_mem x hy))
      fun k v sp hm => ihkv k v sp (List.mem_cons_of_mem x hm)
    cases x with
    | keyValue k v sp =>
      obtain ⟨hk, hv⟩ := ihkv k v sp List.mem_cons_self
      cases k with
      | ident id =>
        have hkey : Walks σ σ [.expr (.key keyed) (.ident id)] [σ.use id (!keyed)] :=
          .note fun st => by cases keyed <;> rfl
        exact (hkey.append (hv σ)).append ihx
      | _ =>
        exact ((expr_walks hk (by simp) (by simp)).append (hv σ)).append ihx
    | _ =>
      exact (ih _ List.mem_cons_self σ).append ihx

/-! ### Statements -/

private theorem tracked_afterAll {ss : List Stmt} (h : σ.tracked = τ.tracked) :
    (σ.afterAll ss).tracked = (τ.afterAll ss).tracked := by
  induction ss generalizing σ τ with
  | nil => exact h
  | cons s ss ih => exact ih (congrArg (s.declaredNames ++ ·) h)

private theorem stmts_walks {ss : List Stmt} (ih : ∀ s ∈ ss, WalksStmt s) :
    Walks σ (σ.afterAll ss) (stmtsEvents traversal ss) (stmtsUses σ ss) := by
  induction ss generalizing σ with
  | nil => exact .nil
  | cons s ss ihs =>
    exact (ih s List.mem_cons_self σ).append (ihs fun t ht => ih t (List.mem_cons_of_mem s ht))

private theorem block_walks {b : Block} (ih : ∀ s ∈ b.stmts, WalksStmt s) :
    Walks σ (σ.afterAll b.stmts) (b.events traversal) (b.uses σ) := by
  obtain ⟨ss, sp⟩ := b
  exact stmts_walks ih

private theorem stmt?_walks {o : Option Stmt} (ih : ∀ s ∈ o, WalksStmt s) :
    Walks σ (σ.afterAll o.toList) (stmtEvents? traversal o) (stmtUses? σ o) := by
  cases o with
  | none => exact .nil
  | some s => exact ih s rfl σ

private theorem specs_walks {ss : List Spec}
    (ihv : ∀ names ty values sp, .value names ty values sp ∈ ss →
      (∀ t ∈ ty, WalksType t) ∧ ∀ x ∈ values, WalksExpr x)
    (iht : ∀ id params isAlias t sp, .type id params isAlias t sp ∈ ss →
      (∀ f ∈ params, WalksType f.ty) ∧ WalksType t) :
    Walks σ σ (specsEvents traversal ss) (specsUses σ ss) := by
  induction ss generalizing σ with
  | nil => exact .nil
  | cons spec ss ih =>
    have ih : ∀ τ : Sight, τ.tracked = σ.tracked →
        Walks σ σ (specsEvents traversal ss) (specsUses τ ss) := by
      intro τ hτ
      exact (ih (fun names ty values sp hm => ihv names ty values sp (List.mem_cons_of_mem _ hm))
        fun id params isAlias t sp hm => iht id params isAlias t sp
          (List.mem_cons_of_mem _ hm)).congr hτ.symm hτ.symm
    cases spec with
    | value names ty values sp =>
      obtain ⟨hty, hvalues⟩ := ihv names ty values sp List.mem_cons_self
      exact ((type?_walks hty).append (exprs_walks hvalues)).append (ih _ rfl)
    | type id params isAlias t sp =>
      obtain ⟨hparams, ht⟩ := iht id params isAlias t sp List.mem_cons_self
      have hline : Walks σ σ (fieldsEvents traversal params ++ t.events traversal)
          (fieldsUses (σ.see (id.name :: Field.allNames params)) params ++
            t.uses (σ.see (id.name :: Field.allNames params))) :=
        ((fields_walks hparams).append (ht _)).congr rfl rfl
      exact hline.append (ih _ rfl)

/-- The clauses of a switch; the names of their bodies stay tracked. -/
private theorem cases_walks (bound : List String) {cs : List CaseClause}
    (ih : ∀ c ∈ cs, (∀ x ∈ c.exprs, WalksExpr x) ∧ ∀ s ∈ c.body, WalksStmt s) :
    ∃ τ, Walks σ τ (casesEvents traversal cs) (casesUses σ bound cs) := by
  induction cs generalizing σ with
  | nil => exact ⟨σ, .nil⟩
  | cons c cs ihc =>
    obtain ⟨hlist, hbody⟩ := ih c List.mem_cons_self
    obtain ⟨τ, hτ⟩ := ihc (σ := σ.beside c.body) fun d hd => ih d (List.mem_cons_of_mem c hd)
    have hbody : Walks σ (σ.beside c.body) (stmtsEvents traversal c.body)
        (stmtsUses (σ.see bound) c.body) :=
      (stmts_walks hbody).congr rfl (tracked_afterAll rfl)
    refine ⟨τ, ?_⟩
    cases c with
    | case list body sp =>
      exact ((exprs_walks hlist).append hbody).append hτ
    | default body sp =>
      exact hbody.append hτ

private theorem comms_walks {cs : List CommClause}
    (ih : ∀ c ∈ cs, (∀ s ∈ c.comm, WalksStmt s) ∧ ∀ s ∈ c.body, WalksStmt s) :
    ∃ τ, Walks σ τ (commsEvents traversal cs) (commsUses σ cs) := by
  induction cs generalizing σ with
  | nil => exact ⟨σ, .nil⟩
  | cons c cs ihc =>
    obtain ⟨comm, body, sp⟩ := c
    obtain ⟨hcomm, hbody⟩ := ih _ List.mem_cons_self
    obtain ⟨τ, hτ⟩ := ihc (σ := σ.beside (comm.toList ++ body)) fun d hd =>
      ih d (List.mem_cons_of_mem _ hd)
    have hbody : Walks (σ.afterAll comm.toList) (σ.beside (comm.toList ++ body))
        (stmtsEvents traversal body) (stmtsUses (σ.afterAll comm.toList) body) :=
      (stmts_walks hbody).congr rfl (by rw [Sight.beside, Sight.afterAll, List.foldl_append]; rfl)
    refine ⟨τ, ?_⟩
    exact ((stmt?_walks hcomm).append hbody).append hτ

private theorem events_defined (x : Expr) : x.events traversal .defined = [] := by
  cases x <;> rfl

private theorem exprsEvents_defined (xs : List Expr) :
    exprsEvents traversal .defined xs = [] := by
  induction xs with
  | nil => rfl
  | cons x xs ih => rw [exprsEvents, ih, events_defined, List.nil_append]

private theorem rangeEvents?_defined (x : Option Expr) :
    rangeEvents? traversal .defined x = [] := by
  cases x with
  | none => rfl
  | some y => exact events_defined y

private theorem rangeVar_walks {x : Option Expr} (ih : ∀ y ∈ x, WalksExpr y) :
    Walks σ σ (rangeEvents? traversal .use x) (exprUses? σ x) := by
  cases x with
  | none => exact .nil
  | some y => exact ih y rfl σ

/-- The scope of a function literal is opened before its signature, and its parameters and results
are bound behind it. -/
private theorem lit_walks {sig : Signature} {body : List Event} {sp : Span}
    (hsig : Walks σ σ (sig.events traversal) us)
    (hbody : Walks (σ.declare (Field.allNames sig.fields)) τ body vs) :
    Walks σ σ (.openLit sig sp :: sig.events traversal ++ .bodyLit sig :: body ++ [.closeLit])
      (us ++ vs) := by
  have hin : ∀ st : Search, st.scopes.Within σ →
      ({ st with scopes := st.scopes.push } : Search).scopes.Within σ := fun _ hw => hw.push
  -- The scopes before the body.
  have hbind : ∀ st : Search, st.scopes.Within σ →
      ((st.run (.openLit sig sp :: sig.events traversal)).step (.bodyLit sig)).scopes.Within
          (σ.declare (Field.allNames sig.fields)) ∧
        ((st.run (.openLit sig sp :: sig.events traversal)).step (.bodyLit sig)).scopes.outer =
          st.scopes.frames := by
    intro st hw
    have hopened := hsig.within _ (hin st hw)
    exact ⟨hopened.bindAll.1, hopened.bindAll.2.trans (hsig.outer _ (hin st hw))⟩
  have hscopes : ∀ st : Search, st.scopes.Within σ →
      (st.run (.openLit sig sp :: sig.events traversal ++ .bodyLit sig :: body ++
        [.closeLit])).scopes = st.scopes := by
    intro st hw
    simp only [run_append, run_cons _ (.bodyLit sig), run_cons _ .closeLit, run_nil]
    exact Scopes.pop_eq_of_outer ((hbody.outer _ (hbind st hw).1).trans (hbind st hw).2)
  refine ⟨fun st hw => hscopes st hw ▸ hw, fun st hw => congrArg _ (hscopes st hw), ?_⟩
  intro st hw u hu hfree
  simp only [run_append, run_cons _ (.bodyLit sig)]
  refine found_subset_run _ _ ?_
  rcases List.mem_append.mp hu with hu | hu
  · exact found_subset_run _ body
      (found_subset_step _ _ (hsig.found _ (hin st hw) u hu hfree))
  · exact hbody.found _ (hbind st hw).1 u hu hfree

private theorem walks_steps : TreeSteps WalksType WalksExpr WalksStmt := by
  constructor
  case' toExprSteps => constructor
  case name =>
    intro pkg n args ih σ
    cases pkg with
    | none =>
      have hname : Walks σ σ [.type (.name none n args)] [σ.use (.made n) false] :=
        .note fun _ => rfl
      exact hname.append (types_walks ih)
    | some pkg =>
      exact (types_walks ih).behind fun _ => rfl
  case array =>
    intro len t ihl iht σ
    exact ((expr?_walks ihl).append (iht σ)).behind fun _ => rfl
  case map | binary | keyValue =>
    intros
    rename_i ihx ihy
    intro σ
    exact ((ihx σ).append (ihy σ)).behind fun _ => rfl
  case func =>
    intro sig ihp ihr σ
    exact (signature_walks ihp ihr).behind fun _ => rfl
  case struct =>
    intro fs ih σ
    exact (fields_walks ih).behind fun _ => rfl
  case interface =>
    intro es ihm iht σ
    exact (elems_walks ihm iht).behind fun _ => rfl
  case union =>
    intro ts ih σ
    exact (terms_walks ih).behind fun _ => rfl
  case ident =>
    intro id σ
    exact .note fun _ => rfl
  case lit =>
    intro kind raw sp σ
    exact Walks.nil.behind fun _ => rfl
  case composite =>
    intro ty elts sp iht ih ihkv σ
    exact ((expr?_walks iht).append (elts_walks ih ihkv)).behind fun _ => rfl
  case funcLit =>
    intro sig body sp ihp ihr ihb σ
    exact (lit_walks (signature_walks ihp ihr) (block_walks ihb)).behind fun _ => rfl
  case index | call =>
    intros
    rename_i ihx ih
    intro σ
    exact ((ihx σ).append (exprs_walks ih)).behind fun _ => rfl
  case slice =>
    intro x low high max three sp ihx ihl ihh ihm σ
    exact ((((ihx σ).append (expr?_walks ihl)).append (expr?_walks ihh)).append
      (expr?_walks ihm)).behind fun _ => rfl
  case typeAssert =>
    intro x ty sp ihx iht σ
    exact ((ihx σ).append (type?_walks iht)).behind fun _ => rfl
  case pointer | sliceType | chan | ellipsis | parenType | type | paren | star | selector | unary =>
    intros
    rename_i ih
    intro σ
    exact (ih σ).behind fun _ => rfl
  case decl =>
    intro d ihv iht σ
    obtain ⟨kind, specs, grouped, directives, sp⟩ := d
    exact (specs_walks ihv iht).plain rfl (List.Subset.refl _)
  case labeled =>
    intro l s sp ih σ
    refine (ih σ).plain rfl ?_
    exact List.append_subset.mpr ⟨List.subset_append_left _ _, List.Subset.refl _⟩
  case exprStmt =>
    intro x ih σ
    exact (expr_walks ih (by simp) (by simp)).plain rfl (List.Subset.refl _)
  case send =>
    intro c v sp ihc ihv σ
    exact ((expr_walks ihc (by simp) (by simp)).append (ihv σ)).plain rfl (List.Subset.refl _)
  case assign =>
    intro lhs op rhs sp ihl ihr σ
    refine Walks.plain (τ := σ) (.append ?_ (exprs_walks ihr)) rfl (List.Subset.refl _)
    by_cases hop : op = .define
    · rw [if_pos hop, hop, AssignOp.targetRole, exprsEvents_defined]
      exact .nil
    · have hrole : op.targetRole = .use := by
        cases op <;> first | rfl | exact absurd rfl hop
      rw [if_neg hop, hrole]
      exact exprs_walks ihl
  case incDec | go | defer =>
    intros
    rename_i ih
    intro σ
    exact (ih σ).plain rfl (List.Subset.refl _)
  case returns =>
    intro xs sp ih σ
    exact (exprs_walks ih).plain rfl (List.Subset.refl _)
  case branch | empty =>
    intros
    intro σ
    exact Walks.nil.plain rfl (List.Subset.refl _)
  case block =>
    intro b ih σ
    exact Walks.inScope ⟨_, block_walks ih⟩ rfl rfl
  case ifElse =>
    intro init c b els sp ihi ihc ihb ihe σ
    have hbody : Walks (σ.afterAll init.toList) ((σ.afterAll init.toList).beside b.stmts)
        (b.events traversal) (b.uses (σ.afterAll init.toList)) :=
      (block_walks ihb).congr rfl rfl
    have hparts := (((stmt?_walks ihi).append (ihc _)).append hbody).append (stmt?_walks ihe)
    exact Walks.inScope ⟨_, hparts⟩ rfl rfl
  case switch =>
    intro init tag cs sp ihi iht ihc σ
    obtain ⟨τ, hcases⟩ := cases_walks (σ := σ.afterAll init.toList) [] ihc
    refine Walks.inScope ⟨τ, ?_⟩ rfl rfl
    exact ((stmt?_walks ihi).append (expr?_walks iht)).append hcases
  case typeSwitch =>
    intro init id x cs sp ihi ihx ihc σ
    obtain ⟨τ, hcases⟩ := cases_walks
      (σ := (σ.track (id.toList.map Ident.name)).afterAll init.toList)
        (id.toList.map Ident.name) ihc
    have himplicit : (Stmt.typeSwitch init id x cs sp).implicitNames =
        id.toList.map Ident.name := by
      cases id <;> rfl
    refine Walks.inScope ⟨τ, ?_⟩ rfl rfl
    rw [himplicit]
    exact ((stmt?_walks ihi).append (ihx _)).append hcases
  case select =>
    intro cs sp ih σ
    obtain ⟨τ, hcomms⟩ := comms_walks (σ := σ) ih
    refine Walks.inScope ⟨τ, ?_⟩ rfl rfl
    exact hcomms
  case loop =>
    intro init c post b sp ihi ihc ihp ihb σ
    have hpost : Walks (σ.afterAll init.toList) ((σ.afterAll init.toList).beside post.toList)
        (stmtEvents? traversal post) (stmtUses? (σ.afterAll init.toList) post) :=
      (stmt?_walks ihp).congr rfl rfl
    have hparts :=
      (((stmt?_walks ihi).append (expr?_walks ihc)).append hpost).append (block_walks ihb)
    exact Walks.inScope ⟨_, hparts⟩ rfl rfl
  case range =>
    intro k v d x b sp ihk ihv ihx ihb σ
    have hvars : Walks (σ.track (Stmt.range k v d x b sp).implicitNames)
        (σ.track (Stmt.range k v d x b sp).implicitNames)
        (rangeEvents? traversal (rangeRole d) k ++ rangeEvents? traversal (rangeRole d) v)
        (if d = true then [] else exprUses? σ k ++ exprUses? σ v) := by
      cases d with
      | false => exact (rangeVar_walks ihk).append (rangeVar_walks ihv)
      | true =>
        rw [rangeRole, if_pos rfl, rangeEvents?_defined, rangeEvents?_defined]
        exact .nil
    have hbody : Walks (σ.track (Stmt.range k v d x b sp).implicitNames)
        ((σ.track (Stmt.range k v d x b sp).implicitNames).afterAll b.stmts) (b.events traversal)
        (b.uses ((σ.track (Stmt.range k v d x b sp).implicitNames).see
          (Stmt.range k v d x b sp).implicitNames)) :=
      (block_walks ihb).congr rfl (tracked_afterAll rfl)
    have hparts := (hvars.append (ihx _)).append hbody
    cases d <;> exact Walks.inScope ⟨_, hparts⟩ rfl rfl

theorem walks_type (t : TypeExpr) : Walks σ σ (t.events traversal) (t.uses σ) :=
  walks_steps.typeExpr t σ

theorem walks_type? (ty : Option TypeExpr) :
    Walks σ σ (typeEvents? traversal ty) (typeUses? σ ty) :=
  type?_walks fun t _ => walks_steps.typeExpr t

theorem walks_fields (fs : List Field) : Walks σ σ (fieldsEvents traversal fs) (fieldsUses σ fs) :=
  fields_walks fun f _ => walks_steps.typeExpr f.ty

theorem walks_signature (sig : Signature) : Walks σ σ (sig.events traversal) (sig.uses σ) :=
  signature_walks (fun f _ => walks_steps.typeExpr f.ty) fun f _ => walks_steps.typeExpr f.ty

theorem walks_exprs (xs : List Expr) :
    Walks σ σ (exprsEvents traversal .use xs) (exprsUses σ xs) :=
  exprs_walks fun x _ => walks_steps.expr x

theorem walks_block (b : Block) : Walks σ (σ.afterAll b.stmts) (b.events traversal) (b.uses σ) :=
  block_walks fun s _ => walks_steps.stmt s

end Reference.Search

/-! ### Declarations -/

open Reference Reference.Search

private theorem within_empty : Scopes.Within {} {} :=
  fun _ h => nomatch h

private theorem outerScopes_within (f : FuncDecl) : f.outerScopes.Within f.headSight := by
  intro name hname
  have h := within_empty.bindAll.1.bindAll.1.bindAll.1 name hname
  simp only [FuncDecl.headSight, Sight.track, List.mem_append, List.not_mem_nil, or_false] at h ⊢
  rcases h with h | h | h
  · exact Or.inr (Or.inr h)
  · exact Or.inl h
  · exact Or.inr (Or.inl h)

private theorem FuncDecl.mem_references {f : FuncDecl} {u : NameUse} (hu : u ∈ f.uses)
    (hfree : u.isTracked = false) : u.reference ∈ f.references := by
  have hhead := (walks_fields (σ := f.headSight) f.recv.toList).append (walks_fields f.typeParams)
  have hbody : ∃ τ, Walks (f.headSight.track (Field.allNames f.sig.fields)) τ
      ((f.body.map (Block.events traversal)).getD [])
      ((f.body.map (Block.uses ((f.headSight.track (Field.allNames f.sig.fields)).see
        (Field.allNames f.sig.fields ++ Field.allNames f.recv.toList)))).getD []) := by
    cases f.body with
    | none => exact ⟨_, .nil⟩
    | some b => exact ⟨_, (walks_block b).congr rfl rfl⟩
  obtain ⟨τ, hbody⟩ := hbody
  have hrest := (walks_signature f.sig).append hbody
  have hstart := hhead.within ⟨f.outerScopes, []⟩ (outerScopes_within f)
  rw [FuncDecl.references, List.mem_reverse]
  rw [FuncDecl.uses, List.append_assoc, List.mem_append] at hu
  rcases hu with hu | hu
  · exact found_subset_run _ _ (hhead.found _ (outerScopes_within f) u hu hfree)
  · exact hrest.found _ hstart.bindAll.1 u hu hfree

private theorem Spec.mem_references {s : Spec} {u : NameUse} (hu : u ∈ s.uses)
    (hfree : u.isTracked = false) : u.reference ∈ s.typeReferences ++ s.valueReferences := by
  cases s with
  | value names ty values sp =>
    refine List.mem_append_right _ (List.mem_reverse.mpr ?_)
    exact ((walks_type? ty).append (walks_exprs values)).found _ within_empty u hu hfree
  | type name params isAlias ty sp =>
    refine List.mem_append_left _ (List.mem_reverse.mpr ?_)
    have hscopes : (Scopes.bindFields (Scopes.push {}) params).Within
        ⟨Field.allNames params, Field.allNames params⟩ := by
      intro name hname
      simpa only [Sight.track, List.append_nil] using within_empty.push.bindAll.1 name hname
    exact ((walks_fields params).append (walks_type ty)).found _ hscopes u hu hfree

/-- A use that is not tracked is a reference of its declaration. -/
theorem Decl.mem_references {d : Decl} {u : NameUse} (hu : u ∈ d.uses)
    (hfree : u.isTracked = false) : u.reference ∈ d.references := by
  cases d with
  | func f => exact FuncDecl.mem_references hu hfree
  | gen g =>
    obtain ⟨s, hs, hu⟩ := List.mem_flatMap.mp hu
    rcases List.mem_append.mp (Spec.mem_references hu hfree) with h | h
    · exact List.mem_append_left _ (List.mem_flatMap.mpr ⟨s, hs, h⟩)
    · exact List.mem_append_right _ (List.mem_flatMap.mpr ⟨s, hs, h⟩)

end ServiceSplit
