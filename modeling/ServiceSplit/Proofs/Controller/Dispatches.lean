import ServiceSplit.Controller.Basic
import ServiceSplit.Proofs.Except
import ServiceSplit.Proofs.Tree.Traversal

/-!
# Where launches are replaced

Launches are looked for everywhere in the body of a function, but they are replaced on a way that
passes over types, and over the arguments of a launch that is replaced. A launch on which the way
comes is replaced, and its function is noted once; a launch that is passed over stays.
-/

namespace ServiceSplit

/-- The span of the `go` statement that is entered. -/
def Event.goSpan? : Event → Option Span
  | .enter (.go _ span) => some span
  | _ => none

/-- The spans of the `go` statements among some events. -/
def goSpans (es : List Event) : List Span :=
  es.filterMap Event.goSpan?

/-- What is passed over at an event: all of a type, and the call of a launch that is replaced. -/
def Event.passedOver (launches : Launches) : Event → List Event
  | .type t => t.events Launches.traversal
  | .enter (.go call span) =>
    if (launches.at? span).isSome then call.events Launches.traversal .use else []
  | _ => []

namespace Launches

/-- The `go` statements that are passed over among some events. -/
def passedOver (launches : Launches) (es : List Event) : List Span :=
  goSpans (es.flatMap (Event.passedOver launches))

/-- The launches among some events. -/
def among (launches : Launches) (es : List Event) : List Launch :=
  (goSpans es).filterMap launches.at?

/-- The launches among some events that are not passed over. -/
def reached (launches : Launches) (es : List Event) : List Launch :=
  (launches.among es).filter fun l => !(launches.passedOver es).contains l.span

end Launches

/-! ### Events -/

@[simp]
theorem goSpans_nil : goSpans [] = [] :=
  rfl

@[simp]
theorem goSpans_append (es fs : List Event) : goSpans (es ++ fs) = goSpans es ++ goSpans fs :=
  List.filterMap_append

theorem goSpans_cons (e : Event) (es : List Event) :
    goSpans (e :: es) = e.goSpan?.toList ++ goSpans es := by
  cases he : e.goSpan? <;> simp [goSpans, he]

theorem mem_goSpans {es : List Event} {span : Span} :
    span ∈ goSpans es ↔ ∃ call, .enter (.go call span) ∈ es := by
  simp only [goSpans, List.mem_filterMap]
  constructor
  · rintro ⟨e, he, hspan⟩
    unfold Event.goSpan? at hspan
    split at hspan
    · cases hspan
      exact ⟨_, he⟩
    · cases hspan
  · rintro ⟨call, he⟩
    exact ⟨_, he, rfl⟩

namespace Launches

variable {launches : Launches} {es fs : List Event}

theorem span_of_at? {span : Span} {l : Launch} (h : launches.at? span = some l) :
    l.span = span := by
  simpa using List.find?_some h

theorem span_mem_of_mem_among {l : Launch} (h : l ∈ launches.among es) : l.span ∈ goSpans es := by
  obtain ⟨span, hspan, hat⟩ := List.mem_filterMap.mp h
  rwa [span_of_at? hat]

@[simp]
theorem passedOver_append : launches.passedOver (es ++ fs) =
    launches.passedOver es ++ launches.passedOver fs := by
  simp [passedOver]

theorem passedOver_cons (e : Event) : launches.passedOver (e :: es) =
    goSpans (e.passedOver launches) ++ launches.passedOver es := by
  simp [passedOver]

/-- All that is passed over among some events is among them. -/
def Within (launches : Launches) (es : List Event) : Prop :=
  launches.passedOver es ⊆ goSpans es

theorem Within.nil : launches.Within [] :=
  List.Subset.refl _

theorem Within.append (hes : launches.Within es) (hfs : launches.Within fs) :
    launches.Within (es ++ fs) := by
  rw [Within, passedOver_append, goSpans_append]
  exact List.append_subset.mpr ⟨List.subset_append_of_subset_left _ hes,
    List.subset_append_of_subset_right _ hfs⟩

theorem Within.flatMap {α : Type} {xs : List α} {f : α → List Event}
    (h : ∀ x ∈ xs, launches.Within (f x)) : launches.Within (xs.flatMap f) := by
  induction xs with
  | nil => exact .nil
  | cons x xs ih =>
    rw [List.forall_mem_cons] at h
    exact h.1.append (ih h.2)

theorem Within.type {t : TypeExpr} (h : t.events Launches.traversal = .type t :: es)
    (hes : launches.Within es) : launches.Within (.type t :: es) := by
  rw [Within, passedOver_cons, Event.passedOver, h]
  exact List.append_subset.mpr ⟨List.Subset.refl _, hes⟩

/-- Where different parts have different `go` statements, the launches that are reached in them are
those that are reached in each of them. -/
theorem reached_append (hes : launches.Within es) (hfs : launches.Within fs)
    (hnodup : (goSpans (es ++ fs)).Nodup) :
    launches.reached (es ++ fs) = launches.reached es ++ launches.reached fs := by
  rw [goSpans_append, List.nodup_append] at hnodup
  obtain ⟨-, -, hne⟩ := hnodup
  have hleft : ∀ l ∈ launches.among es, l.span ∉ launches.passedOver fs :=
    fun l hl hmem => hne _ (span_mem_of_mem_among hl) _ (hfs hmem) rfl
  have hright : ∀ l ∈ launches.among fs, l.span ∉ launches.passedOver es :=
    fun l hl hmem => hne _ (hes hmem) _ (span_mem_of_mem_among hl) rfl
  rw [reached, among, goSpans_append, List.filterMap_append, List.filter_append]
  congr 1
  · refine List.filter_congr fun l hl => ?_
    simp [hleft l hl]
  · refine List.filter_congr fun l hl => ?_
    simp [hright l hl]

/-- Nothing is reached where all is passed over. -/
theorem reached_eq_nil (h : goSpans es ⊆ launches.passedOver es) : launches.reached es = [] := by
  rw [reached, List.filter_eq_nil_iff]
  intro l hl
  simp [h (span_mem_of_mem_among hl)]

/-- All the events are passed over. -/
def Skips (launches : Launches) (es : List Event) : Prop :=
  launches.Within es ∧ goSpans es ⊆ launches.passedOver es

theorem Skips.append (hes : launches.Skips es) (hfs : launches.Skips fs) :
    launches.Skips (es ++ fs) := by
  refine ⟨hes.1.append hfs.1, ?_⟩
  rw [passedOver_append, goSpans_append]
  exact List.append_subset.mpr ⟨List.subset_append_of_subset_left _ hes.2,
    List.subset_append_of_subset_right _ hfs.2⟩

theorem Skips.flatMap {α : Type} {xs : List α} {f : α → List Event}
    (h : ∀ x ∈ xs, launches.Skips (f x)) : launches.Skips (xs.flatMap f) := by
  induction xs with
  | nil => exact ⟨.nil, List.Subset.refl _⟩
  | cons x xs ih =>
    rw [List.forall_mem_cons] at h
    exact h.1.append (ih h.2)

/-- A type is passed over. -/
theorem Skips.type {t : TypeExpr} (h : launches.Within (t.events Launches.traversal)) :
    launches.Skips (t.events Launches.traversal) := by
  refine ⟨h, ?_⟩
  have hmem : Event.type t ∈ t.events Launches.traversal := by
    rw [TypeExpr.events.eq_def]
    exact List.mem_cons_self
  intro span hspan
  obtain ⟨call, hgo⟩ := mem_goSpans.mp hspan
  exact mem_goSpans.mpr ⟨call, List.mem_flatMap.mpr ⟨_, hmem, hgo⟩⟩

/-- An event that is no launch and at which nothing is passed over. -/
def IsQuiet (launches : Launches) (e : Event) : Prop :=
  e.goSpan?.bind launches.at? = none ∧ e.passedOver launches = []

theorem reached_cons {e : Event} (he : launches.IsQuiet e) :
    launches.reached (e :: es) = launches.reached es := by
  have hamong : launches.among (e :: es) = launches.among es := by
    cases hspan : e.goSpan? with
    | none => simp [among, goSpans_cons, hspan]
    | some span =>
      have hat : launches.at? span = none := by simpa [hspan] using he.1
      simp [among, goSpans_cons, hspan, hat]
  rw [reached, hamong, passedOver_cons, he.2, goSpans_nil, List.nil_append, reached]

/-- Of a launch and what stands in it, the launch itself is reached. -/
theorem reached_go {call : Expr} {span : Span} {l : Launch} (hat : launches.at? span = some l)
    (hwithin : launches.Within (call.events Launches.traversal .use))
    (hspan : span ∉ goSpans (call.events Launches.traversal .use)) :
    launches.reached (.enter (.go call span) :: call.events Launches.traversal .use) = [l] := by
  set inner := call.events Launches.traversal .use
  have hpassed : launches.passedOver (.enter (.go call span) :: inner) =
      goSpans inner ++ launches.passedOver inner := by
    rw [passedOver_cons, Event.passedOver, hat, Option.isSome_some, if_pos rfl]
  have hamong : launches.among (.enter (.go call span) :: inner) = l :: launches.among inner := by
    simp [among, goSpans_cons, Event.goSpan?, hat]
  have hfirst : l.span ∉ goSpans inner ++ launches.passedOver inner := by
    rw [span_of_at? hat, List.mem_append, not_or]
    exact ⟨hspan, fun hmem => hspan (hwithin hmem)⟩
  have hrest : (launches.among inner).filter
      (fun l => !(goSpans inner ++ launches.passedOver inner).contains l.span) = [] := by
    rw [List.filter_eq_nil_iff]
    intro l' hl'
    simp [span_mem_of_mem_among hl']
  rw [reached, hamong, hpassed, List.filter_cons, hrest]
  simp [List.mem_append] at hfirst
  simp [hfirst]

end Launches

/-! ### Actions -/

/-- The action notes the functions of the launches that are reached among the events, if no two of
the `go` statements are the same. -/
structure Visits (launches : Launches) {α : Type} (act : Dispatching α) (es : List Event) :
    Prop where
  within : launches.Within es
  notes : (goSpans es).Nodup → ∀ {st : Progress} {a : α} {st' : Progress},
    act.run st = .ok (a, st') →
      st'.dispatched = st.dispatched ++ (launches.reached es).map Launch.callee

namespace Visits

variable {launches : Launches} {α β : Type} {act : Dispatching α} {es fs : List Event}

theorem nothing (a : α) : Visits launches (pure a) [] where
  within := .nil
  notes := by
    intro _ st b st' h
    cases h
    simp [Launches.reached, Launches.among]

private theorem andThen {f : α → Dispatching β} (h : Visits launches act es)
    (hfs : launches.Within fs) (hf : ∀ a, Visits launches (f a) fs) :
    Visits launches (act >>= f) (es ++ fs) where
  within := h.within.append hfs
  notes := by
    intro hnodup st b st' hb
    have hreached := Launches.reached_append h.within hfs hnodup
    rw [goSpans_append, List.nodup_append] at hnodup
    rw [StateT.run_bind] at hb
    obtain ⟨⟨a, st₁⟩, ha, hb⟩ := exists_of_bind_eq_ok hb
    have hfirst := h.notes hnodup.1 ha
    have hrest := (hf a).notes hnodup.2.1 hb
    rw [hrest, hfirst, hreached, List.map_append, List.append_assoc]

theorem bind [Nonempty α] {f : α → Dispatching β} (h : Visits launches act es)
    (hf : ∀ a, Visits launches (f a) fs) : Visits launches (act >>= f) (es ++ fs) := by
  obtain ⟨a⟩ := ‹Nonempty α›
  exact h.andThen (hf a).within hf

theorem returning (h : Visits launches act es) (f : α → β) :
    Visits launches (act >>= fun a => pure (f a)) es := by
  have hreturn := h.andThen .nil fun a => nothing (f a)
  rwa [List.append_nil] at hreturn

theorem map (h : Visits launches act es) (f : α → β) : Visits launches (f <$> act) es := by
  rw [map_eq_pure_bind]
  exact h.returning f

theorem consM {rest : Dispatching (List α)} (h : Visits launches act es)
    (hrest : Visits launches rest fs) : Visits launches (ServiceSplit.consM act rest) (es ++ fs) :=
  h.andThen hrest.within fun _ => hrest.returning _

/-- Behind an event that is no launch and at which nothing is passed over. -/
theorem cons {e : Event} (h : Visits launches act es) (he : launches.IsQuiet e) :
    Visits launches act (e :: es) where
  within := by
    rw [Launches.Within, Launches.passedOver_cons, he.2, goSpans_cons]
    exact List.subset_append_of_subset_right _ h.within
  notes := by
    intro hnodup st a st' ha
    rw [goSpans_cons, List.nodup_append] at hnodup
    rw [Launches.reached_cons he]
    exact h.notes hnodup.2.1 ha

/-- Behind a part that is passed over. -/
theorem behind (hfs : launches.Skips fs) (h : Visits launches act es) :
    Visits launches act (fs ++ es) where
  within := hfs.1.append h.within
  notes := by
    intro hnodup st a st' ha
    rw [Launches.reached_append hfs.1 h.within hnodup, Launches.reached_eq_nil hfs.2]
    rw [goSpans_append, List.nodup_append] at hnodup
    exact h.notes hnodup.2.1 ha

/-- In front of a part that is passed over. -/
theorem before (h : Visits launches act es) (hfs : launches.Skips fs) :
    Visits launches act (es ++ fs) where
  within := h.within.append hfs.1
  notes := by
    intro hnodup st a st' ha
    rw [Launches.reached_append h.within hfs.1 hnodup, Launches.reached_eq_nil hfs.2,
      List.append_nil]
    rw [goSpans_append, List.nodup_append] at hnodup
    exact h.notes hnodup.1 ha

/-- Inside a statement that is no launch. -/
theorem inStmt {s : Stmt} (h : Visits launches act es) (hs : launches.IsQuiet (.enter s)) :
    Visits launches act (.enter s :: es ++ [.leave s]) :=
  (h.cons hs).before ⟨fun _ h => h, fun _ h => h⟩

end Visits

/-- The launches in the body of a function literal are noted with those around it. -/
theorem visits_inFunction {launches : Launches} {inside : Dispatching Block} {es : List Event}
    (sig : Signature) (h : Visits launches inside es) :
    Visits launches (inFunction sig inside) es where
  within := h.within
  notes := by
    intro hnodup st b st' hb
    obtain ⟨⟨body, st₁⟩, hbody, hb⟩ := exists_of_bind_eq_ok
      (x := inside.run { st with hasResults := !sig.results.isEmpty, channels := [] }) hb
    cases hb
    exact (h.notes hnodup hbody :)

/-- A launch that is replaced becomes its dispatch, and is noted. -/
theorem replaceLaunch_run {services : List Service} {l : Launch} {st st' : Progress}
    {stmts : List Stmt} (h : (replaceLaunch services l).run st = .ok (stmts, st')) :
    l.dispatch services st.hasResults = .ok stmts ∧
      st' = { st with
        channels := st.channels ++ l.channels, dispatched := st.dispatched ++ [l.callee] } := by
  obtain ⟨⟨stmts', st₁⟩, hdispatch, h⟩ := exists_of_bind_eq_ok
    (x := (liftM (l.dispatch services st.hasResults) : Dispatching (List Stmt)).run st) h
  obtain ⟨stmts'', hstmts, hdispatch⟩ := exists_of_bind_eq_ok
    (x := l.dispatch services st.hasResults) hdispatch
  cases hdispatch
  cases h
  exact ⟨hstmts, rfl⟩

/-! ### Trees -/

section

variable {launches : Launches} {services : List Service}

private def ExprVisits (launches : Launches) (services : List Service) (x : Expr) : Prop :=
  ∀ role role', Visits launches ((launchEditor launches services).expr role' x)
    (x.events Launches.traversal role)

private def StmtVisits (launches : Launches) (services : List Service) (s : Stmt) : Prop :=
  Visits launches ((launchEditor launches services).stmt s) (s.events Launches.traversal)

private theorem exprs_visits {xs : List Expr} (ih : ∀ x ∈ xs, ExprVisits launches services x)
    (role role' : Role) : Visits launches ((launchEditor launches services).exprs role' xs)
      (exprsEvents Launches.traversal role xs) := by
  induction xs with
  | nil => exact .nothing _
  | cons x xs ihx =>
    rw [List.forall_mem_cons] at ih
    exact (ih.1 role role').consM (ihx ih.2)

private theorem range?_visits {x : Option Expr} (ih : ∀ y ∈ x, ExprVisits launches services y)
    (role role' : Role) : Visits launches ((launchEditor launches services).expr? role' x)
      (rangeEvents? Launches.traversal role x) := by
  cases x with
  | none => exact .nothing _
  | some y => exact (ih y rfl role role').map some

private theorem expr?_visits {x : Option Expr} (ih : ∀ y ∈ x, ExprVisits launches services y)
    (role' : Role) : Visits launches ((launchEditor launches services).expr? role' x)
      (exprEvents? Launches.traversal x) := by
  cases x with
  | none => exact .nothing _
  | some y => exact (ih y rfl .use role').map some

private theorem elts_visits {xs : List Expr} (ih : ∀ x ∈ xs, ExprVisits launches services x)
    (ihkv : ∀ k v sp, .keyValue k v sp ∈ xs →
      ExprVisits launches services k ∧ ExprVisits launches services v)
    (keyed : Bool) : Visits launches ((launchEditor launches services).exprs .use xs)
      (eltsEvents Launches.traversal keyed xs) := by
  induction xs with
  | nil => exact .nothing _
  | cons x xs ihx =>
    have ihx := ihx (fun y hy => ih y (List.mem_cons_of_mem x hy))
      fun k v sp hm => ihkv k v sp (List.mem_cons_of_mem x hm)
    cases x with
    | keyValue k v sp =>
      obtain ⟨hk, hv⟩ := ihkv k v sp List.mem_cons_self
      exact ((hk (.key keyed) .use).bind fun _ => (hv .use .use).returning _).consM ihx
    | _ => exact (ih _ List.mem_cons_self .use .use).consM ihx

private theorem stmts_visits {ss : List Stmt} (ih : ∀ s ∈ ss, StmtVisits launches services s) :
    Visits launches ((launchEditor launches services).stmts ss)
      (stmtsEvents Launches.traversal ss) := by
  induction ss with
  | nil => exact .nothing _
  | cons s ss ihs =>
    rw [List.forall_mem_cons] at ih
    exact Visits.bind ih.1 fun _ => (ihs ih.2).returning _

private theorem block_visits {b : Block} (ih : ∀ s ∈ b.stmts, StmtVisits launches services s) :
    Visits launches ((launchEditor launches services).block b)
      (b.events Launches.traversal) := by
  obtain ⟨ss, sp⟩ := b
  exact (stmts_visits ih).returning _

private theorem stmt?_visits {s : Option Stmt} (ih : ∀ t ∈ s, StmtVisits launches services t) :
    Visits launches ((launchEditor launches services).stmt? s)
      (stmtEvents? Launches.traversal s) := by
  cases s with
  | none => exact .nothing _
  | some t => exact Visits.map (ih t rfl) Stmt.single

private theorem specs_visits {ss : List Spec}
    (ihv : ∀ names ty values sp, .value names ty values sp ∈ ss →
      (∀ t ∈ ty, launches.Within (t.events Launches.traversal)) ∧
        ∀ x ∈ values, ExprVisits launches services x)
    (iht : ∀ id params isAlias t sp, .type id params isAlias t sp ∈ ss →
      (∀ f ∈ params, launches.Within (f.ty.events Launches.traversal)) ∧
        launches.Within (t.events Launches.traversal)) :
    Visits launches ((launchEditor launches services).specs ss)
      (specsEvents Launches.traversal ss) := by
  induction ss with
  | nil => exact .nothing _
  | cons s ss ihs =>
    have ihs :=
      ihs (fun names ty values sp hm => ihv names ty values sp (List.mem_cons_of_mem s hm))
      fun id params isAlias t sp hm => iht id params isAlias t sp (List.mem_cons_of_mem s hm)
    cases s with
    | value names ty values sp =>
      obtain ⟨hty, hvalues⟩ := ihv names ty values sp List.mem_cons_self
      rw [specsEvents, typeEvents?_eq]
      have hskips : launches.Skips (ty.toList.flatMap (TypeExpr.events Launches.traversal)) :=
        .flatMap fun t ht => .type (hty t (Option.mem_toList.mp ht))
      exact Visits.consM (((exprs_visits hvalues .use .use).returning _).behind hskips) ihs
    | type id params isAlias t sp =>
      obtain ⟨hparams, ht⟩ := iht id params isAlias t sp List.mem_cons_self
      rw [specsEvents, fieldsEvents_eq]
      have hskips := (Launches.Skips.flatMap fun f hf => .type (hparams f hf)).append (.type ht)
      exact Visits.consM (by simpa using (Visits.nothing _).behind hskips) ihs

private theorem cases_visits {cs : List CaseClause}
    (ih : ∀ c ∈ cs, (∀ x ∈ c.exprs, ExprVisits launches services x) ∧
      ∀ s ∈ c.body, StmtVisits launches services s) :
    Visits launches ((launchEditor launches services).cases cs)
      (casesEvents Launches.traversal cs) := by
  induction cs with
  | nil => exact .nothing _
  | cons c cs ihc =>
    rw [List.forall_mem_cons] at ih
    obtain ⟨⟨hlist, hbody⟩, ih⟩ := ih
    cases c with
    | case list body sp =>
      exact ((exprs_visits hlist .use .use).bind fun _ => (stmts_visits hbody).returning _).consM
        (ihc ih)
    | default body sp => exact ((stmts_visits hbody).returning _).consM (ihc ih)

private theorem comms_visits {cs : List CommClause}
    (ih : ∀ c ∈ cs, (∀ s ∈ c.comm, StmtVisits launches services s) ∧
      ∀ s ∈ c.body, StmtVisits launches services s) :
    Visits launches ((launchEditor launches services).comms cs)
      (commsEvents Launches.traversal cs) := by
  induction cs with
  | nil => exact .nothing _
  | cons c cs ihc =>
    rw [List.forall_mem_cons] at ih
    obtain ⟨comm, body, sp⟩ := c
    exact ((stmt?_visits ih.1.1).bind fun _ => (stmts_visits ih.1.2).returning _).consM
      (ihc ih.2)

/-- A launch that is reached is replaced, and what stands in it is passed over. -/
private theorem go_visits {call : Expr} {span : Span} (ih : ExprVisits launches services call) :
    StmtVisits launches services (.go call span) := by
  have hcall := ih .use .use
  cases hat : launches.at? span with
  | none =>
    have hact : (launchEditor launches services).stmt (.go call span) = (do
        return [.go (← (launchEditor launches services).expr .use call) span]) := by
      rw [Editor.stmt, launchEditor]
      simp [hat]
    rw [StmtVisits, hact, Stmt.events]
    exact (hcall.returning _).inStmt ⟨hat, by simp [Event.passedOver, hat]⟩
  | some l =>
    have hact : (launchEditor launches services).stmt (.go call span) = replaceLaunch
      services l := by
      rw [Editor.stmt, launchEditor]
      simp [hat]
    have hevent : Event.passedOver launches (.enter (.go call span)) =
        call.events Launches.traversal .use := by
      rw [Event.passedOver, hat, Option.isSome_some, if_pos rfl]
    rw [StmtVisits, hact, Stmt.events]
    refine Visits.before ⟨?_, ?_⟩ ⟨fun _ h => h, fun _ h => h⟩
    · rw [Launches.Within, Launches.passedOver_cons, hevent, goSpans_cons]
      exact List.subset_append_of_subset_right _
        (List.append_subset.mpr ⟨List.Subset.refl _, hcall.within⟩)
    · intro hnodup st stmts st' hrun
      have hspan : span ∉ goSpans (call.events Launches.traversal .use) :=
        (List.nodup_cons.mp hnodup).1
      rw [Launches.reached_go hat hcall.within hspan]
      rw [(replaceLaunch_run hrun).2]
      rfl

private theorem visits_steps : TreeSteps
    (fun t => launches.Within (t.events Launches.traversal))
    (ExprVisits launches services) (StmtVisits launches services) := by
  constructor
  case' toExprSteps => constructor
  case name =>
    intro pkg n args ih
    rw [TypeExpr.events]
    refine .type (by rw [TypeExpr.events]) ?_
    rw [typesEvents_eq]
    exact .flatMap ih
  case pointer | sliceType | chan | ellipsis | parenType =>
    intros
    rename_i ih
    exact .type (by rw [TypeExpr.events]) ih
  case array =>
    intro len t ihl iht
    refine .type (by rw [TypeExpr.events]) (.append ?_ iht)
    exact (expr?_visits ihl .use).within
  case map =>
    intro k v ihk ihv
    exact .type (by rw [TypeExpr.events]) (ihk.append ihv)
  case func =>
    intro sig ihp ihr
    refine .type (by rw [TypeExpr.events]) ?_
    rw [Signature.events_eq]
    exact .flatMap (List.forall_mem_append.mpr ⟨ihp, ihr⟩)
  case struct =>
    intro fs ih
    refine .type (by rw [TypeExpr.events]) ?_
    rw [fieldsEvents_eq]
    exact .flatMap ih
  case interface =>
    intro es ihm ihe
    refine .type (by rw [TypeExpr.events]) ?_
    rw [elemsEvents_eq]
    refine .flatMap fun e he => ?_
    cases e with
    | method id sig =>
      rw [InterfaceElem.events, Signature.events_eq]
      exact .flatMap (List.forall_mem_append.mpr (ihm id sig he))
    | embedded t => exact ihe t he
  case union =>
    intro ts ih
    refine .type (by rw [TypeExpr.events]) ?_
    rw [termsEvents_eq]
    exact .flatMap ih
  case ident | lit =>
    intros
    intro role role'
    exact (Visits.nothing _).cons ⟨rfl, rfl⟩
  case type =>
    intro t sp ih role role'
    have hty := (Visits.nothing (Expr.type t sp)).behind (.type ih)
    rw [List.append_nil] at hty
    exact hty.cons ⟨rfl, rfl⟩
  case composite =>
    intro ty elts sp iht ih ihkv role role'
    exact ((expr?_visits iht .use).bind fun _ => (elts_visits ih ihkv _).returning _).cons
      ⟨rfl, rfl⟩
  case funcLit =>
    intro sig body sp _ _ ihb role role'
    have hbody := (visits_inFunction sig (block_visits ihb)).returning fun b =>
      Expr.funcLit sig b sp
    have hclose : launches.Skips [.closeLit] := ⟨fun _ h => h, fun _ h => h⟩
    have hinside := (hbody.cons (e := .bodyLit sig) ⟨rfl, rfl⟩).cons (e := .openLit sig sp)
      ⟨rfl, rfl⟩
    exact (hinside.before hclose).cons ⟨rfl, rfl⟩
  case paren | selector | star | unary =>
    intros
    rename_i ih
    intro role role'
    exact ((ih .use .use).returning _).cons ⟨rfl, rfl⟩
  case index | call =>
    intros
    rename_i ihx ih
    intro role role'
    exact ((ihx .use .use).bind fun _ => (exprs_visits ih .use .use).returning _).cons ⟨rfl, rfl⟩
  case slice =>
    intro x low high max three sp ihx ihl ihh ihm role role'
    rw [Expr.events]
    simp only [List.append_assoc]
    exact ((ihx .use .use).bind fun _ => (expr?_visits ihl .use).bind fun _ =>
      (expr?_visits ihh .use).bind fun _ => (expr?_visits ihm .use).returning _).cons ⟨rfl, rfl⟩
  case typeAssert =>
    intro x ty sp ihx iht role role'
    have hty : launches.Skips (ty.toList.flatMap (TypeExpr.events Launches.traversal)) :=
      .flatMap fun t ht => .type (iht t (Option.mem_toList.mp ht))
    rw [Expr.events, typeEvents?_eq]
    exact (((ihx .use .use).returning _).before hty).cons ⟨rfl, rfl⟩
  case binary | keyValue =>
    intros
    rename_i ihx ihy
    intro role role'
    exact ((ihx .use .use).bind fun _ => (ihy .use .use).returning _).cons ⟨rfl, rfl⟩
  case decl =>
    intro d ihv iht
    obtain ⟨kind, ss, grouped, directives, sp⟩ := d
    exact (((specs_visits ihv iht).returning _).returning _ |>.returning _).inStmt ⟨rfl, rfl⟩
  case go => exact fun call sp ih => go_visits ih
  case labeled =>
    intro l s sp ih
    exact ((Visits.returning ih _).returning _).inStmt ⟨rfl, rfl⟩
  case exprStmt =>
    intro x ih
    exact (((ih .statement .statement).returning _).returning _).inStmt ⟨rfl, rfl⟩
  case send =>
    intro c v sp ihc ihv
    exact (((ihc .sendTarget .sendTarget).bind fun _ =>
      (ihv .use .use).returning _).returning _).inStmt ⟨rfl, rfl⟩
  case assign =>
    intro lhs op rhs sp ihl ihr
    exact (((exprs_visits ihl op.targetRole op.targetRole).bind fun _ =>
      (exprs_visits ihr .use .use).returning _).returning _).inStmt ⟨rfl, rfl⟩
  case incDec | defer =>
    intros
    rename_i ih
    exact (((ih .use .use).returning _).returning _).inStmt ⟨rfl, rfl⟩
  case returns =>
    intro xs sp ih
    exact (((exprs_visits ih .use .use).returning _).returning _).inStmt ⟨rfl, rfl⟩
  case branch | empty =>
    intros
    exact ((Visits.nothing _).returning _).inStmt ⟨rfl, rfl⟩
  case block =>
    intro b ih
    exact (((block_visits ih).returning _).returning _).inStmt ⟨rfl, rfl⟩
  case ifElse =>
    intro init c b els sp ihi ihc ihb ihe
    rw [StmtVisits, Stmt.events]
    simp only [List.append_assoc]
    exact (((stmt?_visits ihi).bind fun _ => (ihc .use .use).bind fun _ =>
      (block_visits ihb).bind fun _ => (stmt?_visits ihe).returning _).returning _).inStmt
        ⟨rfl, rfl⟩
  case switch =>
    intro init tag cs sp ihi iht ihc
    rw [StmtVisits, Stmt.events]
    simp only [List.append_assoc]
    exact (((stmt?_visits ihi).bind fun _ => (expr?_visits iht .use).bind fun _ =>
      (cases_visits ihc).returning _).returning _).inStmt ⟨rfl, rfl⟩
  case typeSwitch =>
    intro init id x cs sp ihi ihx ihc
    rw [StmtVisits, Stmt.events]
    simp only [List.append_assoc]
    exact (((stmt?_visits ihi).bind fun _ => (ihx .use .use).bind fun _ =>
      (cases_visits ihc).returning _).returning _).inStmt ⟨rfl, rfl⟩
  case select =>
    intro cs sp ih
    exact (((comms_visits ih).returning _).returning _).inStmt ⟨rfl, rfl⟩
  case loop =>
    intro init c post b sp ihi ihc ihp ihb
    rw [StmtVisits, Stmt.events]
    simp only [List.append_assoc]
    exact (((stmt?_visits ihi).bind fun _ => (expr?_visits ihc .use).bind fun _ =>
      (stmt?_visits ihp).bind fun _ => (block_visits ihb).returning _).returning _).inStmt
        ⟨rfl, rfl⟩
  case range =>
    intro k v d x b sp ihk ihv ihx ihb
    rw [StmtVisits, Stmt.events]
    simp only [List.append_assoc]
    exact (((range?_visits ihk (rangeRole d) (rangeRole d)).bind fun _ =>
      (range?_visits ihv (rangeRole d) (rangeRole d)).bind fun _ => (ihx .use .use).bind fun _ =>
        (block_visits ihb).returning _).returning _).inStmt ⟨rfl, rfl⟩

/-- Replacing the launches in a block notes those that are reached in it. -/
theorem launchEditor_visits_block (b : Block) :
    Visits launches ((launchEditor launches services).block b) (b.events Launches.traversal) :=
  block_visits fun s _ => visits_steps.stmt s

end

end ServiceSplit
