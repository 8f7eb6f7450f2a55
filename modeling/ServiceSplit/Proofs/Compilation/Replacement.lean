import Mathlib.Data.List.Flatten
import Mathlib.Data.List.Nodup
import Mathlib.Data.List.Perm.Basic
import ServiceSplit.Proofs.Compilation.Unchanged
import ServiceSplit.Proofs.Controller.Dispatches
import ServiceSplit.Proofs.Controller.GoStatements
import ServiceSplit.Proofs.Controller.Replaced

/-!
# Which launches are replaced

The launches of a program are found on one way through its functions and replaced on another one,
where a `go` statement is recognized by its span. Both ways come to the same launches, except for
those in types and in the arguments of other launches, which the second way passes over. Such a
launch stays in the controller, and if all launches of a function do, nothing is ever sent to its
service.

## Main definitions

* `Program.replaced`: the launches that are replaced.
* `Compilation.Replaces`: a controller dispatches where launches stood.

## Main results

* `Program.compile_replaces`: what becomes of the launches in a controller.
-/

namespace ServiceSplit

open Launches (traversal)

variable {program : Program} {launches : Launches} {services : List Service}

/-! ### Where launches are found -/

/-- Looking up keys in a list whose keys are some of them, in their order, gives the list. -/
theorem filterMap_find?_of_sublist {α β : Type} [DecidableEq β] {key : α → β} {xs : List α}
    {keys : List β} (h : (xs.map key).Sublist keys) (hnodup : keys.Nodup) :
    keys.filterMap (fun k => xs.find? (key · == k)) = xs := by
  induction keys generalizing xs with
  | nil =>
    rw [List.sublist_nil, List.map_eq_nil_iff] at h
    rw [h, List.filterMap_nil]
  | cons k keys ih =>
    obtain ⟨hk, hkeys⟩ := List.nodup_cons.mp hnodup
    rcases List.sublist_cons_iff.mp h with hsub | ⟨rest, hrest, hsub⟩
    · have hnone : xs.find? (key · == k) = none := by
        rw [List.find?_eq_none]
        intro x hx
        have hne : key x ≠ k := fun heq => hk (heq ▸ hsub.subset (List.mem_map_of_mem hx))
        simpa using hne
      rw [List.filterMap_cons, hnone, ih hsub hkeys]
    · obtain ⟨x, xs, rfl, rfl, rfl⟩ := List.map_eq_cons_iff.mp hrest
      have hfind : ∀ k ∈ keys, (x :: xs).find? (key · == k) = xs.find? (key · == k) := by
        intro k hkey
        have hne : key x ≠ k := fun heq => hk (heq ▸ hkey)
        simp [hne]
      rw [List.filterMap_cons, List.find?_cons_of_pos (by simp), List.filterMap_congr hfind,
        ih hsub hkeys]

namespace Launches.Search

variable (program : Program)

/-- An event adds a launch at most, at its `go` statement. -/
theorem step_sites_sublist (st : Search) (e : Event) :
    ((st.step program e).found.sites.map Launch.span).Sublist
      (st.found.sites.map Launch.span ++ goSpans [e]) := by
  cases e with
  | enter s =>
    cases s with
    | go call span =>
      simp only [step]
      cases hclass : Launch.Context.classify ⟨program, st.scopes, st.found.claimed⟩ span call with
      | error skipped => exact List.sublist_append_left _ _
      | ok l =>
        obtain rfl := (Launch.Context.exists_of_classify_eq_ok hclass).1
        rw [add, List.map_append]
        exact List.Sublist.refl _
    | _ => exact List.sublist_append_left _ _
  | _ => exact List.sublist_append_left _ _

theorem foldl_sites_sublist (events : List Event) (st : Search) :
    ((events.foldl (step program) st).found.sites.map Launch.span).Sublist
      (st.found.sites.map Launch.span ++ goSpans events) := by
  induction events generalizing st with
  | nil => exact List.sublist_append_left _ _
  | cons e events ih =>
    have hstep := (step_sites_sublist program st e).append_right (goSpans events)
    rw [List.append_assoc, ← goSpans_append] at hstep
    exact (ih (st.step program e)).trans hstep

/-- The launches found in a body are at its `go` statements, in their order. -/
theorem body_sites_sublist (found : Launches) (f : FuncDecl) :
    ((body program found f).sites.map Launch.span).Sublist
      (found.sites.map Launch.span ++ goSpans f.bodyEvents) := by
  unfold body FuncDecl.bodyEvents
  cases f.body with
  | none => exact List.sublist_append_left _ _
  | some b => exact foldl_sites_sublist program _ _

end Launches.Search

/-- The events among which launches are looked for in a declaration. -/
def Decl.bodyEvents : Decl → List Event
  | .func f => f.bodyEvents
  | .gen _ => []

/-- The events of a declaration outside of the body of a function. -/
def Decl.headEvents : Decl → List Event
  | .func f => fieldsEvents traversal f.recv.toList ++ fieldsEvents traversal f.typeParams ++
      f.sig.events traversal
  | .gen g => g.events traversal

theorem Decl.events_eq (d : Decl) : d.events traversal = d.headEvents ++ d.bodyEvents := by
  cases d with
  | func f => rfl
  | gen g => exact (List.append_nil _).symm

theorem map_start_goSpans (es : List Event) :
    ((goSpans es).map Span.start).Sublist (keyStarts es) := by
  have hkey : ∀ (e : Event) (span : Span), e.goSpan? = some span →
    e.keyStart? = some span.start := by
    intro e span h
    cases e with
    | enter s =>
      cases s <;> cases h
      rfl
    | _ => cases h
  induction es with
  | nil => exact List.Sublist.refl _
  | cons e es ih =>
    rw [keyStarts_cons, goSpans, List.filterMap_cons]
    cases hspan : e.goSpan? with
    | none => exact ih.trans (List.sublist_append_right _ _)
    | some span =>
      rw [hkey e span hspan]
      exact ih.cons_cons _

namespace Program

/-- The events among which launches are looked for in a program. -/
def bodyEvents (program : Program) : List Event :=
  program.file.decls.flatMap Decl.bodyEvents

theorem bodyEvents_eq (program : Program) :
    program.bodyEvents = program.file.functions.flatMap FuncDecl.bodyEvents := by
  rw [bodyEvents, File.functions]
  induction program.file.decls with
  | nil => rfl
  | cons d ds ih => cases d <;> simp [Decl.bodyEvents, ih]

/-- The launches of a program are at the `go` statements of its functions, in their order. -/
theorem sites_sublist (program : Program) :
    (program.launches.sites.map Launch.span).Sublist (goSpans program.bodyEvents) := by
  have hfold : ∀ (fs : List FuncDecl) (found : Launches),
      ((fs.foldl (Launches.Search.body program) found).sites.map Launch.span).Sublist
        (found.sites.map Launch.span ++ goSpans (fs.flatMap FuncDecl.bodyEvents)) := by
    intro fs
    induction fs with
    | nil => exact fun found => List.sublist_append_left _ _
    | cons f fs ih =>
      intro found
      have hbody := (Launches.Search.body_sites_sublist program found f).append_right
        (goSpans (fs.flatMap FuncDecl.bodyEvents))
      rw [List.append_assoc, ← goSpans_append] at hbody
      exact (ih _).trans hbody
  rw [bodyEvents_eq]
  exact hfold program.file.functions {}

/-- In a program whose `go` statements start at different places, no two of them are the same. -/
theorem goSpans_nodup (hkeys : (keys program.file.decls).Pairwise (· < ·)) :
    (goSpans (program.file.decls.flatMap Decl.headEvents) ++ goSpans program.bodyEvents).Nodup := by
  have hsub : (program.file.decls.flatMap (Decl.events traversal)).Sublist
      (program.file.decls.flatMap (Decl.events {})) :=
    List.Sublist.flatMap_right _ fun d _ => (d.thins_events traversal).sublist
  have hgo : ((goSpans (program.file.decls.flatMap (Decl.events traversal))).map Span.start).Sublist
      (keys program.file.decls) := by
    have heq : keyStarts (program.file.decls.flatMap (Decl.events {})) = keys program.file.decls :=
      keyStarts_flatMap _ _
    exact (map_start_goSpans _).trans (heq ▸ hsub.filterMap Event.keyStart?)
  have hnodup := List.Nodup.of_map _ ((hkeys.imp Nat.ne_of_lt).sublist hgo)
  rw [funext Decl.events_eq] at hnodup
  have hperm :=
    (List.flatMap_append_perm program.file.decls Decl.headEvents Decl.bodyEvents).filterMap
    Event.goSpan?
  rw [← goSpans_append]
  exact hperm.nodup_iff.mpr hnodup

theorem bodyEvents_nodup (hkeys : (keys program.file.decls).Pairwise (· < ·)) :
    (goSpans program.bodyEvents).Nodup :=
  (List.nodup_append.mp (goSpans_nodup hkeys)).2.1

/-- No launch stands outside of the bodies of functions. -/
theorem at?_eq_none_of_mem_headEvents
    (hkeys : (keys program.file.decls).Pairwise (· < ·)) {span : Span}
    (h : span ∈ goSpans (program.file.decls.flatMap Decl.headEvents)) :
    program.launches.at? span = none := by
  rw [Launches.at?, List.find?_eq_none]
  intro l hl hspan
  have hbody := program.sites_sublist.subset (List.mem_map_of_mem hl)
  exact (List.nodup_append.mp (goSpans_nodup hkeys)).2.2 _ h _ hbody (beq_iff_eq.mp hspan).symm

/-- The launches among the events of a program are its launches. -/
theorem among_bodyEvents (hnodup : (goSpans program.bodyEvents).Nodup) :
    program.launches.among program.bodyEvents = program.launches.sites :=
  filterMap_find?_of_sublist program.sites_sublist hnodup

/-- No launch is looked for in a declaration group. -/
theorem gen_freeOf (hkeys : (keys program.file.decls).Pairwise (· < ·))
    {g : GenDecl} (hg : .gen g ∈ program.file.decls) : (Decl.gen g).FreeOf program.launches := by
  obtain ⟨i, hi⟩ := List.mem_iff_getElem?.mp hg
  refine decl_freeOf hkeys hi (List.eq_nil_iff_forall_not_mem.mpr fun l hl => ?_)
  obtain ⟨f, hf, -⟩ := (program.exists_launchesIn i).2 l hl
  cases hi.symm.trans hf

/-- Replacing the launches in a declaration notes those that are reached in it. -/
theorem decl_visits (hkeys : (keys program.file.decls).Pairwise (· < ·))
    {d : Decl} (hd : d ∈ program.file.decls) :
    Visits program.launches ((launchEditor program.launches services).decl d) d.bodyEvents := by
  cases d with
  | gen g =>
    rw [launchEditor_decl (gen_freeOf hkeys hd)]
    exact .nothing _
  | func f =>
    simp only [Editor.decl, Decl.bodyEvents, FuncDecl.bodyEvents]
    cases f.body with
    | none => exact .nothing _
    | some b => exact (visits_inFunction f.sig (launchEditor_visits_block b)).returning _

/-- Replacing the launches of a program notes those that are reached in it. -/
theorem editedDecls_dispatched
    (hkeys : (keys program.file.decls).Pairwise (· < ·))
    {edited : List Decl} {progress : Progress}
    (h : program.editedDecls program.launches services = .ok (edited, progress)) :
    progress.dispatched = (program.launches.reached program.bodyEvents).map Launch.callee := by
  have hall : ∀ ds : List Decl, ds ⊆ program.file.decls → Visits program.launches
      (ds.mapM (launchEditor program.launches services).decl) (ds.flatMap Decl.bodyEvents) := by
    intro ds hds
    induction ds with
    | nil => exact .nothing _
    | cons d ds ih =>
      rw [List.cons_subset] at hds
      rw [List.mapM_cons, List.flatMap_cons]
      exact (decl_visits hkeys hds.1).consM (ih hds.2)
  exact (hall _ (List.Subset.refl _)).notes (bodyEvents_nodup hkeys) h

/-- Whether a launch is passed over: it stands in a type, or in a launch that is replaced. -/
def passesOver (program : Program) (l : Launch) : Bool :=
  (program.launches.passedOver program.bodyEvents).contains l.span

/-- The launches that are replaced. -/
def replaced (program : Program) : List Launch :=
  program.launches.sites.filter (!program.passesOver ·)

theorem reached_bodyEvents (hkeys : (keys program.file.decls).Pairwise (· < ·)) :
    program.launches.reached program.bodyEvents = program.replaced := by
  rw [Launches.reached, among_bodyEvents (bodyEvents_nodup hkeys)]
  rfl

/-- Where a `go` statement may stand when launches are replaced. -/
def KeepsGoAt (program : Program) (services : List Service) (span : Span) : Prop :=
  program.launches.at? span = none ∨ span ∈ program.launches.passedOver program.bodyEvents ∨
    ∃ l ∈ program.launches.sites, ∃ hasResults stmts, l.dispatch services hasResults = .ok stmts ∧
      span ∈ goSpans (stmts.flatMap (Stmt.events traversal))

end Program

/-! ### `go` statements -/

theorem Event.allHave_goIn {P : Span → Prop} {es : List Event} :
    AllHave (.goIn P) es ↔ ∀ span ∈ goSpans es, P span := by
  refine ⟨fun h span hspan => ?_, fun h e he => ?_⟩
  · obtain ⟨call, hcall⟩ := mem_goSpans.mp hspan
    exact h _ hcall span rfl
  · cases e with
    | enter s =>
      cases s with
      | go call span =>
        rintro _ ⟨⟩
        exact h span (mem_goSpans.mpr ⟨call, he⟩)
      | _ => exact nofun
    | openLit sig span => exact ⟨⟨[], span⟩, trivial⟩
    | _ => trivial

/-! ### Channel types -/

theorem TypeExpr.goSpans_chanElem_subset {t elem : TypeExpr} (h : t.chanElem = some elem) :
    goSpans (elem.events traversal) ⊆ goSpans (t.events traversal) := by
  fun_induction TypeExpr.chanElem t with
  | case1 dir e =>
    cases h
    exact fun _ h => h
  | case2 inner ih => exact ih h
  | case3 => cases h

namespace Function

theorem mem_collect {ds : List FuncDecl} {known : List Function} {f : Function}
    (h : f ∈ (collect ds known).1) : ∃ d ∈ ds, f = ofDecl d := by
  induction ds generalizing known with
  | nil => cases h
  | cons d ds ih =>
    rw [collect] at h
    split at h
    · obtain ⟨e, he, rfl⟩ := ih h
      exact ⟨e, List.mem_cons_of_mem d he, rfl⟩
    · rcases List.mem_cons.mp h with rfl | h
      · exact ⟨d, List.mem_cons_self, rfl⟩
      · obtain ⟨e, he, rfl⟩ := ih h
        exact ⟨e, List.mem_cons_of_mem d he, rfl⟩

/-- A parameter is one of those that a field of the signature declares. -/
theorem exists_of_mem_params {d : FuncDecl} {p : Param} (h : p ∈ (ofDecl d).params) :
    ∃ field ∈ d.sig.params, p.ty = field.ty ∧ p.elem? = field.ty.chanElem ∧
      ∀ name ∈ p.name?, ∃ id ∈ field.names, id.name = name := by
  obtain ⟨field, hfield, hp⟩ := List.mem_flatMap.mp h
  refine ⟨field, hfield, ?_⟩
  unfold Param.ofField at hp
  split at hp
  · rw [List.mem_singleton.mp hp]
    exact ⟨rfl, rfl, nofun⟩
  · obtain ⟨id, hid, rfl⟩ := List.mem_map.mp hp
    refine ⟨rfl, rfl, fun name hname => ⟨id, hid, ?_⟩⟩
    dsimp only at hname
    split at hname <;> cases hname
    rfl

/-- The element type of a callback is that of a channel type in the signature. -/
theorem exists_of_mem_callbacks {d : FuncDecl} {cb : Callback} (h : cb ∈ (ofDecl d).callbacks) :
    ∃ field ∈ d.sig.params, field.ty.chanElem = some cb.elem := by
  obtain ⟨p, hp, hcb⟩ := List.mem_filterMap.mp h
  split at hcb
  · rename_i name elem hname helem
    cases hcb
    obtain ⟨field, hfield, -, hchan, -⟩ := exists_of_mem_params hp
    exact ⟨field, hfield, hchan.symm.trans helem⟩
  · cases hcb

end Function

namespace Program

variable {path source : String}

/-- The functions of a program are those declared that can be launched. -/
theorem load_functions (h : Program.load path source = .ok program) :
    ∀ f ∈ program.functions,
      ∃ d, .func d ∈ program.file.decls ∧ d.isLaunchable = true ∧ f = .ofDecl d := by
  intro f hf
  rw [(load_eq_ok h).2, List.mem_mergeSort] at hf
  obtain ⟨d, hd, rfl⟩ := Function.mem_collect hf
  obtain ⟨hd, hlaunchable⟩ := List.mem_filter.mp hd
  exact ⟨d, File.mem_functions hd, hlaunchable, rfl⟩

/-- The channels of launches have the types of parameters. -/
theorem exists_param_of_mem_channels (hload : Program.load path source = .ok program) {l : Launch}
    (hl : l ∈ program.launches.sites) {c : ChannelArg} (hc : c ∈ l.channels) :
    ∃ d, .func d ∈ program.file.decls ∧ ∃ field ∈ d.sig.params,
    field.ty.chanElem = some c.elem := by
  obtain ⟨-, f, hf, hof⟩ := Program.exists_of_mem_sites hl
  obtain ⟨d, hd, -, rfl⟩ := load_functions hload f (List.mem_of_find?_eq_some hf)
  have hcallback : c.callback (Function.ofDecl d).name ∈ (Function.ofDecl d).callbacks := by
    rw [← hof.channels]
    exact List.mem_map_of_mem hc
  exact ⟨d, hd, Function.exists_of_mem_callbacks hcallback⟩

/-- The types of the channels of launches contain no launches. -/
theorem at?_eq_none_of_mem_elem (hload : Program.load path source = .ok program) {l : Launch}
    (hl : l ∈ program.launches.sites) {c : ChannelArg} (hc : c ∈ l.channels) {span : Span}
    (h : span ∈ goSpans (c.elem.events traversal)) : program.launches.at? span = none := by
  obtain ⟨d, hd, field, hfield, helem⟩ := exists_param_of_mem_channels hload hl hc
  refine at?_eq_none_of_mem_headEvents (load_gos hload) ?_
  obtain ⟨call, hcall⟩ := mem_goSpans.mp (TypeExpr.goSpans_chanElem_subset helem h)
  refine mem_goSpans.mpr ⟨call, List.mem_flatMap.mpr ⟨_, hd, ?_⟩⟩
  rw [Decl.headEvents, Signature.events_eq]
  exact List.mem_append_right _
    (List.mem_flatMap.mpr ⟨field, List.mem_append_left _ hfield, hcall⟩)

/-! ### What remains -/

/-- Where dispatches are put in place of launches, the `go` statements that remain are no launches,
or stand in types or in dispatches. -/
theorem putsGo (hload : Program.load path source = .ok program) (services : List Service) :
    program.launches.Puts services (.typesGoIn (program.KeepsGoAt services))
      (.goIn (program.KeepsGoAt services)) fun _ => True where
  kept _ _ hgo span hspan := .inl (hgo span hspan)
  dispatch l hl hasResults := by
    cases hstmts : l.dispatch services hasResults with
    | error e => trivial
    | ok stmts =>
      refine Event.allHave_flatMap.mp (Event.allHave_goIn.mpr fun span hspan => ?_)
      exact .inr (.inr ⟨l, hl, hasResults, stmts, hstmts, hspan⟩)
  slots l hl c hc :=
    Event.allHave_goIn.mpr fun span hspan => .inl (at?_eq_none_of_mem_elem hload hl hc hspan)

theorem every_goIn_of_headEvents (hload : Program.load path source = .ok program)
    (services : List Service) {d : Decl} (hd : d ∈ program.file.decls) :
    Event.AllHave (.goIn (program.KeepsGoAt services)) d.headEvents := by
  refine Event.allHave_goIn.mpr fun span hspan => ?_
  obtain ⟨call, hcall⟩ := mem_goSpans.mp hspan
  exact .inl (at?_eq_none_of_mem_headEvents (load_gos hload)
    (mem_goSpans.mpr ⟨call, List.mem_flatMap.mpr ⟨d, hd, hcall⟩⟩))

/-- The `go` statements in a declaration in which launches are replaced are no launches, or are
passed over, or stand in a dispatch. -/
theorem gives_decl (hload : Program.load path source = .ok program) (services : List Service)
    {d : Decl} (hd : d ∈ program.file.decls) :
    (replacing (fun _ => True) (.goIn (program.KeepsGoAt services))).Gives
      ((launchEditor program.launches services).decl d)
      (Decl.Every (.goIn (program.KeepsGoAt services))) := by
  have hhead := every_goIn_of_headEvents hload services hd
  cases d with
  | gen g =>
    rw [launchEditor_decl (gen_freeOf (load_gos hload) hd)]
    exact Outcomes.pure _ hhead
  | func f =>
    have hnone := Event.allHave_append.mpr ⟨hhead, Event.allHave_nil⟩
    refine (gives_launchEditor_func NodeProp.rerouted_goIn NodeProp.covers_goIn
      (putsGo hload services) hnone fun b hb => ?_).mono fun _ ⟨_, _, hd⟩ => hd
    refine Block.allHave_events.mp fun e he => ?_
    cases e with
    | type t =>
      refine Event.allHave_goIn.mpr fun span hspan => .inr (.inl ?_)
      have hmem : Event.type t ∈ program.bodyEvents := by
        refine List.mem_flatMap.mpr ⟨_, hd, ?_⟩
        rw [Decl.bodyEvents, FuncDecl.bodyEvents, hb]
        exact he
      obtain ⟨call, hcall⟩ := mem_goSpans.mp hspan
      exact mem_goSpans.mpr ⟨call, List.mem_flatMap.mpr ⟨_, hmem, hcall⟩⟩
    | openLit sig span => exact ⟨⟨[], span⟩, trivial⟩
    | _ => trivial

theorem every_goIn_editedDecls (hload : Program.load path source = .ok program) {edited : List Decl}
    {progress : Progress}
    (h : program.editedDecls program.launches services = .ok (edited, progress)) :
    ∀ d ∈ edited, d.Every (.goIn (program.KeepsGoAt services)) := by
  have hall := Outcomes.Gives.mapM (fun d hd => gives_decl hload services hd) {}
    (List.forall_mem_nil _)
  rw [editedDecls] at h
  rw [h] at hall
  intro d hd
  obtain ⟨-, -, hd⟩ := hall.1 d hd
  exact hd

end Program

/-! ### Controllers -/

variable {config : Config} {c : Compilation} {path source : String}

/-- The function is one that is launched, and nothing in the declarations mentions it. -/
def FuncDecl.IsUnused (f : FuncDecl) (program : Program) (edited : List Decl) : Prop :=
  f.recv = none ∧ f.name.name ∈ program.launches.callees ∧ ¬Mentions edited f.name.name

/-- Launches are replaced in a compilation, whose controller has the declarations `edited` and
`added`: each launch that is not passed over is dispatched once, in the order of the text, and the
`go` statements that remain are no launches, or are passed over, or stand in a dispatch. -/
structure Compilation.Replaces (program : Program) (c : Compilation) (edited added : List Decl) :
    Prop where
  keeps : c.KeepsDecls program edited added
  dispatched : ∃ progress,
    program.editedDecls program.launches c.services = .ok (edited, progress) ∧
    progress.dispatched = program.replaced.map Launch.callee
  /-- The dispatches stand in the functions of the controller where launches stood, unless a
  function goes because it is launched and nothing mentions it. -/
  placed : ∀ (i : Nat) f, program.file.decls[i]? = some (.func f) → ∀ b ∈ f.body, ∃ b',
    b.Replaced program.launches b' ∧ edited[i]? = some (.func { f with body := some b' }) ∧
      (.func { f with body := some b' } ∈ c.controller.file.decls ∨ f.IsUnused program edited)
  services : c.controller.services = (program.replaced.map Launch.callee).eraseDups
  remaining : ∀ call span, .enter (.go call span) ∈ edited.flatMap (Decl.events traversal) →
    program.KeepsGoAt c.services span

/-- The functions of a controller. -/
theorem Compilation.KeepsDecls.exists_replaced {edited added : List Decl}
    (h : c.KeepsDecls program edited added) {i : Nat} {f : FuncDecl}
    (hf : program.file.decls[i]? = some (.func f)) {b : Block} (hb : f.body = some b) :
    ∃ b', b.Replaced program.launches b' ∧ edited[i]? = some (.func { f with body := some b' }) ∧
      (.func { f with body := some b' } ∈ c.controller.file.decls ∨ f.IsUnused program edited) := by
  obtain ⟨progress, hedited⟩ := h.edits
  have hall := forall₂_of_mapM_run_eq_ok hedited
  obtain ⟨hi, hget⟩ := List.getElem?_eq_some_iff.mp hf
  have hi' : i < edited.length := hall.length_eq ▸ hi
  obtain ⟨st, st', hrun⟩ := hall.get hi hi'
  simp only [List.get_eq_getElem, hget] at hrun
  obtain ⟨b', hd, hreplaced⟩ := replaced_of_decl_run hb hrun
  have hat : edited[i]? = some (.func { f with body := some b' }) := by
    rw [List.getElem?_eq_getElem hi', hd]
  refine ⟨b', hreplaced, hat, ?_⟩
  cases hdrops : program.drops edited (.func { f with body := some b' }) with
  | false =>
    refine .inl ?_
    rw [h.decls]
    exact List.mem_append_left _ (List.mem_filter.mpr ⟨List.mem_of_getElem? hat, by simp [hdrops]⟩)
  | true =>
    simp only [Program.drops, FuncDecl.isMethod, Bool.and_eq_true, Bool.not_eq_true',
      Option.isSome_eq_false_iff, Option.isNone_iff_eq_none, List.contains_iff_mem,
      decide_eq_false_iff_not] at hdrops
    exact .inr ⟨hdrops.1.1, hdrops.1.2, hdrops.2⟩

theorem Program.exists_replaces (hload : Program.load path source = .ok program)
    (h : program.compile config = .ok c) : ∃ edited added, c.Replaces program edited added := by
  obtain ⟨edited, added, hkeeps, -⟩ := Program.exists_keepsDecls (Program.load_gos hload) h
  obtain ⟨-, -, hcontroller⟩ := Program.exists_of_compile_eq_ok h
  obtain ⟨edited', progress, -, hedited, -, -, -, hservices⟩ :=
    Program.exists_of_controller_eq_ok hcontroller
  obtain ⟨progress', hedited'⟩ := hkeeps.edits
  cases hedited.symm.trans hedited'
  have hdispatched : progress.dispatched = program.replaced.map Launch.callee := by
    rw [Program.editedDecls_dispatched (Program.load_gos hload) hedited,
      Program.reached_bodyEvents (Program.load_gos hload)]
  refine ⟨edited, added, hkeeps, ⟨progress, hedited, hdispatched⟩,
    fun i f hf b hb => hkeeps.exists_replaced hf hb, ?_, fun call span hmem => ?_⟩
  · rw [hservices, hdispatched]
  · obtain ⟨d, hd, hmem⟩ := List.mem_flatMap.mp hmem
    exact Program.every_goIn_editedDecls hload hedited d hd _ hmem span rfl

end ServiceSplit
