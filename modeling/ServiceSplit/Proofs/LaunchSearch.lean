import ServiceSplit.Proofs.Compilation.Replacement
import ServiceSplit.Proofs.Tree.Parts

/-!
# Every launch is found once

The search for the launches of a program reports each `go` statement of a function body, either as a
launch that is replaced or as one that stays, and reports nothing else. A launch that is replaced
takes its channels from declarations in the same function, and no other one takes them from the same
declarations, since they are claimed.
-/

namespace ServiceSplit

namespace Launches

/-- The `go` statements that are reported. -/
def spans (ls : Launches) : List Span :=
  ls.sites.map Launch.span ++ ls.skipped.map SkippedLaunch.span

/-- No two launches that are replaced share the declaration of a channel. -/
def Apart (ls : Launches) : Prop :=
  ls.sites.Pairwise fun a b => ∀ c ∈ a.channels, ∀ d ∈ b.channels, c.decl ≠ d.decl

/-- The channels of a launch are declared among some events. -/
def DeclaredIn (events : List Event) (l : Launch) : Prop :=
  ∀ c ∈ l.channels, ∃ s, .leave s ∈ events ∧ s.isChannelDecl c.arg = true ∧ s.span = c.decl

theorem DeclaredIn.mono {es fs : List Event} {l : Launch} (h : DeclaredIn es l) (hsub : es ⊆ fs) :
    DeclaredIn fs l := by
  intro c hc
  obtain ⟨s, hs, hdecl⟩ := h c hc
  exact ⟨s, hsub hs, hdecl⟩

end Launches

/-! ### One `go` statement -/

namespace Launch.Context

variable {ctx : Context} {function : String}

/-- The channels of a launch are local ones that no other launch has claimed. -/
theorem classify_origin {span : Span} {call : Expr} {l : Launch}
    (h : ctx.classify span call = .ok l) :
    ∀ c ∈ l.channels, ctx.scopes.channelDecl? c.arg = some c.decl ∧ c.decl ∉ ctx.claimed := by
  obtain ⟨fn, args, spread, sp, f, rfl, -, h⟩ := exists_launchOf_of_classify h
  obtain ⟨-, -, -, horigin⟩ := launchOf_eq_ok h
  intro c hc
  have hc := horigin c hc
  unfold channelOrigin at hc
  split at hc
  · cases hc
  · rename_i decl hdecl
    split at hc
    · cases hc
    · rename_i hclaimed
      cases hc
      exact ⟨hdecl, by simpa using hclaimed⟩

/-- A `go` statement that stays is reported at its place. -/
theorem span_of_classify_eq_error {span : Span} {call : Expr} {s : SkippedLaunch}
    (h : ctx.classify span call = .error s) : s.span = span := by
  unfold classify at h
  split at h
  · split at h
    · cases h
      rfl
    · rename_i f hcallee
      generalize ctx.launchOf span f _ _ = result at h
      cases result with
      | ok l => cases h
      | error reason =>
        cases h
        rfl
  · cases h
    rfl

end Launch.Context

/-! ### Channels in scope -/

namespace Scopes

/-- The channels in scope are those that statements on the way have declared. -/
def Traced (events : List Event) (scopes : Scopes) : Prop :=
  ∀ f ∈ scopes.frames, ∀ name span, (name, some span) ∈ f.names →
    ∃ s, .leave s ∈ events ∧ s.isChannelDecl name = true ∧ s.span = span

variable {events more : List Event} {scopes : Scopes}

theorem Traced.mono (h : scopes.Traced events) (hsub : events ⊆ more) : scopes.Traced more := by
  intro f hf name span hname
  obtain ⟨s, hs, hdecl⟩ := h f hf name span hname
  exact ⟨s, hsub hs, hdecl⟩

theorem Traced.bindAs (h : scopes.Traced events) {name : String} {channel : Option Span}
    (hchannel : ∀ span, channel = some span →
      ∃ s, .leave s ∈ events ∧ s.isChannelDecl name = true ∧ s.span = span) :
    (scopes.bindAs name channel).Traced events := by
  intro f hf other span hother
  rcases List.mem_cons.mp hf with rfl | hf
  · simp only [Scopes.bindAs, Frame.bind] at hother
    split at hother
    · exact h _ List.mem_cons_self other span hother
    · rcases List.mem_cons.mp hother with heq | hother
      · cases heq
        exact hchannel span rfl
      · exact h _ List.mem_cons_self other span hother
  · exact h f (List.mem_cons_of_mem _ hf) other span hother

theorem Traced.bindAll (h : scopes.Traced events) (names : List String) :
    (scopes.bindAll names).Traced events := by
  unfold Scopes.bindAll
  induction names generalizing scopes with
  | nil => exact h
  | cons name names ih => exact ih (h.bindAs nofun)

theorem Traced.bindDeclared (h : scopes.Traced events) {s : Stmt} (hs : .leave s ∈ events) :
    (scopes.bindDeclared s).Traced events := by
  unfold Scopes.bindDeclared
  generalize s.declaredNames = names
  induction names generalizing scopes with
  | nil => exact h
  | cons name names ih =>
    refine ih (h.bindAs fun span hspan => ?_)
    split at hspan
    · rename_i hchannel
      exact ⟨s, hs, hchannel, Option.some.inj hspan⟩
    · cases hspan

theorem Traced.opened (h : scopes.Traced events) (isFunction : Bool) :
    Traced events ⟨⟨[], isFunction⟩, scopes.frames⟩ := by
  intro f hf
  rcases List.mem_cons.mp hf with rfl | hf
  · exact fun _ _ hname => nomatch hname
  · exact h f hf

theorem Traced.pop (h : scopes.Traced events) : scopes.pop.Traced events := by
  unfold Scopes.pop
  split
  · rename_i f fs houter
    intro g hg
    exact h g (List.mem_cons_of_mem _ (houter ▸ hg))
  · exact h

/-- A channel that is found in scope was declared by a statement on the way. -/
theorem Traced.exists_of_channelDecl? (h : scopes.Traced events) {name : String} {span : Span}
    (hname : scopes.channelDecl? name = some span) :
    ∃ s, .leave s ∈ events ∧ s.isChannelDecl name = true ∧ s.span = span := by
  unfold Scopes.channelDecl? at hname
  unfold Traced at h
  generalize scopes.frames = frames at h hname
  induction frames with
  | nil => cases hname
  | cons f fs ih =>
    obtain ⟨hf, hfs⟩ := List.forall_mem_cons.mp h
    rw [Scopes.channelDecl?.go] at hname
    split at hname
    · rename_i channel hfind
      subst hname
      obtain ⟨front, back, hnames, -⟩ := List.lookup_eq_some_iff.mp hfind
      exact hf name span (hnames ▸ List.mem_append_right _ List.mem_cons_self)
    · split at hname
      · cases hname
      · exact ih hfs hname

end Scopes

/-! ### The search -/

namespace Launches.Search

variable (program : Program)

/-- An event adds its `go` statement to the report, and nothing else. -/
theorem step_spans (st : Search) (e : Event) :
    (st.step program e).found.spans.Perm (st.found.spans ++ goSpans [e]) := by
  cases e with
  | enter s =>
    cases s with
    | go call span =>
      simp only [step]
      cases hclass : Launch.Context.classify ⟨program, st.scopes, st.found.claimed⟩ span call with
      | error skipped =>
        obtain rfl := Launch.Context.span_of_classify_eq_error hclass
        simp only [add, spans, List.map_append, List.append_assoc]
        exact List.Perm.refl _
      | ok l =>
        obtain rfl := (Launch.Context.exists_of_classify_eq_ok hclass).1
        simp only [add, spans, List.map_append, List.append_assoc]
        exact List.perm_append_comm.append_left _
    | _ => exact (List.append_nil _).symm ▸ List.Perm.refl _
  | _ => exact (List.append_nil _).symm ▸ List.Perm.refl _

theorem foldl_spans (events : List Event) (st : Search) :
    (events.foldl (step program) st).found.spans.Perm (st.found.spans ++ goSpans events) := by
  induction events generalizing st with
  | nil => exact (List.append_nil _).symm ▸ List.Perm.refl _
  | cons e events ih =>
    have hstep := (step_spans program st e).append_right (goSpans events)
    rw [List.append_assoc, ← goSpans_append] at hstep
    exact (ih (st.step program e)).trans hstep

/-- A launch that is replaced takes channels that are still free. -/
theorem Apart.step {st : Search} (h : st.found.Apart) (e : Event) :
    (st.step program e).found.Apart := by
  cases e with
  | enter s =>
    cases s with
    | go call span =>
      simp only [Search.step]
      cases hclass : Launch.Context.classify ⟨program, st.scopes, st.found.claimed⟩ span call with
      | error skipped => exact h
      | ok l =>
        refine List.pairwise_append.mpr ⟨h, List.pairwise_singleton _ _, ?_⟩
        intro a ha b hb c hc d hd heq
        rw [List.mem_singleton.mp hb] at hd
        refine (Launch.Context.classify_origin hclass d hd).2 (List.mem_flatMap.mpr ⟨a, ha, ?_⟩)
        exact heq ▸ List.mem_map_of_mem hc
    | _ => exact h
  | _ => exact h

theorem Apart.foldl {st : Search} (h : st.found.Apart) (events : List Event) :
    (events.foldl (Search.step program) st).found.Apart := by
  induction events generalizing st with
  | nil => exact h
  | cons e events ih => exact ih (Apart.step program h e)

/-- The channels in scope are those of declarations on the way. -/
theorem traced_step {seen : List Event} {st : Search} (h : st.scopes.Traced seen) (e : Event) :
    (st.step program e).scopes.Traced (seen ++ [e]) := by
  have hseen := h.mono (List.subset_append_left seen [e])
  cases e with
  | enter s =>
    simp only [step]
    split
    · exact (hseen.opened false).bindAll _
    · exact hseen
  | leave s =>
    refine Scopes.Traced.bindDeclared ?_ (List.mem_append_right _ (List.mem_singleton_self _))
    split
    · exact hseen.pop
    · exact hseen
  | openLit sig span => exact (hseen.opened true).bindAll _
  | closeLit => exact hseen.pop
  | _ => exact hseen

/-- A launch that is replaced takes channels that were declared on the way. -/
theorem declared_step {seen : List Event} {st : Search} (h : st.scopes.Traced seen) (e : Event)
    {l : Launch} (hl : l ∈ (st.step program e).found.sites) :
    l ∈ st.found.sites ∨ (l.FoundIn program [e] ∧ DeclaredIn seen l) := by
  cases e with
  | enter s =>
    cases s with
    | go call span =>
      simp only [step] at hl
      cases hclass : Launch.Context.classify ⟨program, st.scopes, st.found.claimed⟩ span call with
      | error skipped =>
        rw [hclass] at hl
        exact .inl hl
      | ok new =>
        rw [hclass] at hl
        rcases List.mem_append.mp hl with hl | hl
        · exact .inl hl
        · obtain rfl := List.mem_singleton.mp hl
          obtain rfl := (Launch.Context.exists_of_classify_eq_ok hclass).1
          refine .inr ⟨⟨_, call, List.mem_singleton_self _, rfl, hclass⟩, fun c hc => ?_⟩
          exact h.exists_of_channelDecl? (Launch.Context.classify_origin hclass c hc).1
    | _ => exact .inl hl
  | _ => exact .inl hl

theorem declared_foldl {seen : List Event} {st : Search} (h : st.scopes.Traced seen)
    (events : List Event) {l : Launch} (hl : l ∈ (events.foldl (step program) st).found.sites) :
    l ∈ st.found.sites ∨ (l.FoundIn program events ∧ DeclaredIn (seen ++ events) l) := by
  induction events generalizing seen st with
  | nil => exact .inl hl
  | cons e events ih =>
    rcases ih (traced_step program h e) hl with hl | ⟨⟨ctx, call, hmem, hctx⟩, hdeclared⟩
    · rcases declared_step program h e hl with hl | ⟨⟨ctx, call, hmem, hctx⟩, hdeclared⟩
      · exact .inl hl
      · exact .inr ⟨⟨ctx, call, List.mem_singleton.mp hmem ▸ List.mem_cons_self, hctx⟩,
          hdeclared.mono (List.subset_append_left _ _)⟩
    · rw [List.append_assoc, List.singleton_append] at hdeclared
      exact .inr ⟨⟨ctx, call, List.mem_cons_of_mem e hmem, hctx⟩, hdeclared⟩

theorem traced_bodyScopes (f : FuncDecl) : (bodyScopes f).Traced [] := by
  have hempty : Scopes.Traced [] {} := by
    intro g hg
    rw [List.mem_singleton.mp hg]
    exact fun _ _ hname => nomatch hname
  exact ((hempty.bindAll _).bindAll _).bindAll _

/-- What the bodies of some functions add to what was found. -/
structure Extends (fs : List FuncDecl) (found found' : Launches) : Prop where
  spans : found'.spans.Perm (found.spans ++ goSpans (fs.flatMap FuncDecl.bodyEvents))
  apart : found.Apart → found'.Apart
  sites : ∀ l ∈ found'.sites, l ∈ found.sites ∨
    ∃ f ∈ fs, l.FoundIn program f.bodyEvents ∧ DeclaredIn f.bodyEvents l

theorem extends_nil (found : Launches) : Extends program [] found found :=
  ⟨(List.append_nil _).symm ▸ List.Perm.refl _, id, fun _ => .inl⟩

theorem extends_body (found : Launches) (f : FuncDecl) :
    Extends program [f] found (body program found f) := by
  unfold body
  cases hbody : f.body with
  | none =>
    have hevents : f.bodyEvents = [] := by rw [FuncDecl.bodyEvents, hbody]; rfl
    refine ⟨?_, id, fun _ => .inl⟩
    rw [List.flatMap_singleton, hevents]
    exact (List.append_nil _).symm ▸ List.Perm.refl _
  | some b =>
    have hevents : f.bodyEvents = b.events traversal := by rw [FuncDecl.bodyEvents, hbody]; rfl
    refine ⟨?_, fun h => Apart.foldl program h _, fun l hl => ?_⟩
    · rw [List.flatMap_singleton, hevents]
      exact foldl_spans program _ _
    · rcases declared_foldl program (traced_bodyScopes f) _ hl with hl | hl
      · exact .inl hl
      · exact .inr ⟨f, List.mem_singleton_self f, hevents ▸ hl⟩

variable {program} in
theorem Extends.trans {fs gs : List FuncDecl} {a b c : Launches} (hab : Extends program fs a b)
    (hbc : Extends program gs b c) : Extends program (fs ++ gs) a c where
  spans := by
    have hspans := hbc.spans.trans (hab.spans.append_right _)
    rwa [List.append_assoc, ← goSpans_append, ← List.flatMap_append] at hspans
  apart := hbc.apart ∘ hab.apart
  sites := by
    intro l hl
    rcases hbc.sites l hl with hl | ⟨g, hg, hfound⟩
    · refine (hab.sites l hl).imp_right ?_
      rintro ⟨f, hf, hfound⟩
      exact ⟨f, List.mem_append_left gs hf, hfound⟩
    · exact .inr ⟨g, List.mem_append_right fs hg, hfound⟩

theorem extends_foldl (fs : List FuncDecl) (found : Launches) :
    Extends program fs found (fs.foldl (body program) found) := by
  induction fs generalizing found with
  | nil => exact extends_nil program found
  | cons f fs ih => exact (extends_body program found f).trans (ih _)

end Launches.Search

namespace Program

/-- A `go` statement that stands in the body of a function, outside types, is entered on the way
through the body. -/
theorem enter_mem_bodyEvents {f : FuncDecl} {b : Block} (hbody : f.body = some b) {s : Stmt}
    (hs : s ∈ b.stmts) {call : Expr} {span : Span}
    (h : (Part.stmt s).Contains (.stmt (.go call span))) :
    .enter (.go call span) ∈ f.bodyEvents := by
  have hevents : f.bodyEvents = b.stmts.flatMap (Stmt.events Launches.traversal) := by
    rw [FuncDecl.bodyEvents, hbody, ← Block.events_eq]
    rfl
  have hskip : ∀ k : Part, k.isSkipped Launches.traversal = false := fun k => by cases k <;> rfl
  have henter : .enter (.go call span) ∈ (Stmt.go call span).events Launches.traversal := by
    rw [Stmt.events]
    exact List.mem_cons_self
  rw [hevents]
  exact List.mem_flatMap.mpr ⟨s, hs, h.events_subset hskip henter⟩

/-- What a search for launches reports: each `go` statement in the body of a function or method,
outside types and at any depth, once, and nothing but `go` statements. The channels of a launch that
is replaced are declared in its function, and no two launches share a declaration. -/
structure Reports (program : Program) (ls : Launches) : Prop where
  once : ∀ f ∈ program.file.functions, ∀ b ∈ f.body, ∀ s ∈ b.stmts, ∀ call span,
    (Part.stmt s).Contains (.stmt (.go call span)) → ls.spans.count span = 1
  only : ∀ span ∈ ls.spans, ∃ f ∈ program.file.functions, ∃ call,
    .enter (.go call span) ∈ f.bodyEvents
  each : ls.spans.Perm (goSpans program.bodyEvents)
  channels : ∀ l ∈ ls.sites, ∃ f ∈ program.file.functions, ∃ call,
    .enter (.go call l.span) ∈ f.bodyEvents ∧ ∀ c ∈ l.channels, ∃ s,
      .leave s ∈ f.bodyEvents ∧ s.isChannelDecl c.arg = true ∧ s.span = c.decl
  apart : ls.sites.Pairwise fun a b => ∀ c ∈ a.channels, ∀ d ∈ b.channels, c.decl ≠ d.decl

/-- Every `go` statement of a program is reported once, and no two launches that are replaced share
a channel declaration. -/
theorem launches_reports {path source : String} {program : Program}
    (hload : Program.load path source = .ok program) : program.Reports program.launches := by
  have hextends : Launches.Search.Extends program program.file.functions {} program.launches :=
    Launches.Search.extends_foldl program program.file.functions {}
  have heach : program.launches.spans.Perm (goSpans program.bodyEvents) := by
    rw [bodyEvents_eq]
    exact hextends.spans
  have hnodup : program.launches.spans.Nodup :=
    heach.nodup_iff.mpr (bodyEvents_nodup (load_gos hload))
  refine ⟨?_, ?_, heach, ?_, hextends.apart List.Pairwise.nil⟩
  · intro f hf b hb s hs call span hgo
    refine List.count_eq_one_of_mem hnodup (heach.mem_iff.mpr (mem_goSpans.mpr ⟨call, ?_⟩))
    rw [bodyEvents_eq]
    exact List.mem_flatMap.mpr ⟨f, hf, enter_mem_bodyEvents hb hs hgo⟩
  · intro span hspan
    obtain ⟨call, hcall⟩ := mem_goSpans.mp (heach.subset hspan)
    rw [bodyEvents_eq] at hcall
    obtain ⟨f, hf, hcall⟩ := List.mem_flatMap.mp hcall
    exact ⟨f, hf, call, hcall⟩
  · intro l hl
    rcases hextends.sites l hl with hl | ⟨f, hf, ⟨ctx, call, hcall, -⟩, hdeclared⟩
    · cases hl
    · exact ⟨f, hf, call, hcall, hdeclared⟩

end Program

/-- A method with a launch in an argument of another one, and with one more on the same channel
under a label. -/
def nestedLaunches : String :=
  "package main

func f(n int, out chan int) \x7b
\tout <- n
\x7d

func (b T) m() \x7b
\tch := make(chan int)
\tgo f(func() int \x7b
\t\tin := make(chan int)
\t\tgo f(1, in)
\t\treturn <-in
\t\x7d(), ch)
L:
\tgo f(2, ch)
\tgoto L
\x7d
"

/-- What is found in the text. -/
def nestedLaunchesFound : {text : String // readsProgram (fun program =>
    decide ((program.launches.sites.map fun l => (l.span, l.channels.map ChannelArg.arg)) =
      [(.range 97 175, ["ch"]), (.range 140 151, ["in"])]) &&
    decide ((program.launches.skipped.map fun s => (s.span, s.reason)) =
      [(.range 180 191, .sharedChannel "ch")])) text.toList = true} := by
  refine ⟨nestedLaunches, ?_⟩
  rw [nestedLaunches]
  simp only [String.reduceToList]
  decide +kernel

theorem nestedLaunches_reports : ∃ program, Program.load "main.go" nestedLaunches = .ok program ∧
    program.Reports program.launches ∧
      (program.launches.sites.map fun l => (l.span, l.channels.map ChannelArg.arg)) =
        [(.range 97 175, ["ch"]), (.range 140 151, ["in"])] ∧
      (program.launches.skipped.map fun s => (s.span, s.reason)) =
        [(.range 180 191, .sharedChannel "ch")] := by
  obtain ⟨program, hload, hfound⟩ := Program.exists_load "main.go" nestedLaunchesFound.2
  rw [Bool.and_eq_true, decide_eq_true_eq, decide_eq_true_eq] at hfound
  exact ⟨program, hload, Program.launches_reports hload, hfound⟩

end ServiceSplit
