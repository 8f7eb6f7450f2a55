import ServiceSplit.Compilation
import ServiceSplit.Proofs.Compilation.Intact
import ServiceSplit.Proofs.Compilation.Replacement
import ServiceSplit.Proofs.Controller.Routes
import ServiceSplit.Proofs.Service.Fields
import ServiceSplit.Proofs.Service.Places

/-!
# Why compiling fails

All trees that are printed when a program is split have texts: the types and arguments that go into
generated text, and the programs of the services and of the controller. Only generated text may fail
to be read. What is wrong in the program itself stands at a place in it.

## Main definitions

* `Failure.Accounted`: no tree of the program is at fault, and what is wrong in it has a place.
* `PrintsTrees`: the result is no failure to print a tree.

## Main results

* `Program.gives_compile`: the failures of a compilation are accounted for.
* `trees_printed`: all trees can be printed.
-/

namespace ServiceSplit

/-- If something cannot be printed, it is generated text that cannot be read; and what is wrong in
the program stands at a place with the property `σ`. -/
def Failure.Accounted (σ : Span → Prop) : Failure → Prop
  | unprintable _ e => ∃ cause text, e = .generated cause text
  | badSyntax _ errors => errors ≠ [] ∧ ∀ e ∈ errors, σ e.span
  | secondSend _ _ span | channelMisuse _ _ _ span | packageVariable _ _ span => σ span
  | _ => True

/-- Computations that fail for such reasons only. -/
abbrev accounted (σ : Span → Prop) : Outcomes (Except Failure) :=
  .orError (Failure.Accounted σ)

variable {σ τ : Span → Prop}

/-! ### What is known of spans -/

theorem Expr.Intact.mono (hτ : ∀ sp, σ sp → τ sp) {x : Expr} (h : x.Intact (.withText σ)) :
    x.Intact (.withText τ) := by
  cases x with
  | ident | funcLit => exact ⟨h.1, hτ _ h.2⟩
  | _ => exact h

theorem Stmt.Intact.mono (hτ : ∀ sp, σ sp → τ sp) {s : Stmt} (h : s.Intact (.withText σ)) :
    s.Intact (.withText τ) := by
  cases s with
  | decl d => exact ⟨h.specs, hτ _ h.span⟩
  | labeled => exact ⟨h.1, hτ _ h.2⟩
  | send | returns | range => exact hτ _ h
  | assign => exact ⟨h.1, h.2.1, hτ _ h.2.2⟩
  | typeSwitch => exact ⟨h.1, h.2.1, fun id hid => ⟨(h.2.2 id hid).1, hτ _ (h.2.2 id hid).2⟩⟩
  | _ => exact h

theorem Decl.Intact.mono (hτ : ∀ sp, σ sp → τ sp) {d : Decl} (h : d.Intact (.withText σ)) :
    d.Intact (.withText τ) where
  every := Event.AllHave.mono h.every (fun _ ht => ht) (fun _ => Expr.Intact.mono hτ)
    fun _ => Stmt.Intact.mono hτ
  head := by
    have hhead := h.head
    cases d with
    | func f => exact ⟨⟨hhead.1.1, hτ _ hhead.1.2⟩, hhead.2⟩
    | gen g => exact ⟨hhead.specs, hτ _ hhead.span⟩

/-- The spans of trees that are read. -/
abbrev Span.Ordered : Span → Prop :=
  Span.On fun _ => True

theorem Span.ordered_synthetic : Span.Ordered .synthetic :=
  ⟨Nat.le_refl 0, trivial, trivial⟩

theorem TokenKind.IsRead.hasText {kind : TokenKind} (h : kind.IsRead) : kind.HasText := by
  cases kind with
  | ident | literal => exact isEmpty_text_of_isPlain (h.isPlain (by simp))
  | _ => trivial

/-! ### Texts in templates -/

section

variable {artifact text : String}

theorem Prints.accounted {α : Type} {x : Except PrintError α} (h : Prints x) :
    (accounted σ).Gives (x.mapError (.unprintable artifact)) fun _ => True := by
  obtain ⟨a, rfl⟩ := h
  trivial

theorem Template.gives_decls : (accounted σ).Gives (Template.decls artifact text) fun ds =>
    ∀ d ∈ ds, d.Intact (.withText Span.Ordered) := by
  unfold Template.decls
  split
  · rename_i hparse
    exact (intact_of_parseFile (fun _ => TokenKind.IsRead.hasText)
      (fun _ _ => trivial) hparse).decls
  · exact ⟨_, _, rfl⟩
  · exact ⟨_, _, rfl⟩

theorem Template.gives_stmts : (accounted σ).Gives (Template.stmts artifact text) fun ss =>
    ∀ s ∈ ss, s.Every (.written Span.Ordered) := by
  refine Template.gives_decls.bind fun ds hds => ?_
  split
  · rename_i f _
    obtain ⟨-, -, -, hbody⟩ := (Decl.every_iff _ _).mp (hds (.func f) List.mem_cons_self).every
    cases hf : f.body with
    | none => exact List.forall_mem_nil _
    | some b => exact hbody b hf
  · exact ⟨_, _, rfl⟩

end

/-! ### Services -/

section

variable {d : FuncDecl} {config : Config}

/-- The parameters of a service have names, and their types are those of the function. -/
theorem Function.entryParams_intact (h : (Decl.func d).Intact (.withText σ)) :
    ∀ p ∈ (Function.ofDecl d).entryParams, p.name.isEmpty = false ∧ p.ty.Every (.written σ) := by
  obtain ⟨-, -, hsig, -⟩ := (Decl.every_iff _ _).mp h.every
  have hnames := (List.forall_mem_append.mp h.head.2.1).1
  intro p hp
  obtain ⟨⟨param, position⟩, hmem, rfl⟩ := List.mem_map.mp hp
  obtain ⟨field, hfield, hty, -, hname⟩ := exists_of_mem_params
    (List.fst_mem_of_mem_zipIdx (List.mem_filter.mp hmem).1)
  dsimp only at hty hname ⊢
  refine ⟨?_, hty ▸ hsig.1 field hfield⟩
  cases hparam : param.name? with
  | none => simp [dataParamName]
  | some name =>
    obtain ⟨id, hid, rfl⟩ := hname name hparam
    exact hnames field hfield id hid

theorem Function.serviceDecl_intact (h : (Decl.func d).Intact (.withText σ))
    {body : Block} (hbody : body.Every (.written σ)) :
    (Decl.func ((Function.ofDecl d).serviceDecl body)).Intact (.withText σ) := by
  have hparams := Function.entryParams_intact h
  refine ⟨(Decl.every_iff _ _).mpr ⟨nofun, List.forall_mem_nil _, ⟨?_, List.forall_mem_nil _⟩, ?_⟩,
    h.head.1, ?_, nofun, List.forall_mem_nil _⟩
  · exact List.forall_mem_map.mpr fun p hp => (hparams p hp).2
  · rintro _ ⟨⟩
    exact hbody
  · refine List.forall_mem_append.mpr ⟨List.forall_mem_map.mpr fun p hp => ?_,
      List.forall_mem_nil _⟩
    exact List.forall_mem_singleton.mpr (hparams p hp).1

/-- The body of a function in its service is intact. -/
theorem Function.gives_serviceBody (hσ : σ .synthetic) (h : (Decl.func d).Intact (.withText σ))
    {body : Block} (hbody : body ∈ d.body) :
    (accounted σ).Gives ((Function.ofDecl d).serviceBody config body)
    (Block.Every (.written σ)) := by
  obtain ⟨-, -, hsig, hbodies⟩ := (Decl.every_iff _ _).mp h.every
  have hstripped : (stripReturns d.sig.arity body).Every (.written σ) :=
    Change.InBlock.every ((returnEditor_makes hσ d.sig.arity).block (hbodies body hbody))
  unfold Function.serviceBody
  refine Outcomes.Gives.bind (P := fun _ => True) ?_ fun _ _ =>
    Outcomes.Gives.bind (Outcomes.orError_mapError fun e he => ?_) fun _ _ => ?_
  · unfold checkChannelUses
    split
    · rename_i bad hbad
      exact span_badChannelUse? hstripped hbad
    · trivial
  · exact Sends.span_checkSingleSend hstripped he
  · have hinstalled := Change.InBlock.every
      ((Callback.editor_makes config (Function.ofDecl d).callbacks).block hstripped)
    exact List.forall_mem_append.mpr ⟨Signature.every_resultDecls hσ hsig h.head.2.1, hinstalled⟩

end

theorem File.Intact.reconcileImports {K : Known} {file : File} (h : file.Intact K)
    {required : List String}
    (hrequired : ∀ path ∈ required, path.isEmpty = false) :
    (file.reconcileImports required).Intact K where
  package := h.package
  imports spec hspec := by
    rcases File.mem_imports_of_reconcile hspec with hspec | ⟨path, hpath, rfl⟩
    · exact h.imports spec hspec
    · exact hrequired path hpath
  decls := h.decls

/-- The text around a launched function is made of texts of types. -/
theorem Entry.gives_text {entry : Entry} {params : List EntryParam}
    (h : ∀ p ∈ params, p.ty.Every (.written σ)) :
    (accounted τ).Gives (entry.text (.ofParams params)) fun _ => True := by
  refine Outcomes.Gives.returning (P := fun _ => True) ?_ fun _ _ => trivial
  cases hpayload : Payload.ofParams params with
  | json fields =>
    refine (Outcomes.Gives.mapM (P := fun _ _ => True) fun field hfield => ?_).returning fun _ _ =>
      trivial
    have hparam : field.entryParam ∈ params := by
      rw [← Payload.map_entryParam_of_ofParams hpayload]
      exact List.mem_map_of_mem hfield
    exact (TypeExpr.prints (h _ hparam)).accounted.returning fun _ _ => trivial
  | _ => trivial

section

variable {program : Program} {config : Config} {S : Nat → Prop}

theorem Program.gives_service (h0 : S 0) (hfile : program.file.Intact (.withText (Span.On S)))
    {d : FuncDecl} (hd : .func d ∈ program.file.decls) :
    (accounted (Span.On S)).Gives (program.service config (.ofDecl d)) fun _ => True := by
  have hσ : Span.On S .synthetic := ⟨Nat.le_refl 0, h0, h0⟩
  have hordered : ∀ sp, Span.On S sp → Span.Ordered sp := fun _ h => ⟨h.le, trivial, trivial⟩
  unfold Program.service
  split
  · rename_i body hbody
    refine (Function.gives_serviceBody hσ (hfile.decls _ hd) hbody).bind fun body' hbody' => ?_
    have hdecl := Function.serviceDecl_intact (hfile.decls _ hd) hbody'
    refine Outcomes.Gives.bind (Outcomes.orError_mapError fun r hr => ?_) fun needed hneeded => ?_
    · exact File.span_dependencies hσ (fun d hd => (hfile.decls d hd).every) hdecl.every hr
    refine (Entry.gives_text fun p hp =>
      (Function.entryParams_intact (hfile.decls _ hd) p hp).2).bind
      fun text _ => Template.gives_decls.bind fun added hadded => ?_
    refine Outcomes.Gives.bind
      (File.prints (File.Intact.reconcileImports (K := .withText Span.Ordered)
      ?_ ?_)).accounted fun _ _ => trivial
    case refine_2 => decide
    refine ⟨⟨rfl, Span.ordered_synthetic⟩, hfile.imports, ?_⟩
    refine List.forall_mem_append.mpr ⟨List.forall_mem_append.mpr ⟨fun d hd => ?_, ?_⟩, hadded⟩
    · exact (hfile.decls d ((File.dependencies_sublist hneeded).subset hd)).mono hordered
    · exact List.forall_mem_singleton.mpr (hdecl.mono hordered)
  · trivial

/-! ### Controllers -/

variable {path source : String}

/-- The arguments that a launch sends are intact. -/
theorem Program.data_intact {K : Known} (hfile : program.file.Intact K) {l : Launch}
    (hl : l ∈ program.launches.sites) : ∀ a ∈ l.data, a.arg.Every (.intact K) := by
  obtain ⟨⟨f, hf, ctx, call, hmem, -, hclass⟩, -⟩ := Program.exists_of_mem_sites hl
  obtain ⟨fn, args, spread, sp, g, rfl, -, hlaunch⟩ :=
    Launch.Context.exists_launchOf_of_classify hclass
  obtain ⟨-, -, hargs, -⟩ := Launch.Context.launchOf_eq_ok hlaunch
  obtain ⟨-, -, -, hbody⟩ := (Decl.every_iff _ _).mp (hfile.decls _ (File.mem_functions hf)).every
  rw [FuncDecl.bodyEvents] at hmem
  cases hb : f.body with
  | none =>
    rw [hb] at hmem
    cases hmem
  | some b =>
    rw [hb] at hmem
    have hgo : (Stmt.go (.call fn args spread sp) l.span).Every (.intact K) := fun e he =>
      Block.allHave_events.mpr (hbody b hb) e ((b.thins_events _).inside _ hmem he)
    have hcall := (Expr.every_iff _ (fun _ _ _ => trivial) _).mp ((Stmt.every_iff _ _).mp hgo).2
    exact fun a ha => hcall.2.2 a.arg (hargs a ha)

theorem TypeExpr.Every.chanElem {Q : NodeProp} {t elem : TypeExpr} (ht : t.Every Q)
    (h : t.chanElem = some elem) : elem.Every Q := by
  have hparts := (TypeExpr.every_iff _ _).mp ht
  fun_induction TypeExpr.chanElem t with
  | case1 => exact Option.some.inj h ▸ hparts.2
  | case2 inner ih => exact ih hparts.2 h ((TypeExpr.every_iff _ _).mp hparts.2)
  | case3 => cases h

/-- The channels of launches have intact types. -/
theorem Program.elem_intact {K : Known} (hload : Program.load path source = .ok program)
    (hfile : program.file.Intact K) {l : Launch} (hl : l ∈ program.launches.sites) {c : ChannelArg}
    (hc : c ∈ l.channels) : c.slot.Has (.intact K) := by
  obtain ⟨d, hd, field, hfield, helem⟩ := Program.exists_param_of_mem_channels hload hl hc
  obtain ⟨-, -, hsig, -⟩ := (Decl.every_iff _ _).mp (hfile.decls _ hd).every
  exact (hsig.1 field hfield).chanElem helem

theorem Launch.gives_dispatch {l : Launch} (h : ∀ a ∈ l.data, a.arg.Every (.written σ))
    (services : List Service) (hasResults : Bool) :
    (accounted τ).Gives (l.dispatch services hasResults) fun stmts =>
      ∀ t ∈ stmts, t.Every (.written Span.Ordered) := by
  have hreader : ∀ package, (accounted τ).Gives (l.bodyReader package) fun _ => True := by
    intro package
    unfold Launch.bodyReader
    split
    · rename_i arg rest hdata
      exact (Expr.prints (h arg (hdata ▸ List.mem_cons_self))).accounted.returning fun _ _ =>
        trivial
    · trivial
  unfold Launch.dispatch
  split
  · trivial
  · refine Outcomes.Gives.bind (P := fun _ => True) ?_ fun _ _ => Template.gives_stmts
    unfold Launch.dispatchCall
    split
    · refine (Outcomes.Gives.mapM (P := fun _ _ => True) fun pair hpair => ?_).returning fun _ _ =>
        trivial
      exact (Expr.prints (h _ (List.of_mem_zip hpair).2)).accounted.returning fun _ _ => trivial
    · exact (hreader _).map fun _ _ => trivial
    · exact (hreader _).map fun _ _ => trivial
    · trivial

/-- The text of routes is made of texts of types. -/
theorem Route.gives_addedDecls {routes : List Route} (h : ∀ r ∈ routes, r.elem.Every (.written σ)) :
    (accounted τ).Gives (Route.addedDecls routes) fun ds =>
      ∀ d ∈ ds, d.Intact (.withText Span.Ordered) := by
  have helem : ∀ r ∈ routes, (accounted τ).Gives r.elemText fun _ => True :=
    fun r hr => (TypeExpr.prints (h r hr)).accounted
  unfold Route.addedDecls
  split
  · exact List.forall_mem_nil _
  · refine Outcomes.Gives.bind (P := fun _ => True) ?_ fun _ _ => Template.gives_decls
    refine (Outcomes.Gives.mapM (P := fun _ _ => True) fun r hr => ?_).bind fun _ _ =>
      (Outcomes.Gives.mapM (P := fun _ _ => True) fun r hr => ?_).returning fun _ _ => trivial
    · exact (helem r hr).returning fun _ _ => trivial
    · exact (helem r hr).returning fun _ _ => trivial

theorem Program.gives_controller (hload : Program.load path source = .ok program)
    (hfile : program.file.Intact (.withText Span.Ordered)) (services : List Service) :
    (accounted τ).Gives (program.controller program.launches services) fun _ => True := by
  have hputs : program.launches.Puts services (.written Span.Ordered) (.written Span.Ordered)
      (Failure.Accounted τ) :=
    { kept := fun s hs _ => ((Stmt.every_iff _ _).mp hs).1
      dispatch := fun l hl => Launch.gives_dispatch (program.data_intact hfile hl) services
      slots := fun l hl c hc => Program.elem_intact hload hfile hl hc }
  have hdecl : ∀ d ∈ program.file.decls,
    (replacing (Failure.Accounted τ) (.written Span.Ordered)).Gives
      ((launchEditor program.launches services).decl d) (Decl.Intact (.withText Span.Ordered)) := by
    intro d hd
    have hintact := hfile.decls d hd
    cases d with
    | gen g =>
      rw [launchEditor_decl (Program.gen_freeOf (Program.load_gos hload) hd)]
      exact Outcomes.pure _ hintact
    | func f =>
      obtain ⟨hrecv, hparams, hsig, hbody⟩ := (Decl.every_iff _ _).mp hintact.every
      refine (gives_launchEditor_func NodeProp.rerouted_intact NodeProp.rerouted_intact.covers hputs
        ((Decl.every_iff _ _).mpr ⟨hrecv, hparams, hsig, nofun⟩) hbody).mono ?_
      rintro _ ⟨body, rfl, hevery⟩
      exact ⟨hevery, hintact.head⟩
  rw [Program.controller_eq]
  refine Outcomes.Gives.bind ((Outcomes.Gives.mapM hdecl) {} (List.forall_mem_nil _))
    fun (decls, progress) hdecls => ?_
  have hdecls : ∀ d ∈ decls, d.Intact (.withText Span.Ordered) := by
    intro d hd
    obtain ⟨-, -, hintact⟩ := hdecls.1 d hd
    exact hintact
  have helem : ∀ r ∈ (program.keptFile services decls).routes program.launches,
      r.elem.Every (.written Span.Ordered) := by
    intro r hr
    have hslot : (⟨r.endpoint, r.elem⟩ : Slot) ∈ program.launches.slots := by
      rw [← nameHandlers_slots _ program.launches.slots]
      exact List.mem_map_of_mem hr
    obtain ⟨l, hl, hslot⟩ := List.mem_flatMap.mp
      (List.mem_of_find?_eq_some (Launches.mem_slots_iff.mp hslot))
    obtain ⟨c, hc, heq⟩ := List.mem_map.mp hslot
    have hc := hputs.slots l hl c hc
    rw [heq] at hc
    exact hc
  refine (Route.gives_addedDecls helem).bind fun added hadded =>
    Outcomes.Gives.bind (File.prints (File.Intact.reconcileImports (K := .withText Span.Ordered)
      ?_ ?_)).accounted fun _ _ => trivial
  case refine_2 => decide
  refine ⟨hfile.package, hfile.imports, ?_⟩
  exact List.forall_mem_append.mpr ⟨fun d hd => hdecls d (List.mem_filter.mp hd).1, hadded⟩

/-! ### Programs -/

theorem Program.file_intact (hload : Program.load path source = .ok program) :
    program.file.Intact (.withText (Span.On (Text.IsBoundary source.toList))) :=
  intact_of_parseFile (fun _ => TokenKind.IsRead.hasText) (fun _ h => h) (parseFile_of_load hload)

theorem Program.gives_service_of_load (hload : Program.load path source = .ok program)
    {f : Function}
    (hf : f ∈ program.functions) : (accounted (Span.On (Text.IsBoundary source.toList))).Gives
      (program.service config f) fun _ => True := by
  obtain ⟨d, hd, -, rfl⟩ := load_functions hload f hf
  exact gives_service (Text.isBoundary_zero _) (file_intact hload) hd

theorem Program.gives_controller_of_load (hload : Program.load path source = .ok program)
    (services : List Service) :
    (accounted τ).Gives (program.controller program.launches services) fun _ => True := by
  have hfile := file_intact hload
  refine gives_controller hload ⟨⟨hfile.package.1, hfile.package.2.le, trivial, trivial⟩,
    hfile.imports, fun d hd => ?_⟩ services
  exact (hfile.decls d hd).mono fun _ h => ⟨h.le, trivial, trivial⟩

theorem Program.gives_compile (hload : Program.load path source = .ok program) :
    (accounted (Span.On (Text.IsBoundary source.toList))).Gives (program.compile config)
      fun _ => True := by
  refine Outcomes.Gives.bind (Outcomes.Gives.mapM (P := fun _ _ => True) fun name _ => ?_)
    fun services _ => (gives_controller_of_load hload services).returning fun _ _ => trivial
  unfold Program.serviceOf
  split
  · rename_i f hf
    exact gives_service_of_load hload (List.mem_of_find?_eq_some hf)
  · trivial

end

/-- Trees are printed: if something cannot be printed, it is generated text that cannot be read. -/
def PrintsTrees {α : Type} (x : Except Failure α) : Prop :=
  ∀ artifact e, x = .error (.unprintable artifact e) → ∃ cause text, e = .generated cause text

theorem PrintsTrees.of_gives {α : Type} {x : Except Failure α} {P : α → Prop}
    (h : (accounted σ).Gives x P) :
    PrintsTrees x := by
  rintro artifact e rfl
  exact h

/-- Every file that is read can be printed, and no service, no controller and no compilation of a
program fails since a tree cannot be printed. -/
theorem trees_printed (path source : String) :
    (∀ file, parseFile source = .ok file → ∃ text, file.render = .ok text) ∧
      ∀ program, Program.load path source = .ok program → ∀ config,
        (∀ f ∈ program.functions, PrintsTrees (program.service config f)) ∧
        (∀ services, PrintsTrees (program.controller program.launches services)) ∧
        PrintsTrees (program.compile config) := by
  refine ⟨fun file hparse => ?_, fun program hload config =>
    ⟨fun f hf => ?_, fun services => ?_, ?_⟩⟩
  · exact File.prints (σ := Span.Ordered)
      (intact_of_parseFile (fun _ => TokenKind.IsRead.hasText) (fun _ _ => trivial) hparse)
  · exact .of_gives (Program.gives_service_of_load hload hf)
  · exact .of_gives (σ := Span.Ordered) (Program.gives_controller_of_load hload services)
  · exact .of_gives (Program.gives_compile hload)

theorem trees_printed_oneLaunch :
    ∃ program f, Program.load "main.go" oneLaunchText.text = .ok program ∧
    (∃ text, program.file.render = .ok text) ∧ f ∈ program.functions ∧
    PrintsTrees (program.service {} f) ∧ PrintsTrees (program.controller program.launches []) ∧
    PrintsTrees (program.compile {}) := by
  obtain ⟨program, -, -, hload, -, -, hcallees⟩ :=
    Program.exists_load_compile plainNameF "main.go" oneLaunchText
  have hmem : "f" ∈ (program.launches.sites.map Launch.callee).eraseDups := by
    rw [← Launches.callees, beq_iff_eq.mp hcallees]
    exact List.mem_singleton_self _
  obtain ⟨l, hl, hcallee⟩ := List.mem_map.mp (List.mem_eraseDups.mp hmem)
  obtain ⟨-, f, hf, -⟩ := Program.exists_of_mem_sites hl
  have hf := List.mem_of_find?_eq_some hf
  obtain ⟨hprints, hparts⟩ := trees_printed "main.go" oneLaunchText.text
  obtain ⟨hservice, hcontroller, hcompile⟩ := hparts program hload {}
  exact ⟨program, f, hload, hprints _ (Program.parseFile_of_load hload), hf, hservice f hf,
    hcontroller [],
    hcompile⟩

end ServiceSplit
