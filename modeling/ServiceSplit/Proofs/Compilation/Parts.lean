import ServiceSplit.Compilation
import ServiceSplit.Proofs.Controller.Parts
import ServiceSplit.Proofs.Controller.Routes
import ServiceSplit.Proofs.Launches

/-!
# What a compilation consists of

A compilation consists of the launches of the program, of a service for each launched function and
of the controller for them.
-/

namespace ServiceSplit

variable {program : Program} {config : Config} {f : Function}

theorem Program.name_of_find? {name : String} (h : program.find? name = some f) :
    f.name = name := by
  simpa using List.find?_some h

theorem Program.exists_of_serviceOf_eq_ok {name : String} {s : Service}
    (h : program.serviceOf config name = .ok s) :
    ∃ f, program.find? name = some f ∧ program.service config f = .ok s := by
  unfold Program.serviceOf at h
  split at h
  · rename_i f hf
    exact ⟨f, hf, h⟩
  · cases h

/-- The parts of a compilation. -/
theorem Program.exists_of_compile_eq_ok {c : Compilation}
    (h : program.compile config = .ok c) :
    c.launches = program.launches ∧
      List.Forall₂ (fun name s => program.serviceOf config name = .ok s)
        program.launches.callees c.services ∧
      program.controller program.launches c.services = .ok c.controller := by
  unfold Program.compile at h
  obtain ⟨services, hservices, h⟩ := exists_of_bind_eq_ok h
  obtain ⟨controller, hcontroller, h⟩ := exists_of_bind_eq_ok h
  cases h
  exact ⟨rfl, forall₂_of_mapM_eq_ok hservices, hcontroller⟩

/-! ### Programs that have a compilation -/

/-- The service of a function without its program, which a controller does not depend on. -/
def Function.draft (f : Function) : Service :=
  ⟨f.name, f.entryParams, .ofParams f.entryParams, f.callbacks, ⟨[], .made "main", [], []⟩, ""⟩

theorem Program.request_of_service {s : Service} (h : program.service config f = .ok s) :
    s.request = f.draft.request := by
  obtain ⟨hname, -, hpayload, -⟩ := Program.service_interface h
  simp only [Service.request, hname, hpayload, Function.draft]

/-- What a controller depends on of the services of a compilation is known from the functions. -/
theorem Program.compile_requests {c : Compilation} (h : program.compile config = .ok c)
    {fs : List Function}
    (hfind : List.Forall₂ (fun name f => program.find? name = some f) program.launches.callees fs) :
    c.services.map Service.request = (fs.map Function.draft).map Service.request := by
  obtain ⟨-, hservices, -⟩ := Program.exists_of_compile_eq_ok h
  generalize c.services = services at hservices ⊢
  generalize program.launches.callees = names at hfind hservices
  induction hfind generalizing services with
  | nil =>
    cases hservices
    rfl
  | cons hf _ ih =>
    cases hservices with
    | cons hs hservices =>
      obtain ⟨g, hg, hs⟩ := Program.exists_of_serviceOf_eq_ok hs
      cases hf.symm.trans hg
      rw [List.map_cons, List.map_cons, List.map_cons, ih _ hservices,
        Program.request_of_service hs]

private theorem exists_mapM_serviceOf {names : List String} {fs : List Function}
    (hfind : List.Forall₂ (fun name f => program.find? name = some f) names fs)
    (hserves : ∀ f ∈ fs, ∃ s, program.service config f = .ok s) :
    ∃ services, names.mapM (program.serviceOf config) = .ok services ∧
      services.map Service.request = (fs.map Function.draft).map Service.request := by
  induction hfind with
  | nil => exact ⟨[], rfl, rfl⟩
  | @cons name f names fs hf _ ih =>
    obtain ⟨s, hs⟩ := hserves f List.mem_cons_self
    obtain ⟨services, hservices, hrequests⟩ := ih fun g hg => hserves g (List.mem_cons_of_mem f hg)
    refine ⟨s :: services, ?_, ?_⟩
    · rw [List.mapM_cons, Program.serviceOf, hf]
      show (program.service config f >>= _) = _
      rw [hs, hservices]
      rfl
    · rw [List.map_cons, List.map_cons, List.map_cons, hrequests, Program.request_of_service hs]

/-- A program has a compilation if all its parts are found and can be printed. -/
theorem Program.exists_compile {fs : List Function} {decls added : List Decl} {progress : Progress}
    (hfind : List.Forall₂ (fun name f => program.find? name = some f) program.launches.callees fs)
    (hserves : ∀ f ∈ fs, ∃ s, program.service config f = .ok s)
    (hdecls : program.editedDecls program.launches (fs.map Function.draft) = .ok (decls, progress))
    (hadded : Route.addedDecls
      ((program.keptFile (fs.map Function.draft) decls).routes program.launches) = .ok added)
    (hpackage : program.file.package.name.isEmpty = false)
    (himports : ∀ i ∈ program.file.imports, i.path.isEmpty = false)
    (hprint : ∀ d ∈ (program.keptFile (fs.map Function.draft) decls).decls ++ added,
      ∃ ps, d.print = .ok ps) : ∃ c, program.compile config = .ok c := by
  obtain ⟨services, hservices, hrequests⟩ := exists_mapM_serviceOf hfind hserves
  obtain ⟨c, hc⟩ := Program.exists_controller hdecls hadded hpackage himports hprint
  refine ⟨⟨program.launches, c, services⟩, ?_⟩
  rw [Program.compile, hservices]
  show (program.controller program.launches services >>= _) = _
  rw [Program.controller_congr hrequests, hc]
  rfl

/-- Whether the launches of a program can be replaced and what the controller keeps can be printed,
where `fs` are the launched functions and `names` what the controller declares. -/
def Program.keepsPrintable (program : Program) (fs : List Function) (names : List String) : Bool :=
  match program.editedDecls program.launches (fs.map Function.draft) with
  | .ok (decls, _) =>
    let kept := program.keptFile (fs.map Function.draft) decls
    kept.decls.flatMap Decl.packageNames == names && kept.decls.all fun d => d.print.isOk
  | .error _ => false

/-- A program with launches has a compilation if its launches can be replaced, and if the text of
the routes can be read. -/
theorem Program.exists_compile_of_keepsPrintable {fs : List Function} {names : List String}
    (hfind : List.Forall₂ (fun name f => program.find? name = some f) program.launches.callees fs)
    (hserves : ∀ f ∈ fs, ∃ s, program.service config f = .ok s)
    (hkept : program.keepsPrintable fs names = true)
    (hroutes : program.launches.slots ≠ [])
    (hread : ∃ text, Route.text (nameHandlers names program.launches.slots) = .ok text ∧
      readsPrintable ("package main\n\n" ++ text ++ "\n").toList = true)
    (hpackage : program.file.package.name.isEmpty = false)
    (himports : ∀ i ∈ program.file.imports, i.path.isEmpty = false) :
    ∃ c, program.compile config = .ok c := by
  obtain ⟨text, htext, hread⟩ := hread
  obtain ⟨added, hadded, haddedprint⟩ :=
    Template.exists_decls_of_readsPrintable controllerName hread
  unfold Program.keepsPrintable at hkept
  split at hkept
  · rename_i decls progress hdecls
    simp only [Bool.and_eq_true, beq_iff_eq, List.all_eq_true] at hkept
    obtain ⟨hnames, hkeptprint⟩ := hkept
    have hsome : (nameHandlers names program.launches.slots).isEmpty = false := by
      rw [List.isEmpty_eq_false_iff]
      intro hnil
      have hslots := nameHandlers_slots names program.launches.slots
      rw [hnil] at hslots
      exact hroutes hslots.symm
    have hadded : Route.addedDecls
        ((program.keptFile (fs.map Function.draft) decls).routes program.launches) = .ok added := by
      rw [File.routes, hnames, Route.addedDecls, hsome, if_neg Bool.false_ne_true,
        Route.decls, htext]
      simpa only [bind, Except.bind] using hadded
    refine Program.exists_compile hfind hserves hdecls hadded hpackage himports fun d hd =>
      exists_print_of_isOk ?_
    rcases List.mem_append.mp hd with hd | hd
    · exact hkeptprint d hd
    · exact haddedprint d hd
  · cases hkept

/-! ### Two functions that are launched -/

private def use (name : String) : Expr :=
  .ident (.made name)

/-- A function that sends on its only parameter. -/
def sender (name channel elem : String) : FuncDecl where
  recv := none
  name := .made name
  typeParams := []
  sig := ⟨[.made channel (.chan .both (.named elem))], []⟩
  body := some ⟨[.send (use channel) (use "nil") .synthetic], .synthetic⟩
  directives := []
  span := .synthetic

private def allocation (name elem : String) (place : Nat) : Stmt :=
  .assign [use name] .define
    [.call (use "make") [.type (.chan .both (.named elem)) .synthetic] false .synthetic]
    (.range place place)

private def launchOf (function channel : String) (place : Nat) : Stmt :=
  .go (.call (use function) [use channel] false .synthetic) (.range place place)

/-- A function that launches `f` and `f_b`. -/
def launcher : FuncDecl where
  recv := none
  name := .made "start"
  typeParams := []
  sig := ⟨[], [.unnamed (.named "int")]⟩
  body := some ⟨[allocation "x" "int" 1, allocation "y" "string" 2, launchOf "f" "x" 3,
    launchOf "f_b" "y" 4], .synthetic⟩
  directives := []
  span := .synthetic

/-- A program that launches `f` with the channel parameter `b_c`, and `f_b` with the channel
parameter `c`. -/
def overlapping : Program :=
  let fs := [sender "f" "b_c" "int", sender "f_b" "c" "string", launcher]
  ⟨⟨[], .made "main", [], fs.map .func⟩, fs.map .ofDecl⟩

private theorem overlapping_slots : overlapping.launches.slots = [⟨"f_b_c", .named "int"⟩] :=
  rfl

/-- The text around the function `f_b`. -/
private def overlappingText : PrintableText where
  text := Entry.plainText "f_b"
  readable := by
    simp only [Entry.plainText, Entry.handlerText, Entry.decoding, Entry.arguments, Entry.mainText,
      Text.lines, List.cons_append, List.nil_append, List.map_cons, List.map_nil,
      String.toList_append, String.toList_join, List.flatMap_cons, List.flatMap_nil]
    simp only [String.reduceToList]
    decide +kernel

/-- The text of the route of the slot. -/
private def overlappingRoute : {text : String //
    Route.text [⟨"f_b_c", .named "int", "f_b_cHandler"⟩] = .ok text ∧
      readsPrintable ("package main\n\n" ++ text ++ "\n").toList = true} := by
  refine ⟨_, Route.text_singleton (by decide) (rfl : _ = Except.ok "int"), ?_⟩
  have hkey : Text.quote "f_b_c" = "\"f_b_c\"" := rfl
  have hpath : Text.quote ("/" ++ "f_b_c") = "\"/f_b_c\"" := rfl
  simp only [routesName, hkey, hpath, Text.lines, List.map_cons, List.map_nil, String.toList_append,
    String.toList_join, List.flatMap_cons, List.flatMap_nil]
  simp only [String.reduceToList]
  decide +kernel

private def overlappingKept : {program : Program // program.keepsPrintable
    [.ofDecl (sender "f" "b_c" "int"), .ofDecl (sender "f_b" "c" "string")] ["start"] = true} :=
  ⟨overlapping, by decide +kernel⟩

private theorem overlapping_serves : ∀ f ∈ [Function.ofDecl (sender "f" "b_c" "int"),
    .ofDecl (sender "f_b" "c" "string")], ∃ s, overlapping.service {} f = .ok s := by
  rw [List.forall_mem_cons, List.forall_mem_singleton]
  constructor
  · exact Program.exists_service_of_f [] rfl rfl rfl rfl rfl (List.forall_mem_nil _)
      (List.forall_mem_singleton.mpr rfl)
  · exact Program.exists_service_of_plain [] rfl overlappingText.readable rfl rfl rfl rfl
      (List.forall_mem_nil _) (List.forall_mem_singleton.mpr rfl)

/-- The program has a compilation. -/
theorem exists_compile_overlapping : ∃ c, overlapping.compile {} = .ok c := by
  have hhandler : Text.freshName ("f_b_c" ++ "Handler") ["start"] = "f_b_cHandler" := rfl
  refine Program.exists_compile_of_keepsPrintable (.cons rfl (.cons rfl .nil)) overlapping_serves
    overlappingKept.2 ?_ ?_ rfl (List.forall_mem_nil _)
  · rw [overlapping_slots]
    exact List.cons_ne_nil _ _
  · rw [overlapping_slots, nameHandlers, nameHandlers, hhandler]
    exact ⟨_, overlappingRoute.2⟩

end ServiceSplit
