import ServiceSplit.Controller.Basic
import ServiceSplit.Proofs.Service.Synthesis

/-!
# What a controller consists of

A controller consists of the declarations of the program in which launches are replaced, without the
launched functions that nothing mentions, and of the declarations for its routes behind them.
-/

namespace ServiceSplit

variable {program : Program} {launches : Launches} {services : List Service}

/-- The declarations `decls` of the program of a controller, without the launched functions that
nothing mentions. -/
def Program.keptFile (program : Program) (services : List Service) (decls : List Decl) : File :=
  withoutUnused (services.map Service.name) { program.file with decls }

/-- The routes of a controller that keeps the declarations of `file`. -/
def File.routes (file : File) (launches : Launches) : List Route :=
  nameHandlers (file.decls.flatMap Decl.packageNames) launches.slots

/-- The declarations for some routes, if there are any. -/
def Route.addedDecls (routes : List Route) : Except Failure (List Decl) :=
  if routes.isEmpty then .ok [] else Route.decls routes

/-- The declarations of a program with the launches replaced. -/
def Program.editedDecls (program : Program) (launches : Launches) (services : List Service) :
    Except Failure (List Decl × Progress) :=
  (program.file.decls.mapM (launchEditor launches services).decl).run {}

/-- The program of a controller. -/
def Program.controllerFile (program : Program) (services : List Service)
    (decls added : List Decl) : File :=
  let kept := program.keptFile services decls
  { kept with decls := kept.decls ++ added }.reconcileImports controllerPackages

/-- A controller is made in three steps. -/
theorem Program.controller_eq : program.controller launches services = do
    let (decls, progress) ← program.editedDecls launches services
    let added ← Route.addedDecls ((program.keptFile services decls).routes launches)
    let source ← (program.controllerFile services decls added).render.mapError
      (.unprintable controllerName)
    return ⟨program.controllerFile services decls added, source,
      (program.keptFile services decls).routes launches, progress.dispatched.eraseDups⟩ := by
  unfold Program.controller
  refine bind_congr fun (decls, progress) => ?_
  by_cases hroutes : ((program.keptFile services decls).routes launches).isEmpty = true
  · have hadded : Route.addedDecls ((program.keptFile services decls).routes launches) = .ok [] :=
      if_pos hroutes
    simp only [hadded]
    exact if_pos hroutes
  · have hadded : Route.addedDecls ((program.keptFile services decls).routes launches) =
        Route.decls ((program.keptFile services decls).routes launches) := if_neg hroutes
    simp only [hadded]
    exact if_neg hroutes

/-- The parts of a controller and how they are put together. -/
theorem Program.exists_file_of_controller_eq_ok {c : Controller}
    (h : program.controller launches services = .ok c) :
    ∃ decls progress added, program.editedDecls launches services = .ok (decls, progress) ∧
      c.routes = (program.keptFile services decls).routes launches ∧
      Route.addedDecls c.routes = .ok added ∧
      c.file = program.controllerFile services decls added ∧
      c.services = progress.dispatched.eraseDups := by
  rw [Program.controller_eq] at h
  obtain ⟨⟨decls, progress⟩, hdecls, h⟩ := exists_of_bind_eq_ok h
  obtain ⟨added, hadded, h⟩ := exists_of_bind_eq_ok h
  obtain ⟨source, -, h⟩ := exists_of_bind_eq_ok h
  cases h
  exact ⟨decls, progress, added, hdecls, rfl, hadded, rfl, rfl⟩

/-- The parts of a controller. -/
theorem Program.exists_of_controller_eq_ok {c : Controller}
    (h : program.controller launches services = .ok c) :
    ∃ decls progress added, program.editedDecls launches services = .ok (decls, progress) ∧
      c.routes = (program.keptFile services decls).routes launches ∧
      Route.addedDecls c.routes = .ok added ∧
      c.file.decls = (program.keptFile services decls).decls ++ added ∧
      c.services = progress.dispatched.eraseDups := by
  obtain ⟨decls, progress, added, hdecls, hroutes, hadded, hfile, hservices⟩ :=
    Program.exists_file_of_controller_eq_ok h
  exact ⟨decls, progress, added, hdecls, hroutes, hadded, congrArg File.decls hfile, hservices⟩

/-- A program has a controller if its parts are found and can be printed. -/
theorem Program.exists_controller {decls added : List Decl} {progress : Progress}
    (hdecls : program.editedDecls launches services = .ok (decls, progress))
    (hadded : Route.addedDecls ((program.keptFile services decls).routes launches) = .ok added)
    (hpackage : program.file.package.name.isEmpty = false)
    (himports : ∀ i ∈ program.file.imports, i.path.isEmpty = false)
    (hprint : ∀ d ∈ (program.keptFile services decls).decls ++ added, ∃ ps, d.print = .ok ps) :
    ∃ c, program.controller launches services = .ok c := by
  obtain ⟨source, hsource⟩ :
      ∃ text, (program.controllerFile services decls added).render = .ok text := by
    refine File.exists_render hpackage (fun i hi => ?_) hprint
    rcases File.mem_imports_of_reconcile hi with hi | ⟨path, hpath, rfl⟩
    · exact himports i hi
    · exact (by decide : ∀ path ∈ controllerPackages, path.isEmpty = false) path hpath
  refine ⟨⟨program.controllerFile services decls added, source,
    (program.keptFile services decls).routes launches, progress.dispatched.eraseDups⟩, ?_⟩
  rw [Program.controller_eq, hdecls]
  show (Route.addedDecls ((program.keptFile services decls).routes launches) >>= _) = _
  rw [hadded]
  show ((program.controllerFile services decls added).render.mapError _ >>= _) = _
  rw [hsource]
  rfl

/-! ### What a controller needs to know of services -/

/-- What a request to a service depends on. -/
def Service.request (s : Service) : String × Payload :=
  (s.name, s.payload)

private theorem find?_request {services others : List Service} (name : String)
    (h : services.map Service.request = others.map Service.request) :
    (services.find? (·.name == name)).map Service.request =
      (others.find? (·.name == name)).map Service.request := by
  have hfind : ∀ ss : List Service, (ss.find? (·.name == name)).map Service.request =
      (ss.map Service.request).find? (·.1 == name) := by
    intro ss
    rw [List.find?_map]
    rfl
  rw [hfind, hfind, h]

private theorem dispatch_congr {services others : List Service} (l : Launch) (hasResults : Bool)
    (h : services.map Service.request = others.map Service.request) :
    l.dispatch services hasResults = l.dispatch others hasResults := by
  have hfind := find?_request l.callee h
  unfold Launch.dispatch
  cases hs : services.find? (·.name == l.callee) with
  | none =>
    rw [hs] at hfind
    rw [Option.map_eq_none_iff.mp hfind.symm]
  | some s =>
    rw [hs] at hfind
    obtain ⟨t, ht, hts⟩ := Option.map_eq_some_iff.mp hfind.symm
    rw [ht]
    have hpayload : t.payload = s.payload := (Prod.mk.inj hts).2
    simp only [hpayload]

theorem launchEditor_congr {services others : List Service}
    (h : services.map Service.request = others.map Service.request) :
    launchEditor launches services = launchEditor launches others := by
  unfold launchEditor replaceLaunch
  simp only [dispatch_congr _ _ h]

/-- Of the services, a controller depends on names and payloads only. -/
theorem Program.controller_congr {services others : List Service}
    (h : services.map Service.request = others.map Service.request) :
    program.controller launches services = program.controller launches others := by
  have hnames : services.map Service.name = others.map Service.name := by
    have hmap := congrArg (List.map Prod.fst) h
    rwa [List.map_map, List.map_map] at hmap
  rw [Program.controller, Program.controller, launchEditor_congr h, hnames]

end ServiceSplit
