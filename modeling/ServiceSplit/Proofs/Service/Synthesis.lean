import ServiceSplit.Proofs.Except
import ServiceSplit.Proofs.Imports.Reconciled
import ServiceSplit.Service.Basic

/-!
# What a service consists of

The program of a service consists of the declarations that the launched function needs, of the
function itself, and of the entry that serves it.
-/

namespace ServiceSplit

variable {program : Program} {config : Config} {f : Function} {service : Service}

/-- The program of a service, with the declarations that are kept and those that are added. -/
def Program.serviceFile (program : Program) (kept added : List Decl) : File :=
  { program.file with package := .made "main", decls := kept ++ added }.reconcileImports
    Service.packages

/-- The parts of a service and how they are put together. -/
theorem Program.exists_file_of_service_eq_ok (h : program.service config f = .ok service) :
    ∃ body entry needed text rest, f.decl.body = some body ∧
      f.serviceBody config body = .ok entry ∧
      program.file.dependencies (f.serviceDecl entry) = .ok needed ∧
      (f.entry needed).text (.ofParams f.entryParams) = .ok text ∧
      Template.decls f.name text = .ok rest ∧
      service.file = program.serviceFile (needed ++ [.func (f.serviceDecl entry)]) rest := by
  unfold Program.service at h
  cases hbody : f.decl.body with
  | none =>
    rw [hbody] at h
    cases h
  | some body =>
    simp only [hbody] at h
    obtain ⟨entry, hentry, h⟩ := exists_of_bind_eq_ok h
    obtain ⟨needed, hneeded, h⟩ := exists_of_bind_eq_ok h
    obtain ⟨text, htext, h⟩ := exists_of_bind_eq_ok h
    obtain ⟨rest, hrest, h⟩ := exists_of_bind_eq_ok h
    obtain ⟨source, -, h⟩ := exists_of_bind_eq_ok h
    cases h
    exact ⟨body, entry, needed, text, rest, rfl, hentry, exists_of_mapError_eq_ok hneeded, htext,
      hrest, rfl⟩

/-- The parts of a service. -/
theorem Program.exists_of_service_eq_ok (h : program.service config f = .ok service) :
    ∃ body entry needed text rest, f.decl.body = some body ∧
      f.serviceBody config body = .ok entry ∧
      program.file.dependencies (f.serviceDecl entry) = .ok needed ∧
      (f.entry needed).text (.ofParams f.entryParams) = .ok text ∧
      Template.decls f.name text = .ok rest ∧
      service.file.decls = needed ++ [.func (f.serviceDecl entry)] ++ rest := by
  obtain ⟨body, entry, needed, text, rest, hbody, hentry, hneeded, htext, hrest, hfile⟩ :=
    Program.exists_file_of_service_eq_ok h
  exact ⟨body, entry, needed, text, rest, hbody, hentry, hneeded, htext, hrest,
    congrArg File.decls hfile⟩

/-- A service takes the parameters of its function that are no channels, and answers on the
others. -/
theorem Program.service_interface (h : program.service config f = .ok service) :
    service.name = f.name ∧ service.params = f.entryParams ∧
      service.payload = .ofParams f.entryParams ∧ service.callbacks = f.callbacks := by
  unfold Program.service at h
  cases hbody : f.decl.body with
  | none =>
    rw [hbody] at h
    cases h
  | some body =>
    simp only [hbody] at h
    obtain ⟨entry, -, h⟩ := exists_of_bind_eq_ok h
    obtain ⟨needed, -, h⟩ := exists_of_bind_eq_ok h
    obtain ⟨text, -, h⟩ := exists_of_bind_eq_ok h
    obtain ⟨rest, -, h⟩ := exists_of_bind_eq_ok h
    obtain ⟨source, -, h⟩ := exists_of_bind_eq_ok h
    cases h
    exact ⟨rfl, rfl, rfl, rfl⟩

/-! ### Printing -/

private theorem mapM_print_ok {α : Type} {print : α → Printed} {xs : List α}
    (h : ∀ x ∈ xs, ∃ ps, print x = .ok ps) : ∃ pss, xs.mapM print = .ok pss := by
  induction xs with
  | nil => exact ⟨[], rfl⟩
  | cons x xs ih =>
    obtain ⟨ps, hps⟩ := h x List.mem_cons_self
    obtain ⟨pss, hpss⟩ := ih fun y hy => h y (List.mem_cons_of_mem x hy)
    refine ⟨ps :: pss, ?_⟩
    rw [List.mapM_cons, hps, hpss]
    rfl

/-- A file can be printed if its package name, its imports and its declarations can be. -/
theorem File.exists_render {file : File} (hpackage : file.package.name.isEmpty = false)
    (himports : ∀ i ∈ file.imports, i.path.isEmpty = false)
    (hdecls : ∀ d ∈ file.decls, ∃ ps, d.print = .ok ps) : ∃ text, file.render = .ok text := by
  have himport : ∀ i ∈ file.imports, ∃ ps, i.print = .ok ps := by
    intro i hi
    rw [ImportSpec.print, himports i hi]
    cases i.alias? with
    | none | some a => exact ⟨_, rfl⟩
  obtain ⟨plain, hplain⟩ : ∃ pss, (file.imports.filter (·.preamble.isEmpty)).mapM
      ImportSpec.print = .ok pss :=
    mapM_print_ok fun i hi => himport i (List.mem_filter.mp hi).1
  obtain ⟨special, hspecial⟩ : ∃ pss, (file.imports.filter (!·.preamble.isEmpty)).mapM
      ImportSpec.printWithPreamble = .ok pss := by
    refine mapM_print_ok fun i hi => ?_
    obtain ⟨ps, hps⟩ := himport i (List.mem_filter.mp hi).1
    rw [ImportSpec.printWithPreamble, hps]
    exact ⟨_, rfl⟩
  obtain ⟨decls, hdecls⟩ := mapM_print_ok hdecls
  rw [File.render, File.print, hplain, hspecial, hdecls, Ident.print, hpackage]
  exact ⟨_, rfl⟩

private theorem mem_requireImport {imports : List ImportSpec} {path : String} {i : ImportSpec}
    (h : i ∈ requireImport imports path) : i ∈ imports ∨ i = .made path := by
  rw [requireImport] at h
  split at h
  · exact Or.inl h
  · rcases List.mem_append.mp h with h | h
    · exact Or.inl h
    · exact Or.inr (List.mem_singleton.mp h)

private theorem mem_foldl_requireImport {paths : List String} {imports : List ImportSpec}
    {i : ImportSpec} (h : i ∈ paths.foldl requireImport imports) :
    i ∈ imports ∨ ∃ path ∈ paths, i = .made path := by
  induction paths generalizing imports with
  | nil => exact Or.inl h
  | cons path paths ih =>
    rcases ih h with h | ⟨p, hp, rfl⟩
    · rcases mem_requireImport h with h | rfl
      · exact Or.inl h
      · exact Or.inr ⟨path, List.mem_cons_self, rfl⟩
    · exact Or.inr ⟨p, List.mem_cons_of_mem path hp, rfl⟩

/-- The imports of a file that fits its references are imports it had, or ones that it requires. -/
theorem File.mem_imports_of_reconcile {file : File} {required : List String} {i : ImportSpec}
    (h : i ∈ (file.reconcileImports required).imports) :
    i ∈ file.imports ∨ ∃ path ∈ required, i = .made path := by
  have hkept := (dropRepeated_sublist _).subset h
  rw [List.mem_mergeSort, List.mem_filter] at hkept
  exact mem_foldl_requireImport hkept.1

/-- A function has a service if its parts are found and can be printed. -/
theorem Program.exists_service {body entry : Block} {needed rest : List Decl} {text : String}
    (hbody : f.decl.body = some body) (hentry : f.serviceBody config body = .ok entry)
    (hneeded : program.file.dependencies (f.serviceDecl entry) = .ok needed)
    (htext : (f.entry needed).text (.ofParams f.entryParams) = .ok text)
    (hrest : Template.decls f.name text = .ok rest)
    (himports : ∀ i ∈ program.file.imports, i.path.isEmpty = false)
    (hprint : ∀ d ∈ needed ++ [.func (f.serviceDecl entry)] ++ rest, ∃ ps, d.print = .ok ps) :
    ∃ service, program.service config f = .ok service := by
  let file : File := { program.file with
    package := .made "main", decls := needed ++ [.func (f.serviceDecl entry)] ++ rest }
  obtain ⟨source, hsource⟩ : ∃ text, (file.reconcileImports Service.packages).render =
    .ok text := by
    refine File.exists_render rfl (fun i hi => ?_) hprint
    rcases File.mem_imports_of_reconcile hi with hi | ⟨path, hpath, rfl⟩
    · exact himports i hi
    · exact (by decide : ∀ path ∈ Service.packages, path.isEmpty = false) path hpath
  refine ⟨⟨f.name, f.entryParams, .ofParams f.entryParams, f.callbacks,
    file.reconcileImports Service.packages, source⟩, ?_⟩
  rw [Program.service, hbody]
  show (f.serviceBody config body >>= _) = _
  rw [hentry]
  show ((program.file.dependencies (f.serviceDecl entry)).mapError _ >>= _) = _
  rw [hneeded]
  show ((f.entry needed).text (.ofParams f.entryParams) >>= _) = _
  rw [htext]
  show (Template.decls f.name text >>= _) = _
  rw [hrest]
  show ((file.reconcileImports Service.packages).render.mapError _ >>= _) = _
  rw [hsource]
  rfl

/-! ### Functions without data parameters -/

/-- Whether a text can be read and each of its declarations printed. -/
def readsPrintable (cs : List Char) : Bool :=
  match scan cs >>= fun (tokens, comments) => parseTokens cs tokens comments with
  | .ok file => file.decls.all fun d => d.print.isOk
  | .error _ => false

theorem Template.exists_decls_of_readsPrintable {text : String} (artifact : String)
    (h : readsPrintable ("package main\n\n" ++ text ++ "\n").toList = true) :
    ∃ ds, Template.decls artifact text = .ok ds ∧ ∀ d ∈ ds, d.print.isOk = true := by
  unfold readsPrintable at h
  split at h
  · rename_i file hfile
    refine ⟨file.decls, ?_, List.all_eq_true.mp h⟩
    unfold Template.decls parseFile
    simp only [hfile]
  · cases h

theorem exists_print_of_isOk {d : Decl} (h : d.print.isOk = true) :
    ∃ ps, d.print = .ok ps := by
  cases hps : d.print with
  | error e =>
    rw [hps] at h
    cases h
  | ok ps => exact ⟨ps, rfl⟩

/-- The text around a launched function without data parameters whose program takes no name that the
text uses. -/
def Entry.plainText (function : String) : String :=
  let entry : Entry := ⟨function, "kompileHandler", "kompileRequest"⟩
  "" ++ entry.handlerText .empty ++ entry.mainText

/-- A function without data parameters has a service if what it needs is found and can be
printed. -/
theorem Program.exists_service_of_plain {body entry : Block} {function : String}
    (needed : List Decl) (hname : f.entry needed = ⟨function, "kompileHandler", "kompileRequest"⟩)
    (htext : readsPrintable ("package main\n\n" ++ Entry.plainText function ++ "\n").toList = true)
    (hparams : f.entryParams = []) (hbody : f.decl.body = some body)
    (hentry : f.serviceBody config body = .ok entry)
    (hneeded : program.file.dependencies (f.serviceDecl entry) = .ok needed)
    (himports : ∀ i ∈ program.file.imports, i.path.isEmpty = false)
    (hprint : ∀ d ∈ needed ++ [.func (f.serviceDecl entry)], d.print.isOk = true) :
    ∃ service, program.service config f = .ok service := by
  obtain ⟨rest, hrest, hrestprint⟩ := Template.exists_decls_of_readsPrintable f.name htext
  have htext : (f.entry needed).text (.ofParams f.entryParams) =
      .ok (Entry.plainText function) := by
    rw [hname, hparams]
    rfl
  refine Program.exists_service hbody hentry hneeded htext hrest himports fun d hd =>
    exists_print_of_isOk ?_
  rcases List.mem_append.mp hd with hd | hd
  · exact hprint d hd
  · exact hrestprint d hd

/-- A text of declarations that can be read and printed. -/
structure PrintableText where
  /-- The text. -/
  text : String
  /-- It can be read, and what is read can be printed. -/
  readable : readsPrintable ("package main\n\n" ++ text ++ "\n").toList = true

/-- The text around a function `f` without data parameters. -/
def plainTextF : PrintableText where
  text := Entry.plainText "f"
  readable := by
    -- The text is taken apart into characters first, since strings are slow to evaluate.
    simp only [Entry.plainText, Entry.handlerText, Entry.decoding, Entry.arguments, Entry.mainText,
      Text.lines, List.cons_append, List.nil_append, List.map_cons, List.map_nil,
      String.toList_append, String.toList_join, List.flatMap_cons, List.flatMap_nil]
    simp only [String.reduceToList]
    decide +kernel

/-- A function `f` without data parameters has a service if what it needs is found and can be
printed. -/
theorem Program.exists_service_of_f {body entry : Block} (needed : List Decl)
    (hname : f.entry needed = ⟨"f", "kompileHandler", "kompileRequest"⟩)
    (hparams : f.entryParams = []) (hbody : f.decl.body = some body)
    (hentry : f.serviceBody config body = .ok entry)
    (hneeded : program.file.dependencies (f.serviceDecl entry) = .ok needed)
    (himports : ∀ i ∈ program.file.imports, i.path.isEmpty = false)
    (hprint : ∀ d ∈ needed ++ [.func (f.serviceDecl entry)], d.print.isOk = true) :
    ∃ service, program.service config f = .ok service :=
  Program.exists_service_of_plain needed hname plainTextF.readable hparams hbody hentry hneeded
    himports hprint

end ServiceSplit
