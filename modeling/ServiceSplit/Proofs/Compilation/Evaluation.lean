import ServiceSplit.Proofs.Compilation.Parts

/-!
# Programs that have a compilation

Whether a text is that of a program with a compilation can be found by evaluation, if the program
launches nothing but one function with a channel parameter `out` of integers and no others, and if
its functions stand in the order of their names.
-/

namespace ServiceSplit

/-! ### Loading -/

/-- The program of a file whose functions stand in the order of their names. -/
def File.program (file : File) : Program :=
  ⟨file, (file.functions.filter FuncDecl.isLaunchable).map .ofDecl⟩

/-- Functions with different names are all collected. -/
theorem Function.collect_eq {ds : List FuncDecl} {known : List Function}
    (hknown : ∀ f ∈ known, ∀ d ∈ ds, f.name ≠ d.name.name)
    (hds : ds.Pairwise fun d e => d.name.name ≠ e.name.name) :
    Function.collect ds known = (ds.map ofDecl, []) := by
  induction ds generalizing known with
  | nil => rfl
  | cons d ds ih =>
    rw [List.pairwise_cons] at hds
    have hnone : known.find? (·.name == d.name.name) = none := by
      refine List.find?_eq_none.mpr fun f hf => ?_
      simpa using hknown f hf d List.mem_cons_self
    have hrest : collect ds (ofDecl d :: known) = (ds.map ofDecl, []) := by
      refine ih (List.forall_mem_cons.mpr ⟨fun e he => hds.1 e he, fun f hf e he => ?_⟩) hds.2
      exact hknown f hf e (List.mem_cons_of_mem d he)
    rw [collect, hnone]
    simp only [hrest, List.map_cons]

/-- The program of a text whose functions stand in the order of their names. -/
theorem Program.load_eq {path source : String} {file : File} (hparse : parseFile source = .ok file)
    (hmain : file.package.name = "main")
    (hsorted : (file.functions.filter FuncDecl.isLaunchable).Pairwise fun d e =>
      d.name.name ≤ e.name.name ∧ d.name.name ≠ e.name.name) :
    Program.load path source = .ok file.program := by
  have hcollect : Function.collect (file.functions.filter FuncDecl.isLaunchable) [] =
      (file.program.functions, []) :=
    Function.collect_eq (List.forall_mem_nil _) (hsorted.imp And.right)
  have hsort : file.program.functions.mergeSort (fun f g => decide (f.name ≤ g.name)) =
      file.program.functions := by
    refine List.mergeSort_of_pairwise ?_
    rw [File.program, List.pairwise_map]
    exact hsorted.imp fun h => decide_eq_true h.1
  unfold Program.load
  simp only [hparse, hcollect, hsort]
  rw [if_neg (by simp [hmain])]
  rfl

/-- Whether a text is that of a program whose functions stand in the order of their names, and
whether `P` holds of the program. -/
def readsProgram (P : Program → Bool) (cs : List Char) : Bool :=
  match scan cs >>= fun (tokens, comments) => parseTokens cs tokens comments with
  | .ok file =>
    let functions := file.functions.filter FuncDecl.isLaunchable
    file.package.name == "main" && functions.Pairwise (fun d e =>
      d.name.name ≤ e.name.name ∧ d.name.name ≠ e.name.name) && P file.program
  | .error _ => false

theorem Program.exists_load {source : String} {P : Program → Bool} (path : String)
    (h : readsProgram P source.toList = true) :
    ∃ program, Program.load path source = .ok program ∧ P program = true := by
  unfold readsProgram at h
  split at h
  · rename_i file hparse
    simp only [Bool.and_eq_true, beq_iff_eq, decide_eq_true_eq] at h
    exact ⟨file.program, Program.load_eq hparse h.1.1 h.1.2, h.2⟩
  · cases h

/-! ### Programs that launch one function -/

/-- A function name whose generated texts can be read and printed: the text around a function
without data parameters, and that of the route on which it answers on `out` with integers. -/
structure PlainName where
  /-- The name. -/
  name : String
  /-- The text around the function can be read. -/
  entry : readsPrintable ("package main\n\n" ++ Entry.plainText name ++ "\n").toList = true
  /-- The text of the route can be read. -/
  route : ∃ text, Route.text [⟨name ++ "_out", .named "int", name ++ "_outHandler"⟩] = .ok text ∧
    readsPrintable ("package main\n\n" ++ text ++ "\n").toList = true

/-- Whether `f` has no data parameters and a service under a name. -/
def Program.serves (program : Program) (name : String) (f : Function) : Bool :=
  match f.decl.body with
  | none => false
  | some body =>
    match f.serviceBody {} body with
    | .error _ => false
    | .ok entry =>
      match program.file.dependencies (f.serviceDecl entry) with
      | .error _ => false
      | .ok needed =>
        let names := f.entry needed
        names.function == name && names.handler == "kompileHandler" &&
          names.request == "kompileRequest" && f.entryParams.isEmpty &&
          (needed ++ [Decl.func (f.serviceDecl entry)]).all fun d => d.print.isOk

theorem Program.exists_service_of_serves {program : Program} {f : Function} (n : PlainName)
    (himports : ∀ i ∈ program.file.imports, i.path.isEmpty = false)
    (h : program.serves n.name f = true) : ∃ service, program.service {} f = .ok service := by
  unfold Program.serves at h
  split at h
  · cases h
  · rename_i body hbody
    split at h
    · cases h
    · rename_i entry hentry
      split at h
      · cases h
      · rename_i needed hneeded
        simp only [Bool.and_eq_true, beq_iff_eq, List.isEmpty_iff, List.all_eq_true] at h
        obtain ⟨⟨⟨⟨hfunction, hhandler⟩, hrequest⟩, hparams⟩, hprint⟩ := h
        have hname : f.entry needed = ⟨n.name, "kompileHandler", "kompileRequest"⟩ := by
          rw [← hfunction, ← hhandler, ← hrequest]
        exact Program.exists_service_of_plain needed hname n.entry hparams hbody hentry hneeded
          himports hprint

theorem TypeExpr.eq_named_of_isNamed {n : String} {t : TypeExpr} (h : t.isNamed n = true) :
    t = .named n := by
  unfold TypeExpr.isNamed at h
  split at h
  · rw [beq_iff_eq.mp h, TypeExpr.named]
  · cases h

/-- Whether the only launched function is called `name`, has a service and answers on `out` with
integers, whether the controller can be printed, `names` being what it declares, and whether `P`
holds of the program and its services. -/
def Program.launchesOnly (program : Program) (name : String) (names : List String)
    (P : Program → List Service → Bool) : Bool :=
  match program.launches.callees, program.find? name, program.launches.slots with
  | [callee], some f, [slot] =>
    callee == name && program.serves name f && program.keepsPrintable [f] names &&
      slot.endpoint == name ++ "_out" && slot.elem.isNamed "int" &&
      Text.freshName (name ++ "_out" ++ "Handler") names == name ++ "_outHandler" &&
      !program.file.package.name.isEmpty && program.file.imports.isEmpty && P program [f.draft]
  | _, _, _ => false

/-- A program that launches one function has a compilation. -/
theorem Program.exists_compile_of_launchesOnly {program : Program} (n : PlainName)
    {names : List String} {P : Program → List Service → Bool}
    (h : program.launchesOnly n.name names P = true) :
    ∃ c services, program.compile {} = .ok c ∧
      c.services.map Service.request = services.map Service.request ∧
      P program services = true := by
  unfold Program.launchesOnly at h
  split at h
  · rename_i callee f slot hcallees hfind hslots
    simp only [Bool.and_eq_true, beq_iff_eq, Bool.not_eq_true', List.isEmpty_iff] at h
    obtain ⟨⟨⟨⟨⟨⟨⟨⟨rfl, hserves⟩, hkeeps⟩, hendpoint⟩, helem⟩, hhandler⟩, hpackage⟩, himports⟩,
      hP⟩ := h
    have hall : ∀ i ∈ program.file.imports, i.path.isEmpty = false := by
      rw [himports]
      exact List.forall_mem_nil _
    have hslot : slot = ⟨n.name ++ "_out", .named "int"⟩ := by
      rw [← hendpoint, ← TypeExpr.eq_named_of_isNamed helem]
    have hroutes : nameHandlers names program.launches.slots =
        [⟨n.name ++ "_out", .named "int", n.name ++ "_outHandler"⟩] := by
      rw [hslots, hslot, nameHandlers, nameHandlers, hhandler]
    have hfs : List.Forall₂ (fun name f => program.find? name = some f) program.launches.callees
      [f] :=
      hcallees ▸ .cons hfind .nil
    obtain ⟨c, hc⟩ := Program.exists_compile_of_keepsPrintable hfs
      (List.forall_mem_singleton.mpr (Program.exists_service_of_serves n hall hserves)) hkeeps
      (hslots ▸ List.cons_ne_nil _ _) (hroutes ▸ n.route) hpackage hall
    exact ⟨c, [f.draft], hc, Program.compile_requests hc hfs, hP⟩
  · cases h

/-- Whether a text is that of a program that launches `name` only and declares `names` besides, and
whether `P` holds of the program and its services. -/
def readsLaunchesOnly (name : String) (names : List String) (P : Program → List Service → Bool)
    (cs : List Char) : Bool :=
  match scan cs >>= fun (tokens, comments) => parseTokens cs tokens comments with
  | .ok file =>
    let functions := file.functions.filter FuncDecl.isLaunchable
    file.package.name == "main" && functions.Pairwise (fun d e =>
      d.name.name ≤ e.name.name ∧ d.name.name ≠ e.name.name) &&
      file.program.launchesOnly name names P
  | .error _ => false

/-- A text that is that of a program which launches `name` only and declares `names` besides, where
`P` holds of the program and its services. -/
structure LaunchingText (name : String) (names : List String)
    (P : Program → List Service → Bool) where
  /-- The text. -/
  text : String
  /-- The text is evaluated. -/
  reads : readsLaunchesOnly name names P text.toList = true

/-- The program of a text that launches one function has a compilation. -/
theorem Program.exists_load_compile (n : PlainName) {names : List String}
    {P : Program → List Service → Bool} (path : String) (source : LaunchingText n.name names P) :
    ∃ program c services, Program.load path source.text = .ok program ∧
      program.compile {} = .ok c ∧ c.services.map Service.request = services.map Service.request ∧
      P program services = true := by
  have h := source.reads
  unfold readsLaunchesOnly at h
  split at h
  · rename_i file hparse
    simp only [Bool.and_eq_true, beq_iff_eq, decide_eq_true_eq] at h
    obtain ⟨⟨hmain, hsorted⟩, hlaunches⟩ := h
    obtain ⟨c, services, hc⟩ := Program.exists_compile_of_launchesOnly n hlaunches
    exact ⟨file.program, c, services, Program.load_eq hparse hmain hsorted, hc⟩
  · cases h

/-! ### Programs that launch a function `f` -/

/-- The text of the route on which `f` answers, which can be read and printed. -/
def Route.outText : {text : String //
    Route.text [⟨"f_out", .named "int", "f_outHandler"⟩] = .ok text ∧
      readsPrintable ("package main\n\n" ++ text ++ "\n").toList = true} := by
  refine ⟨_, Route.text_singleton (by decide) (rfl : _ = Except.ok "int"), ?_⟩
  have hkey : Text.quote "f_out" = "\"f_out\"" := rfl
  have hpath : Text.quote ("/" ++ "f_out") = "\"/f_out\"" := rfl
  simp only [routesName, hkey, hpath, Text.lines, List.map_cons, List.map_nil, String.toList_append,
    String.toList_join, List.flatMap_cons, List.flatMap_nil]
  simp only [String.reduceToList]
  decide +kernel

/-- The texts made for a function `f` can be read. -/
def plainNameF : PlainName where
  name := "f"
  entry := plainTextF.readable
  route := ⟨_, Route.outText.2⟩

/-! ### A function with two data parameters -/

/-- The declaration of a structure with tagged fields, from the texts of their types. -/
def Entry.structure (name : String) (fields : List PayloadField) (types : List String) : String :=
  Text.lines (["type " ++ name ++ " struct \x7b"] ++
    List.zipWith (fun f ty => "\t" ++ f.field ++ " " ++ ty ++ " `json:\"" ++ f.param ++ "\"`")
      fields types ++
    ["\x7d", ""])

private def named (n : String) : Expr :=
  .ident (.made n)

/-- The function `func f(first int, arg0 string, out chan int) { out <- 1 }`. -/
def pairTaker (first : String) : FuncDecl where
  recv := none
  name := .made "f"
  typeParams := []
  sig := ⟨[.made first (.named "int"), .made "arg0" (.named "string"),
    .made "out" (.chan .both (.named "int"))], []⟩
  body := some ⟨[.send (named "out") (.lit .int "1" .synthetic) (.range 0 1)], .synthetic⟩
  directives := []
  span := .synthetic

/-- The function `func main() { x := make(chan int); go f(1, "a", x) }`. -/
def pairGiver : FuncDecl where
  recv := none
  name := .made "main"
  typeParams := []
  sig := ⟨[], []⟩
  body := some ⟨[
    .assign [named "x"] .define
      [.call (named "make") [.type (.chan .both (.named "int")) .synthetic] false .synthetic]
      (.range 2 3),
    .go (.call (named "f") [.lit .int "1" .synthetic, .lit .string "\"a\"" .synthetic, named "x"]
      false .synthetic) (.range 4 5)], .synthetic⟩
  directives := []
  span := .synthetic

/-- The program of the two functions. -/
def pairProgram (first : String) : Program :=
  ⟨⟨[], .made "main", [], [.func (pairTaker first), .func pairGiver]⟩,
    [.ofDecl (pairTaker first), .ofDecl pairGiver]⟩

/-- The fields of the parameters `first` and `arg0`. -/
def pairFields (first firstField secondField : String) : List PayloadField :=
  [⟨first, firstField, .named "int"⟩, ⟨"arg0", secondField, .named "string"⟩]

/-- The text around the function, where the fields have these names. -/
private def pairText (first firstField secondField : String) : String :=
  let entry : Entry := ⟨"f", "kompileHandler", "kompileRequest"⟩
  Entry.structure "kompileRequest" (pairFields first firstField secondField) ["int", "string"] ++
    entry.handlerText (.json (pairFields first firstField secondField)) ++ entry.mainText

/-- The two programs can be printed with these names. -/
private theorem pair_keepsPrintable : ∀ first ∈ ["_", "n"],
    (pairProgram first).keepsPrintable [.ofDecl (pairTaker first)] ["main"] = true := by
  decide +kernel

/-- The two texts can be read and printed. -/
private theorem pairText_readsPrintable :
    ∀ text ∈ [pairText "arg0" "Arg0" "Arg02", pairText "n" "N" "Arg0"],
      readsPrintable ("package main\n\n" ++ text ++ "\n").toList = true := by
  rw [List.forall_mem_cons, List.forall_mem_singleton]
  simp only [pairText, pairFields, Entry.structure, Entry.handlerText, Entry.decoding,
    Entry.arguments, Entry.mainText, Text.joined, Text.lines, List.cons_append, List.nil_append,
    List.map_cons, List.map_nil, List.zipWith_cons_cons, List.zipWith_nil_left,
    List.intersperse_cons_cons, List.intersperse_singleton, String.toList_append,
    String.toList_join, List.flatMap_cons, List.flatMap_nil]
  simp only [String.reduceToList]
  decide +kernel

theorem pairFields_eq :
    Payload.fieldsFrom [] [⟨"arg0", .named "int"⟩, ⟨"arg0", .named "string"⟩] =
        pairFields "arg0" "Arg0" "Arg02" ∧
      Payload.fieldsFrom [] [⟨"n", .named "int"⟩, ⟨"arg0", .named "string"⟩] =
        pairFields "n" "N" "Arg0" := by
  exact ⟨rfl, rfl⟩

/-- The body of the function in its service. -/
private def pairEntry : Block :=
  ⟨[Callback.post {} ⟨"f", "out", .named "int", "f_out"⟩ (.lit .int "1" .synthetic) (.range 0 1)],
    .synthetic⟩

private theorem exists_pair_service {first made firstField secondField : String}
    (hparams : (Function.ofDecl (pairTaker first)).entryParams =
      [⟨made, .named "int"⟩, ⟨"arg0", .named "string"⟩])
    (hfields : Payload.fieldsFrom [] [⟨made, .named "int"⟩, ⟨"arg0", .named "string"⟩] =
      pairFields made firstField secondField)
    (hread : readsPrintable
      ("package main\n\n" ++ pairText made firstField secondField ++ "\n").toList = true)
    (hentry : (Function.ofDecl (pairTaker first)).serviceBody {}
      ⟨[.send (named "out") (.lit .int "1" .synthetic) (.range 0 1)], .synthetic⟩ = .ok pairEntry)
    (hneeded : (pairProgram first).file.dependencies
      ((Function.ofDecl (pairTaker first)).serviceDecl pairEntry) = .ok [])
    (hprint : (Decl.func
      ((Function.ofDecl (pairTaker first)).serviceDecl pairEntry)).print.isOk = true) :
    ∃ s, (pairProgram first).service {} (.ofDecl (pairTaker first)) = .ok s := by
  obtain ⟨rest, hrest, hrestprint⟩ := Template.exists_decls_of_readsPrintable "f" hread
  have htext : ((Function.ofDecl (pairTaker first)).entry []).text
      (.ofParams (Function.ofDecl (pairTaker first)).entryParams) =
        .ok (pairText made firstField secondField) := by
    have hname : (Function.ofDecl (pairTaker first)).entry [] =
        ⟨"f", "kompileHandler", "kompileRequest"⟩ := rfl
    have hjson : Payload.ofParams [⟨made, .named "int"⟩, ⟨"arg0", .named "string"⟩] =
        .json (pairFields made firstField secondField) := congrArg Payload.json hfields
    rw [hparams, hjson, hname]
    rfl
  refine Program.exists_service rfl hentry hneeded htext hrest (List.forall_mem_nil _) fun d hd =>
    exists_print_of_isOk ?_
  rcases List.mem_cons.mp hd with rfl | hd
  · exact hprint
  · exact hrestprint d hd

private theorem exists_compile_pair {first : String}
    (hserves : ∃ s, (pairProgram first).service {} (.ofDecl (pairTaker first)) = .ok s)
    (hcallees : (pairProgram first).launches.callees = ["f"])
    (hslots : (pairProgram first).launches.slots = [⟨"f_out", .named "int"⟩])
    (hkeeps : (pairProgram first).keepsPrintable [.ofDecl (pairTaker first)] ["main"] = true) :
    ∃ c, (pairProgram first).compile {} = .ok c := by
  have hhandler : Text.freshName ("f_out" ++ "Handler") ["main"] = "f_outHandler" := rfl
  refine Program.exists_compile_of_keepsPrintable ?_ (List.forall_mem_singleton.mpr hserves) hkeeps
    ?_ ?_ rfl (List.forall_mem_nil _)
  · rw [hcallees]
    exact .cons rfl .nil
  · rw [hslots]
    exact List.cons_ne_nil _ _
  · rw [hslots, nameHandlers, nameHandlers, hhandler]
    exact ⟨_, Route.outText.2⟩

theorem exists_compile_pairs : (∃ c, (pairProgram "_").compile {} = .ok c) ∧
    ∃ c, (pairProgram "n").compile {} = .ok c := by
  have hkeeps := pair_keepsPrintable
  have htexts := pairText_readsPrintable
  rw [List.forall_mem_cons, List.forall_mem_singleton] at hkeeps htexts
  constructor
  · refine exists_compile_pair ?_ rfl rfl hkeeps.1
    exact exists_pair_service rfl pairFields_eq.1 htexts.1 rfl rfl rfl
  · refine exists_compile_pair ?_ rfl rfl hkeeps.2
    exact exists_pair_service rfl pairFields_eq.2 htexts.2 rfl rfl rfl

end ServiceSplit
