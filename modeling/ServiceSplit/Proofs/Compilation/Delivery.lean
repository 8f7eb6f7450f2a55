import ServiceSplit.Proofs.Compilation.Agreement
import ServiceSplit.Proofs.Compilation.Evaluation
import ServiceSplit.Proofs.Service.Fields

/-!
# Arguments on their way to a service

A launch with several arguments sends them as the entries of a map. The service has a structure
with a tag for each entry, and passes its fields to the function. Both texts are written from the
names of the parameters, one in the controller and one in the service. They agree, so that each
argument reaches its parameter if the names are different.
-/

namespace ServiceSplit

/-! ### Texts -/

/-- The call that sends a map to the service of a function, with the texts of its values. -/
def Launch.mapCall (callee : String) (keys values : List String) : String :=
  "kompileDispatchJSON(" ++ Text.quote callee ++ ", map[string]any\x7b" ++
    Text.joined ", "
      (List.zipWith (fun key value => Text.quote key ++ ": " ++ value) keys values) ++ "\x7d)"

/-- The line that starts a function with fields of the request. -/
def Entry.start (function : String) (passed : List String) : String :=
  "\tgo " ++ function ++ "(" ++ Text.joined ", " (passed.map ("request." ++ ·)) ++ ")"

/-- The call of a launch sends a map with a key for each argument. -/
theorem Launch.dispatchCall_json {l : Launch} {fields : List PayloadField} {call : String}
    (hlength : fields.length = l.data.length) (h : l.dispatchCall (.json fields) = .ok call) :
    ∃ values, List.Forall₂ (fun d v => Template.expr l.callee d.arg = .ok v) l.data values ∧
      call = mapCall l.callee (fields.map PayloadField.param) values := by
  obtain ⟨entries, hentries, h⟩ := exists_of_bind_eq_ok h
  cases h
  obtain ⟨values, hvalues, rfl⟩ := exists_of_mapM_map_eq_ok hentries
  have hdata : (fields.zip l.data).map Prod.snd = l.data := List.map_snd_zip hlength.ge
  have hkeys : (fields.zip l.data).map (fun x => x.1.param) = fields.map PayloadField.param := by
    conv_rhs => rw [← List.map_fst_zip hlength.le, List.map_map]
    rfl
  refine ⟨values, ?_, ?_⟩
  · rw [← hdata, List.forall₂_map_left_iff]
    exact hvalues
  · have htexts : List.zipWith (fun x value => Text.quote x.1.param ++ ": " ++ value)
        (fields.zip l.data) values =
        List.zipWith (fun key value => Text.quote key ++ ": " ++ value)
          (fields.map PayloadField.param) values := by
      rw [← hkeys, List.zipWith_map_left]
    unfold mapCall
    rw [← htexts]

/-- The structure of a request has a tagged field for each parameter. -/
theorem Entry.requestType_json {entry : Entry} {fields : List PayloadField} {text : String}
    (h : entry.requestType (.json fields) = .ok text) :
    ∃ types, List.Forall₂ (fun p ty => Template.type entry.function p.ty = .ok ty) fields types ∧
      text = Entry.structure entry.request fields types := by
  obtain ⟨lines, hlines, h⟩ := exists_of_bind_eq_ok h
  cases h
  obtain ⟨types, htypes, rfl⟩ := exists_of_mapM_map_eq_ok hlines
  exact ⟨types, htypes, rfl⟩

theorem Text.lines_append (ls ms : List String) : lines (ls ++ ms) = lines ls ++ lines ms := by
  rw [lines, List.map_append, String.join_append]
  rfl

theorem Text.lines_cons (l : String) (ls : List String) :
    lines (l :: ls) = l ++ ("\n" ++ lines ls) := by
  rw [lines, List.map_cons, String.join_cons, String.append_assoc]
  rfl

/-- The handler of requests starts the function with the fields of the request, in order. -/
theorem Entry.handlerText_json (entry : Entry) (fields : List PayloadField) :
    ∃ before after, entry.handlerText (.json fields) =
      before ++ Entry.start entry.function (fields.map PayloadField.field) ++ after := by
  have hargs : arguments (.json fields) =
      Text.joined ", " ((fields.map PayloadField.field).map ("request." ++ ·)) := by
    rw [arguments, List.map_map]
    rfl
  rw [handlerText, Text.lines_append, Text.lines_cons, ← String.append_assoc, hargs]
  exact ⟨_, _, rfl⟩

/-! ### Arguments and parameters -/

/-- What reaches the parameter at a position: a field of the request is passed there, and the
request has an entry under the tag of the field. -/
def receivedAt {α : Type} (entries : List (String × α)) (tags : List (String × String))
    (passed : List String) (i : Nat) : Option α := do
  let field ← passed[i]?
  let tag ← tags.lookup field
  entries.lookup tag

theorem lookup_zip {α : Type} {keys : List String} {values : List α} (hkeys : keys.Nodup)
    {i : Nat} {key : String} (hkey : keys[i]? = some key) :
    (keys.zip values).lookup key = values[i]? := by
  induction keys generalizing values i with
  | nil => cases hkey
  | cons k keys ih =>
    rw [List.nodup_cons] at hkeys
    cases values with
    | nil => rfl
    | cons v values =>
      rw [List.zip_cons_cons, List.lookup_cons]
      cases i with
      | zero =>
        cases hkey
        simp
      | succ i =>
        have hne : (key == k) = false := by
          rw [beq_eq_false_iff_ne]
          rintro rfl
          exact hkeys.1 (List.mem_of_getElem? hkey)
        rw [hne]
        exact ih hkeys.2 hkey

/-- If fields have different names and keys are different, each value reaches its parameter. -/
theorem receivedAt_eq {α : Type} {fields : List PayloadField} {values : List α}
    (hfields : (fields.map PayloadField.field).Nodup)
    (hkeys : (fields.map PayloadField.param).Nodup) {i : Nat} (hi : i < fields.length) :
    receivedAt ((fields.map PayloadField.param).zip values)
      (fields.map fun p => (p.field, p.param)) (fields.map PayloadField.field) i = values[i]? := by
  have hfield : (fields.map PayloadField.field)[i]? = some fields[i].field := by
    simp [List.getElem?_eq_getElem hi]
  have hkey : (fields.map PayloadField.param)[i]? = some fields[i].param := by
    simp [List.getElem?_eq_getElem hi]
  have htags : (fields.map fun p => (p.field, p.param)) =
      (fields.map PayloadField.field).zip (fields.map PayloadField.param) := by
    rw [List.zip_map']
  rw [receivedAt, htags, hfield]
  simp only [Option.bind_eq_bind, Option.bind_some]
  rw [lookup_zip hfields hfield, hkey]
  exact lookup_zip hkeys hkey

/-! ### Launches and services -/

/-- What a launch sends fits what the service of its function takes. -/
structure Launch.Delivers (l : Launch) (services : List Service) (f : Function) (s : Service)
    (fields : List PayloadField) : Prop where
  /-- The data arguments are sent in a map, under the names of their parameters. -/
  sent : ∀ hasResults stmts, l.dispatch services hasResults = .ok stmts → ∃ values,
    List.Forall₂ (fun d v => Template.expr l.callee d.arg = .ok v) l.data values ∧
      Template.stmts l.callee ("if err := " ++
        mapCall l.callee (l.data.map DataArg.param) values ++ "; err != nil \x7b\n" ++
        l.onFailure hasResults ++ "\n\x7d") = .ok stmts
  /-- The service has a structure with tagged fields, and passes them to the function. -/
  taken : ∃ needed entry rest name types before after,
    s.file.decls = needed ++ [.func (f.serviceDecl entry)] ++ rest ∧
      Field.allNames (f.serviceDecl entry).sig.params = l.data.map DataArg.param ∧
      List.Forall₂ (fun p ty => Template.type f.name p.ty = .ok ty) fields types ∧
      Template.decls f.name (Entry.structure name fields types ++ (before ++
        Entry.start f.name (fields.map PayloadField.field) ++ after)) = .ok rest
  /-- The tags are the keys. -/
  tags : fields.map PayloadField.param = l.data.map DataArg.param
  /-- The fields have different names. -/
  fields_nodup : (fields.map PayloadField.field).Nodup
  /-- The keys are different, unless a parameter has the name that is made for another one. -/
  keys_nodup_iff : (l.data.map DataArg.param).Nodup ↔ ¬f.TakesMadeName
  /-- If the keys are different, each argument reaches its parameter. -/
  received : (l.data.map DataArg.param).Nodup → ∀ values : List String, ∀ i < l.data.length,
    receivedAt ((l.data.map DataArg.param).zip values) (fields.map fun p => (p.field, p.param))
      (fields.map PayloadField.field) i = values[i]?

variable {program : Program} {config : Config} {c : Compilation} {s : Service}

theorem Function.allNames_serviceDecl (f : Function) (entry : Block) :
    Field.allNames (f.serviceDecl entry).sig.params = f.entryParams.map EntryParam.name := by
  simp only [serviceDecl]
  induction f.entryParams with
  | nil => rfl
  | cons p ps ih =>
    rw [List.map_cons, List.map_cons, ← ih]
    rfl

/-- The services of a compilation are found by their names. -/
theorem Program.find?_services (h : program.compile config = .ok c) (hs : s ∈ c.services) :
    c.services.find? (·.name == s.name) = some s := by
  have hnodup : (c.services.map Service.name).Nodup := by
    refine (Program.compile_services h).ordered.imp ?_
    rintro a _ hlt rfl
    exact Nat.lt_irrefl _ hlt
  have hsome : (c.services.find? (·.name == s.name)).isSome = true :=
    List.find?_isSome.mpr ⟨s, hs, beq_self_eq_true _⟩
  obtain ⟨t, ht⟩ := Option.isSome_iff_exists.mp hsome
  have hname : t.name = s.name := by simpa using List.find?_some ht
  rw [ht, List.inj_on_of_nodup_map hnodup (List.mem_of_find?_eq_some ht) hs hname]

/-- The service of a function takes a structured request apart in the order of its parameters. -/
theorem Program.service_takes {f : Function} {fields : List PayloadField}
    (h : program.service config f = .ok s) (hjson : s.payload = .json fields) :
    ∃ needed entry rest name types before after,
      s.file.decls = needed ++ [.func (f.serviceDecl entry)] ++ rest ∧
        List.Forall₂ (fun p ty => Template.type f.name p.ty = .ok ty) fields types ∧
        Template.decls f.name (Entry.structure name fields types ++ (before ++
          Entry.start f.name (fields.map PayloadField.field) ++ after)) = .ok rest := by
  obtain ⟨-, -, hpayload, -⟩ := Program.service_interface h
  obtain ⟨-, entry, needed, text, rest, -, -, -, htext, hrest, hdecls⟩ :=
    Program.exists_of_service_eq_ok h
  rw [← hpayload, hjson] at htext
  obtain ⟨declared, hdeclared, htext⟩ := exists_of_bind_eq_ok htext
  obtain ⟨types, htypes, rfl⟩ := Entry.requestType_json hdeclared
  obtain ⟨before, after, hhandler⟩ := Entry.handlerText_json (f.entry needed) fields
  obtain rfl := Except.ok.inj htext
  rw [hhandler, String.append_assoc, String.append_assoc] at hrest
  exact ⟨needed, entry, rest, _, types, before, _, hdecls, htypes, hrest⟩

/-- What launches send fits what services take: where a service takes a structured request, each
data argument is sent under the tag of a field of its own, which is passed for its parameter. -/
theorem Program.compile_delivers (h : program.compile config = .ok c)
    (hnames : ∀ f ∈ program.functions, (f.params.filterMap Param.name?).Nodup) {l : Launch}
    (hl : l ∈ c.launches.sites) (hs : s ∈ c.services) (hcallee : s.name = l.callee)
    {fields : List PayloadField} (hjson : s.payload = .json fields) :
    ∃ f, program.find? l.callee = some f ∧ l.Delivers c.services f s fields := by
  rw [(Program.exists_of_compile_eq_ok h).1] at hl
  obtain ⟨f, hf, hservice⟩ := Program.exists_of_mem_services h hs
  obtain ⟨-, hparams, hpayload, -⟩ := Program.service_interface hservice
  obtain ⟨hdata, -⟩ := Program.launch_of_service h hs hl hcallee
  have hentry : f.entryParams = l.data.map DataArg.entryParam := hparams.symm.trans hdata
  have hfields := Payload.map_entryParam_of_ofParams (hpayload.symm.trans hjson)
  have hdistinct := Payload.nodup_field_of_ofParams (hpayload.symm.trans hjson)
  have hkeys : f.entryParams.map EntryParam.name = l.data.map DataArg.param := by
    rw [hentry, List.map_map]
    rfl
  have htags : fields.map PayloadField.param = l.data.map DataArg.param := by
    rw [← hkeys, ← hfields, List.map_map]
    rfl
  have hlength : fields.length = l.data.length := by
    simpa only [List.length_map] using congrArg List.length htags
  refine ⟨f, hcallee ▸ hf, ?_, ?_, htags, hdistinct, ?_, ?_⟩
  · intro hasResults stmts hstmts
    rw [Launch.dispatch, ← hcallee, Program.find?_services h hs, hcallee] at hstmts
    obtain ⟨call, hcall, hstmts⟩ := exists_of_bind_eq_ok hstmts
    rw [hjson] at hcall
    obtain ⟨values, hvalues, rfl⟩ := Launch.dispatchCall_json hlength hcall
    rw [htags] at hstmts
    exact ⟨values, hvalues, hstmts⟩
  · obtain ⟨needed, entry, rest, name, types, before, after, hdecls, htypes, hrest⟩ :=
      Program.service_takes hservice hjson
    refine ⟨needed, entry, rest, name, types, before, after, hdecls, ?_, htypes, hrest⟩
    rw [Function.allNames_serviceDecl, hkeys]
  · rw [← hkeys]
    exact Function.nodup_entryParams_iff (hnames f (List.mem_of_find?_eq_some hf))
  · intro hnodup values i hi
    rw [← htags] at hnodup ⊢
    exact receivedAt_eq hdistinct hnodup (hlength ▸ hi)

/-! ### A name that is taken -/

private theorem exists_pair_site {first : String}
    (hcompile : ∃ c, (pairProgram first).compile {} = .ok c)
    {keys : List String} (hlaunch : ∃ l, (pairProgram first).launches.sites = [l] ∧
      l.callee = "f" ∧ l.data.map DataArg.param = keys)
    {fields : List PayloadField}
    (hjson : Payload.ofParams (Function.ofDecl (pairTaker first)).entryParams = .json fields) :
    ∃ c s l, (pairProgram first).compile {} = .ok c ∧ l ∈ c.launches.sites ∧ s ∈ c.services ∧
      s.name = l.callee ∧ s.payload = .json fields ∧ l.callee = "f" ∧
      l.data.map DataArg.param = keys := by
  obtain ⟨c, hc⟩ := hcompile
  obtain ⟨l, hsites, hcallee, hkeys⟩ := hlaunch
  have hl : l ∈ (pairProgram first).launches.sites := hsites ▸ List.mem_singleton_self l
  obtain ⟨s, hs, hname⟩ := List.mem_map.mp
    (((Program.compile_services hc).mem_iff l.callee).mpr (List.mem_map_of_mem hl))
  obtain ⟨f, hf, hservice⟩ := Program.exists_of_mem_services hc hs
  rw [hname, hcallee] at hf
  cases hf
  refine ⟨c, s, l, hc, ?_, hs, hname, ?_, hcallee, hkeys⟩
  · rwa [(Program.exists_of_compile_eq_ok hc).1]
  · rw [(Program.service_interface hservice).2.2.1, hjson]

/-- The arguments of a function with names for all its parameters reach them. -/
theorem pairProgram_delivers : ∃ c s l fields, (pairProgram "n").compile {} = .ok c ∧
    l ∈ c.launches.sites ∧ s ∈ c.services ∧ s.name = l.callee ∧ s.payload = .json fields ∧
      l.data.map DataArg.param = ["n", "arg0"] ∧
      l.Delivers c.services (.ofDecl (pairTaker "n")) s fields := by
  obtain ⟨c, s, l, hc, hl, hs, hname, hjson, hcallee, hkeys⟩ :=
    exists_pair_site exists_compile_pairs.2 ⟨_, rfl, rfl, rfl⟩
      (congrArg Payload.json pairFields_eq.2)
  obtain ⟨f, hf, hdelivers⟩ := Program.compile_delivers hc (by decide) hl hs hname hjson
  rw [hcallee] at hf
  cases hf
  exact ⟨c, s, l, _, hc, hl, hs, hname, hjson, hkeys, hdelivers⟩

/-- A parameter without a name gets the one of the parameter behind it, so that two arguments are
sent under one key. -/
theorem pairProgram_collides : ∃ c s l fields, (pairProgram "_").compile {} = .ok c ∧
    (∀ f ∈ (pairProgram "_").functions, (f.params.filterMap Param.name?).Nodup) ∧
      l ∈ c.launches.sites ∧ s ∈ c.services ∧ s.name = l.callee ∧ s.payload = .json fields ∧
      l.data.map DataArg.param = ["arg0", "arg0"] := by
  obtain ⟨c, s, l, hc, hl, hs, hname, hjson, -, hkeys⟩ :=
    exists_pair_site exists_compile_pairs.1 ⟨_, rfl, rfl, rfl⟩
      (congrArg Payload.json pairFields_eq.1)
  exact ⟨c, s, l, _, hc, by decide, hl, hs, hname, hjson, hkeys⟩

end ServiceSplit
