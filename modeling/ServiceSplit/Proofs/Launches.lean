import ServiceSplit.Proofs.Except
import ServiceSplit.Service.Callback
import ServiceSplit.Service.Payload

/-!
# The launches of a program

A launch that is replaced was read off a `go` statement of the body it was found in. Its arguments
are those of the launched function, in the order of its parameters: the data arguments are for the
parameters that its service keeps, and the channel arguments for its callbacks.
-/

namespace ServiceSplit

/-- The parameter of a service that takes a data argument. -/
def DataArg.entryParam (d : DataArg) : EntryParam :=
  ⟨d.param, d.ty⟩

/-- The callback of the service of `function` that answers on a channel argument. -/
def ChannelArg.callback (function : String) (c : ChannelArg) : Callback :=
  ⟨function, c.param, c.elem, c.endpoint⟩

/-- The launch `l` is one of the function `f`, with an argument for every parameter. -/
structure Launch.Of (l : Launch) (f : Function) : Prop where
  callee : l.callee = f.name
  allowed : f.refusal = none
  data : l.data.map DataArg.entryParam = f.entryParams
  channels : l.channels.map (ChannelArg.callback f.name) = f.callbacks

/-! ### One `go` statement -/

namespace Launch.Context

variable {ctx : Context} {function : String}

theorem channelArg_eq_ok {taken : List String} {param : String} {elem : TypeExpr} {arg : Expr}
    {c : ChannelArg} (h : ctx.channelArg function taken param elem arg = .ok c) :
    ∃ name decl, arg.asName = some name ∧ name ∉ taken ∧ ctx.channelOrigin name = .ok decl ∧
      c = ⟨param, name, decl, elem, endpointName function param⟩ := by
  unfold channelArg at h
  split at h
  · cases h
  · cases h
  · rename_i name _ hname
    split at h
    · cases h
    · rename_i htaken
      obtain ⟨decl, hdecl, h⟩ := exists_of_bind_eq_ok h
      refine ⟨name, decl, hname, ?_, hdecl, (Except.ok.inj h).symm⟩
      simpa using htaken

/-- The arguments are those of the parameters, in order. Those that are sent are passed as they are,
and channels are free ones that are made in the launching function. -/
theorem arguments_eq_ok {params : List Param} {args : List Expr} {position : Nat}
    {taken : List String} {data : List DataArg} {channels : List ChannelArg}
    (hlength : args.length = params.length)
    (h : ctx.arguments function position taken (params.zip args) = .ok (data, channels)) :
    (∀ d ∈ data, d.arg ∈ args) ∧ (∀ c ∈ channels, ctx.channelOrigin c.arg = .ok c.decl) ∧
      data.map DataArg.entryParam =
        ((params.zipIdx position).filter (!·.1.isChannel)).map
          (fun (p, position) => ⟨dataParamName p.name? position, p.ty⟩) ∧
      channels.map (ChannelArg.callback function) =
        params.filterMap fun p =>
          match p.name?, p.elem? with
          | some name, some elem => some ⟨function, name, elem, endpointName function name⟩
          | _, _ => none := by
  induction params generalizing args position taken data channels with
  | nil =>
    cases h
    exact ⟨nofun, nofun, rfl, rfl⟩
  | cons p params ih =>
    cases args with
    | nil => cases hlength
    | cons arg args =>
      have hlength : args.length = params.length := Nat.succ.inj hlength
      rw [List.zip_cons_cons, arguments] at h
      cases hp : p.elem? with
      | none =>
        simp only [hp] at h
        obtain ⟨⟨data, channels⟩, hrest, h⟩ := exists_of_bind_eq_ok h
        cases h
        obtain ⟨hargs, horigin, hdata, hchannels⟩ := ih hlength hrest
        refine ⟨List.forall_mem_cons.mpr ⟨List.mem_cons_self, fun d hd => List.mem_cons_of_mem _
          (hargs d hd)⟩,
          horigin, ?_⟩
        rw [List.map_cons, hdata, hchannels]
        cases hn : p.name? <;>
          simp [List.zipIdx_cons, Param.isChannel, hp, hn, DataArg.entryParam]
      | some elem =>
        cases hn : p.name? with
        | none =>
          simp only [hp, hn] at h
          cases h
        | some name =>
          simp only [hp, hn] at h
          obtain ⟨channel, hchannel, h⟩ := exists_of_bind_eq_ok h
          obtain ⟨⟨data, channels⟩, hrest, h⟩ := exists_of_bind_eq_ok h
          cases h
          obtain ⟨hargs, horigin, hdata, hchannels⟩ := ih hlength hrest
          obtain ⟨arg, decl, -, -, hfree, rfl⟩ := channelArg_eq_ok hchannel
          refine ⟨fun d hd => List.mem_cons_of_mem _ (hargs d hd),
            List.forall_mem_cons.mpr ⟨hfree, horigin⟩, ?_⟩
          rw [List.map_cons, hdata, hchannels]
          simp [List.zipIdx_cons, Param.isChannel, hp, hn, ChannelArg.callback]

theorem launchOf_eq_ok {span : Span} {f : Function} {args : List Expr} {spread : Bool} {l : Launch}
    (h : ctx.launchOf span f args spread = .ok l) :
    l.Of f ∧ l.span = span ∧ (∀ d ∈ l.data, d.arg ∈ args) ∧
      ∀ c ∈ l.channels, ctx.channelOrigin c.arg = .ok c.decl := by
  unfold launchOf at h
  split at h
  · cases h
  · rename_i hrefusal
    split at h
    · cases h
    · split at h
      · cases h
      · rename_i hlength
        obtain ⟨⟨data, channels⟩, hargs, h⟩ := exists_of_bind_eq_ok h
        cases h
        obtain ⟨hargs, horigin, hdata, hchannels⟩ :=
          arguments_eq_ok (Decidable.not_not.mp hlength) hargs
        exact ⟨⟨rfl, hrefusal, hdata, hchannels⟩, rfl, hargs, horigin⟩

/-- A `go` statement that is replaced calls a function of the program. -/
theorem exists_launchOf_of_classify {span : Span} {call : Expr} {l : Launch}
    (h : ctx.classify span call = .ok l) : ∃ fn args spread sp f, call = .call fn args spread sp ∧
      ctx.callee? fn = some f ∧ ctx.launchOf span f args spread = .ok l := by
  unfold classify at h
  split at h
  · rename_i fn args spread sp
    split at h
    · cases h
    · rename_i f hcallee
      exact ⟨fn, args, spread, sp, f, rfl, hcallee, exists_of_mapError_eq_ok h⟩
  · cases h

/-- A `go` statement that is replaced launches a function of the program. -/
theorem exists_of_classify_eq_ok {span : Span} {call : Expr} {l : Launch}
    (h : ctx.classify span call = .ok l) :
    l.span = span ∧ ∃ f, ctx.program.find? f.name = some f ∧ l.Of f := by
  obtain ⟨fn, args, spread, sp, f, rfl, hcallee, h⟩ := exists_launchOf_of_classify h
  obtain ⟨hof, hspan, -⟩ := launchOf_eq_ok h
  refine ⟨hspan, f, ?_, hof⟩
  unfold callee? at hcallee
  split at hcallee
  · rename_i name hname
    split at hcallee
    · cases hcallee
    · have hfound : f.name = name := by
        simpa using List.find?_some hcallee
      rw [hfound]
      exact hcallee
  · cases hcallee

end Launch.Context

/-! ### The whole program -/

/-- The launch is read off a `go` statement among the events. -/
def Launch.FoundIn (program : Program) (events : List Event) (l : Launch) : Prop :=
  ∃ ctx call, .enter (.go call l.span) ∈ events ∧ ctx.program = program ∧
    Context.classify ctx l.span call = .ok l

/-- The events among which launches are found in a function. -/
def FuncDecl.bodyEvents (f : FuncDecl) : List Event :=
  (f.body.map (Block.events Launches.traversal)).getD []

namespace Launches.Search

variable (program : Program)

/-- An event adds the launch that it is, if it is one that is replaced. -/
theorem exists_step_sites (st : Search) (e : Event) :
    ∃ new, (st.step program e).found.sites = st.found.sites ++ new ∧
      ∀ l ∈ new, l.FoundIn program [e] := by
  cases e with
  | enter s =>
    cases s with
    | go call span =>
      simp only [step]
      cases hclass : Launch.Context.classify ⟨program, st.scopes, st.found.claimed⟩ span call with
      | error skipped => exact ⟨[], by simp [add], List.forall_mem_nil _⟩
      | ok l =>
        obtain rfl := (Launch.Context.exists_of_classify_eq_ok hclass).1
        exact ⟨[l], rfl, List.forall_mem_singleton.mpr
          ⟨⟨program, st.scopes, st.found.claimed⟩, call, List.mem_singleton_self _, rfl, hclass⟩⟩
    | _ => exact ⟨[], by simp [step], List.forall_mem_nil _⟩
  | _ => exact ⟨[], by simp [step], List.forall_mem_nil _⟩

/-- Events add the launches that are read off them. -/
theorem exists_foldl_sites (events : List Event) (st : Search) :
    ∃ new, (events.foldl (step program) st).found.sites = st.found.sites ++ new ∧
      ∀ l ∈ new, l.FoundIn program events := by
  induction events generalizing st with
  | nil => exact ⟨[], by simp, List.forall_mem_nil _⟩
  | cons e events ih =>
    obtain ⟨first, hfirst, hin⟩ := exists_step_sites program st e
    obtain ⟨rest, hrest, hinrest⟩ := ih (st.step program e)
    refine ⟨first ++ rest, by rw [List.foldl_cons, hrest, hfirst, List.append_assoc], ?_⟩
    intro l hl
    rcases List.mem_append.mp hl with hl | hl
    · obtain ⟨ctx, call, hmem, hctx⟩ := hin l hl
      exact ⟨ctx, call, List.mem_singleton.mp hmem ▸ List.mem_cons_self, hctx⟩
    · obtain ⟨ctx, call, hmem, hctx⟩ := hinrest l hl
      exact ⟨ctx, call, List.mem_cons_of_mem e hmem, hctx⟩

/-- The body of a function adds the launches that are read off it. -/
theorem exists_body_sites (found : Launches) (f : FuncDecl) :
    ∃ new, (body program found f).sites = found.sites ++ new ∧
      ∀ l ∈ new, l.FoundIn program f.bodyEvents := by
  cases hbody : f.body with
  | none => exact ⟨[], by simp [body, hbody], List.forall_mem_nil _⟩
  | some b =>
    simp only [body, hbody, FuncDecl.bodyEvents, Option.map_some, Option.getD_some]
    exact exists_foldl_sites program _ _

theorem exists_foldl_body_sites (fs : List FuncDecl) (found : Launches) :
    ∃ new, (fs.foldl (body program) found).sites = found.sites ++ new ∧
      ∀ l ∈ new, ∃ f ∈ fs, l.FoundIn program f.bodyEvents := by
  induction fs generalizing found with
  | nil => exact ⟨[], by simp, List.forall_mem_nil _⟩
  | cons f fs ih =>
    obtain ⟨first, hfirst, hin⟩ := exists_body_sites program found f
    obtain ⟨rest, hrest, hinrest⟩ := ih (body program found f)
    refine ⟨first ++ rest, by rw [List.foldl_cons, hrest, hfirst, List.append_assoc], ?_⟩
    intro l hl
    rcases List.mem_append.mp hl with hl | hl
    · exact ⟨f, List.mem_cons_self, hin l hl⟩
    · obtain ⟨g, hg, hgin⟩ := hinrest l hl
      exact ⟨g, List.mem_cons_of_mem f hg, hgin⟩

end Launches.Search

theorem File.mem_functions {file : File} {f : FuncDecl} (h : f ∈ file.functions) :
    .func f ∈ file.decls := by
  obtain ⟨d, hd, heq⟩ := List.mem_filterMap.mp h
  cases d with
  | func g => exact Option.some.inj heq ▸ hd
  | gen g => cases heq

/-- Every launch that is replaced is read off the body of a function, and launches a function of the
program. -/
theorem Program.exists_of_mem_sites {program : Program} {l : Launch}
    (h : l ∈ program.launches.sites) :
    (∃ f ∈ program.file.functions, l.FoundIn program f.bodyEvents) ∧
      ∃ f, program.find? l.callee = some f ∧ l.Of f := by
  obtain ⟨new, hnew, hin⟩ :=
    Launches.Search.exists_foldl_body_sites program program.file.functions {}
  obtain ⟨f, hf, hfound⟩ := hin l (by simpa [launches, hnew] using h)
  obtain ⟨ctx, call, -, hctx, hclass⟩ := id hfound
  obtain ⟨-, g, hg, hof⟩ := Launch.Context.exists_of_classify_eq_ok hclass
  refine ⟨⟨f, hf, hfound⟩, g, ?_, hof⟩
  rw [hof.callee, ← hctx]
  exact hg

end ServiceSplit
