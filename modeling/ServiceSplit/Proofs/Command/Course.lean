import ServiceSplit.Proofs.Artifact.Names
import ServiceSplit.Proofs.Command.Relation
import ServiceSplit.Proofs.Command.Writing
import ServiceSplit.Proofs.Compilation.Replacement
import ServiceSplit.Proofs.Parser.Source

/-!
# The course of a run

A run first reads, then writes, and starts other programs last. To say when a program is started,
runs are watched: a watched host does what a rehearsal does, and notes each start of a program with
the files that there are at that moment, also if the program cannot be started.

## Main definitions

* `Watched.host`: a rehearsal that notes each start of a program.
* `FileTree.Refuses`: a run cannot go on with what is there.
* `FileTree.Supplies`: all that a run needs is there.

## Main results

* `command_starts_after_writing`: a run starts programs behind the writing only.
-/

namespace ServiceSplit

/-! ### Watched rehearsals -/

/-- A start of a program. -/
structure Start where
  /-- The call. -/
  call : Invocation
  /-- The files at the moment of the call. -/
  tree : FileTree

/-- A rehearsal with the starts of programs so far. -/
structure Watched where
  /-- The rehearsal. -/
  rehearsal : Rehearsal
  /-- The starts. -/
  starts : List Start := []

namespace Watched

variable {α β : Type}

/-- Does what a rehearsal does. -/
def lift (x : StateM Rehearsal α) : StateM Watched α :=
  modifyGet fun w =>
    let (a, rehearsal) := x.run w.rehearsal
    (a, { w with rehearsal })

/-- Notes a start. -/
def note (call : Invocation) : StateM Watched Unit :=
  modify fun w => { w with starts := w.starts ++ [⟨call, w.rehearsal.tree⟩] }

/-- The host of a watched rehearsal. -/
def host : Host (StateM Watched) where
  readFile path := lift (Rehearsal.host.readFile path)
  isFile path := lift (Rehearsal.host.isFile path)
  pathExists path := lift (Rehearsal.host.pathExists path)
  removeTree path := lift (Rehearsal.host.removeTree path)
  createDirs path := lift (Rehearsal.host.createDirs path)
  writeFile path text := lift (Rehearsal.host.writeFile path text)
  run call := do
    note call
    lift (Rehearsal.host.run call)
  pause ms := lift (Rehearsal.host.pause ms)

/-! ### Relations between watched and plain runs -/

theorem run_bind_eq {σ : Type} (x : StateM σ α) (f : α → StateM σ β) (s : σ) :
    (x >>= f).run s = (f (x.run s).1).run (x.run s).2 :=
  rfl

/-- Without the notes, one computation is the other; the programs that the other runs are among
those noted. -/
def forgets : Link (StateM Watched) (StateM Rehearsal) where
  Rel x y :=
    ∀ w, ∃ new, x.run w = ((y.run w.rehearsal).1, ⟨(y.run w.rehearsal).2, w.starts ++ new⟩) ∧
    ∃ called, called.Sublist (new.map Start.call) ∧
      (y.run w.rehearsal).2.runs = w.rehearsal.runs ++ called
  rel_pure a w := ⟨[], by rw [List.append_nil]; rfl, [], .slnil, by rw [List.append_nil]; rfl⟩
  rel_bind := by
    intro α β x y f g hx hf w
    obtain ⟨new, hrun, called, hsub, hcalled⟩ := hx w
    obtain ⟨new', hrun', called', hsub', hcalled'⟩ := hf (y.run w.rehearsal).1 ⟨_, w.starts ++ new⟩
    refine ⟨new ++ new', ?_, called ++ called', ?_, ?_⟩
    · rw [run_bind_eq, hrun, run_bind_eq, hrun', List.append_assoc]
    · simpa using hsub.append hsub'
    · rw [run_bind_eq, hcalled', hcalled, List.append_assoc]

/-- From a rehearsal without notes, both computations come to the same. -/
theorem exists_of_forgets {x : StateM Watched α} {y : StateM Rehearsal α} (h : forgets.Rel x y)
    (r : Rehearsal) : ∃ a r' starts, y.run r = (a, r') ∧ x.run ⟨r, []⟩ = (a, ⟨r', starts⟩) ∧
      ∃ called, called.Sublist (starts.map Start.call) ∧ r'.runs = r.runs ++ called := by
  obtain ⟨starts, hrun, hcalled⟩ := h ⟨r, []⟩
  exact ⟨_, _, starts, rfl, hrun, hcalled⟩

/-- One computation is the other, and notes nothing. -/
def copies : Link (StateM Watched) (StateM Rehearsal) where
  Rel x y := ∀ w, x.run w = ((y.run w.rehearsal).1, ⟨(y.run w.rehearsal).2, w.starts⟩)
  rel_pure a w := rfl
  rel_bind := by
    intro α β x y f g hx hf w
    rw [run_bind_eq, hx, run_bind_eq]
    exact hf _ _

/-- The computation leaves the files as they are, and notes them with each start. -/
def steady : Link (StateM Watched) (StateM Watched) where
  Rel x _ := ∀ w, (x.run w).2.rehearsal.tree = w.rehearsal.tree ∧
    ∃ new, (x.run w).2.starts = w.starts ++ new ∧ ∀ s ∈ new, s.tree = w.rehearsal.tree
  rel_pure a w := ⟨rfl, [], by rw [List.append_nil]; rfl, nofun⟩
  rel_bind := by
    intro α β x y f g hx hf w
    obtain ⟨htree, new, hnew, hstarts⟩ := hx w
    obtain ⟨htree', new', hnew', hstarts'⟩ := hf (x.run w).1 (x.run w).2
    rw [run_bind_eq]
    refine ⟨htree'.trans htree, new ++ new', ?_, List.forall_mem_append.mpr ⟨hstarts, ?_⟩⟩
    · exact hnew'.trans (by rw [hnew, List.append_assoc])
    · exact fun s hs => (hstarts' s hs).trans htree

/-! ### The operations of the host -/

theorem copies_lift (x : StateM Rehearsal α) : copies.Rel (lift x) x :=
  fun _ => rfl

theorem copies_reads : host.LinksReads copies Rehearsal.host where
  readFile _ := copies_lift _
  isFile _ := copies_lift _

theorem copies_writes : host.LinksWrites copies Rehearsal.host where
  pathExists _ := copies_lift _
  removeTree _ := copies_lift _
  createDirs _ := copies_lift _
  writeFile _ _ := copies_lift _

/-- What is copied and runs no program is noted completely. -/
theorem forgets_lift {x : StateM Rehearsal α} (h : ∀ r, (x.run r).2.runs = r.runs) :
    forgets.Rel (lift x) x :=
  fun w => ⟨[], by rw [List.append_nil]; rfl, [], .slnil, by rw [h, List.append_nil]⟩

theorem runs_isFile (path : String) (r : Rehearsal) :
    ((Rehearsal.host.isFile path).run r).2.runs = r.runs := by
  simp only [Rehearsal.host, StateT.run_bind, StateT.run_get, pure_bind]
  split <;> rfl

theorem runs_onTree (f : FileTree → Except OsError FileTree) (r : Rehearsal) :
    ((Rehearsal.onTree f).run r).2.runs = r.runs := by
  rw [Rehearsal.onTree, StateT.run_modifyGet]
  split <;> rfl

theorem forgets_reads : host.LinksReads forgets Rehearsal.host where
  readFile _ := forgets_lift fun _ => rfl
  isFile path := forgets_lift (runs_isFile path)

theorem forgets_writes : host.LinksWrites forgets Rehearsal.host where
  pathExists _ := forgets_lift fun _ => rfl
  removeTree _ := forgets_lift (runs_onTree _)
  createDirs _ := forgets_lift (runs_onTree _)
  writeFile _ _ := forgets_lift (runs_onTree _)

/-- A program that is called either runs or leaves all as it was. -/
theorem run_call (call : Invocation) (r : Rehearsal) :
    ((Rehearsal.host.run call).run r).2 = r ∨
      ((Rehearsal.host.run call).run r).2 = { r with runs := r.runs ++ [call] } := by
  simp only [Rehearsal.host, Rehearsal.run, StateT.run_modifyGet]
  split
  · exact .inl rfl
  · exact .inr rfl

theorem forgets_programs : host.LinksPrograms forgets Rehearsal.host where
  run call w := by
    refine ⟨[⟨call, w.rehearsal.tree⟩], rfl, ?_⟩
    rcases run_call call w.rehearsal with h | h
    · exact ⟨[], List.nil_sublist _, by rw [h, List.append_nil]⟩
    · exact ⟨[call], .refl _, by rw [h]⟩
  pause _ := forgets_lift fun _ => rfl

theorem steady_programs : host.LinksPrograms steady host where
  run call w := by
    refine ⟨?_, [⟨call, w.rehearsal.tree⟩], rfl, List.forall_mem_singleton.mpr rfl⟩
    change ((Rehearsal.host.run call).run w.rehearsal).2.tree = w.rehearsal.tree
    rcases run_call call w.rehearsal with h | h <;> rw [h]
  pause _ w := ⟨rfl, [], (List.append_nil _).symm, nofun⟩

end Watched

/-! ### What a run reads -/

/-- Settings with the registry that is given. -/
def Options.adjusted (o : Options) (config : Config) : Config :=
  match o.registry with
  | some location => { config with registry := { location } }
  | none => config

namespace FileTree

variable {t : FileTree} {o : Options}

/-- Where the settings of a run are: at the path that is given, or at the usual one if there is a
file. -/
def configPath? (t : FileTree) (o : Options) : Option String :=
  match o.config with
  | some path => some path
  | none => (t.read defaultConfigPath).toOption.map fun _ => defaultConfigPath

/-- The settings that a tree holds for a run. -/
def settings (t : FileTree) (o : Options) : Except Failure Config :=
  o.adjusted <$> match t.configPath? o with
    | some path => (t.read path).mapError (.access path) >>= Config.ofText path
    | none => .ok {}

/-- The settings and the program that a tree holds for a run. -/
def prepared (t : FileTree) (o : Options) : Except Failure (Config × Program) := do
  let config ← t.settings o
  let source ← (t.read o.filename).mapError (.access o.filename)
  let program ← Program.load o.filename source
  return (config, program)

/-- A tree has not all that a run needs. -/
inductive Refuses (t : FileTree) (o : Options) : Prop
  /-- The settings cannot be read, or are wrong. -/
  | badSettings {e : Failure} (hconfig : t.settings o = .error e)
  /-- The program cannot be read. -/
  | unreadable {e : OsError} (hread : t.read o.filename = .error e)
  /-- The text is not that of a program. -/
  | notLoaded {source : String} {e : Failure} (hread : t.read o.filename = .ok source)
    (hload : Program.load o.filename source = .error e)
  /-- The program has no compilation. -/
  | notCompiled {config : Config} {source : String} {program : Program} {e : Failure}
    (hconfig : t.settings o = .ok config) (hread : t.read o.filename = .ok source)
    (hload : Program.load o.filename source = .ok program)
    (hcompile : program.compile config = .error e)

/-- A tree has settings and a program with a compilation. -/
structure Supplies (t : FileTree) (o : Options) (config : Config) (c : Compilation) : Prop where
  settings : t.settings o = .ok config
  compile : ∃ source program, t.read o.filename = .ok source ∧
    Program.load o.filename source = .ok program ∧ program.compile config = .ok c

theorem prepared_eq_ok_iff {config : Config} {program : Program} :
    t.prepared o = .ok (config, program) ↔ t.settings o = .ok config ∧
      ∃ source, t.read o.filename = .ok source ∧ Program.load o.filename source = .ok program := by
  unfold prepared
  cases t.settings o with
  | error e => simp [bind, Except.bind]
  | ok config' =>
    cases t.read o.filename with
    | error e => simp [bind, Except.bind, Except.mapError]
    | ok source =>
      cases hload : Program.load o.filename source with
      | error e => simp [bind, Except.bind, Except.mapError, hload]
      | ok program' => simp [bind, Except.bind, Except.mapError, hload, pure, Except.pure]

/-- What a refused run reads has no compilation. -/
theorem Refuses.compile (h : t.Refuses o) {config : Config} {program : Program}
    (hprepared : t.prepared o = .ok (config, program)) :
    ∃ e, program.compile config = .error e := by
  obtain ⟨hconfig', source', hread', hload'⟩ := prepared_eq_ok_iff.mp hprepared
  cases h with
  | badSettings hconfig => cases hconfig.symm.trans hconfig'
  | unreadable hread => cases hread.symm.trans hread'
  | notLoaded hread hload =>
    cases hread.symm.trans hread'
    cases hload.symm.trans hload'
  | notCompiled hconfig hread hload hcompile =>
    cases hconfig.symm.trans hconfig'
    cases hread.symm.trans hread'
    cases hload.symm.trans hload'
    exact ⟨_, hcompile⟩

end FileTree

namespace Rehearsal

variable {α β : Type} {r : Rehearsal}

/-- The computation has a result and leaves all as it was. -/
def Answers (x : ExceptT Failure (StateM Rehearsal) α) (r : Rehearsal) (result : Except Failure α) :
    Prop :=
  x.run.run r = (result, r)

theorem Answers.bind {x : ExceptT Failure (StateM Rehearsal) α} {result : Except Failure α}
    {f : α → ExceptT Failure (StateM Rehearsal) β} {g : α → Except Failure β}
    (hx : Answers x r result) (hf : ∀ a, Answers (f a) r (g a)) :
    Answers (x >>= f) r (result >>= g) := by
  unfold Answers at hx ⊢
  rw [ExceptT.run_bind, Watched.run_bind_eq, hx]
  cases result with
  | error e => rfl
  | ok a => exact hf a

theorem answers_read (path : String) :
    Answers (Host.accessing path (host.readFile path)) r
      ((r.tree.read path).mapError (.access path)) :=
  rfl

theorem answers_readConfig (path : String) : Answers (host.readConfig path) r
    ((r.tree.read path).mapError (.access path) >>= Config.ofText path) :=
  (answers_read path).bind fun _ => rfl

/-- There is a file where something can be read. -/
theorem run_isFile (path : String) (r : Rehearsal) :
    (host.isFile path).run r = ((r.tree.read path).toOption.isSome, r) := by
  simp only [host, StateT.run_bind, StateT.run_get, pure_bind]
  unfold FileTree.read FileTree.at?
  cases r.tree.locate path with
  | error e => rfl
  | ok place =>
    cases hnode : r.tree.node? place with
    | none => simp [hnode, bind, Except.bind, Except.toOption]; rfl
    | some n => cases n <;> simp [hnode, bind, Except.bind, Except.toOption] <;> rfl

theorem answers_findConfig (o : Options) : Answers (host.findConfig o.config) r
    (match r.tree.configPath? o with
      | some path => (r.tree.read path).mapError (.access path) >>= Config.ofText path
      | none => .ok {}) := by
  unfold FileTree.configPath?
  cases o.config with
  | some path => exact answers_readConfig path
  | none =>
    have hisFile : Answers (ExceptT.lift (host.isFile defaultConfigPath)) r
        (.ok (r.tree.read defaultConfigPath).toOption.isSome) := by
      unfold Answers ExceptT.lift
      change (Except.ok <$> host.isFile defaultConfigPath).run r = _
      rw [StateT.run_map, run_isFile]
      rfl
    have hfind : Answers (host.findConfig none) r
        (if (r.tree.read defaultConfigPath).toOption.isSome then
          (r.tree.read defaultConfigPath).mapError (.access defaultConfigPath) >>=
            Config.ofText defaultConfigPath
        else .ok {}) := by
      refine hisFile.bind (g := fun found : Bool => if found then
        (r.tree.read defaultConfigPath).mapError (.access defaultConfigPath) >>=
          Config.ofText defaultConfigPath
        else .ok {}) fun found => ?_
      cases found
      · rfl
      · exact answers_readConfig _
    cases hread : (r.tree.read defaultConfigPath).toOption with
    | none =>
      rw [hread] at hfind
      exact hfind
    | some text =>
      rw [hread] at hfind
      exact hfind

/-- Reading the settings and the program changes nothing. -/
theorem answers_prepare (o : Options) : Answers (host.prepare o) r (r.tree.prepared o) := by
  have hrest : ∀ config, Answers (do
      let source ← Host.accessing o.filename (host.readFile o.filename)
      let program ← Host.settled (Program.load o.filename source)
      return (o.adjusted config, program)) r (do
        let source ← (r.tree.read o.filename).mapError (.access o.filename)
        let program ← Program.load o.filename source
        return (o.adjusted config, program)) := by
    intro config
    refine (answers_read o.filename).bind fun source => ?_
    exact Answers.bind (x := Host.settled _) rfl fun program => rfl
  have hfind := (answers_findConfig (r := r) o).bind hrest
  unfold FileTree.prepared FileTree.settings
  rw [bind_map_left]
  exact hfind

end Rehearsal

/-! ### What a run writes -/

/-- A name that is read as one is that of an entry. -/
theorem isEntryName_of_isPlain {name : String} (h : (TokenKind.ident name).isPlain = true) :
    IsEntryName name := by
  obtain ⟨c, cs, hname, hstart, hrest, -⟩ := TokenKind.exists_of_isPlain_ident h
  have hword : ∀ d ∈ name.toList, Text.isWordChar d = true := by
    rw [hname]
    refine List.forall_mem_cons.mpr ⟨?_, hrest⟩
    rw [Text.isWordStart, Bool.or_eq_true] at hstart
    rcases hstart with hc | hc <;> simp [Text.isWordChar, hc]
  have hne : ∀ other : String, other.toList.head?.all (!Text.isWordChar ·) = true →
    name ≠ other := by
    rintro _ hother rfl
    rw [hname] at hother hword
    simp [hword c List.mem_cons_self] at hother
  exact ⟨fun hslash => absurd (hword _ hslash) (by decide), hne "" rfl, hne "." (by decide),
    hne ".." (by decide)⟩

theorem isStorable_artifactFiles (config : Config) {name : String}
    (source support deployment : String) (h : IsEntryName name) :
    (⟨name, artifactFiles config name source support deployment⟩ : Artifact).IsStorable := by
  have hnames : (artifactFiles config name source support deployment).map Prod.fst =
      ["main.go", "kompile_runtime.go", "go.mod", "Dockerfile", "deployment.yml"] := rfl
  have hentries : ∀ n ∈ ["main.go", "kompile_runtime.go", "go.mod", "Dockerfile", "deployment.yml"],
      IsEntryName n := by decide
  refine ⟨h, fun file hfile => hentries _ (hnames ▸ List.mem_map_of_mem hfile), ?_, nofun⟩
  rw [hnames]
  decide

namespace Program

variable {path source : String} {program : Program} {config : Config} {c : Compilation}

/-- The artifacts of a program that is loaded from a text can be stored. -/
theorem isStorable_artifacts (hload : Program.load path source = .ok program)
    (h : program.compile config = .ok c) : ∀ a ∈ c.artifacts config, a.IsStorable := by
  intro a ha
  rcases List.mem_append.mp ha with ha | ha
  · obtain ⟨s, hs, rfl⟩ := List.mem_map.mp ha
    refine isStorable_artifactFiles config _ _ _ (isEntryName_of_isPlain ?_)
    obtain ⟨f, hf, hname, -⟩ := exists_function_of_mem_services h hs
    obtain ⟨d, hd, -, rfl⟩ := load_functions hload f hf
    rw [← hname]
    exact isPlain_name_of_parseFile (parseFile_of_load hload) hd
  · rw [List.mem_singleton.mp ha]
    exact isStorable_artifactFiles config _ _ _ (by decide)

end Program

/-! ### Whole runs -/

namespace Watched

variable {α β σ : Type} {o : Options} {config : Config} {program : Program} {w : Watched}

theorem run_bind_ok {x : ExceptT Failure (StateM σ) α} {f : α → ExceptT Failure (StateM σ) β}
    {s s' : σ} {a : α} (h : x.run.run s = (.ok a, s')) :
    (x >>= f).run.run s = (f a).run.run s' := by
  rw [ExceptT.run_bind, run_bind_eq, h]

theorem run_bind_error {x : ExceptT Failure (StateM σ) α} {f : α → ExceptT Failure (StateM σ) β}
    {s s' : σ} {e : Failure} (h : x.run.run s = (.error e, s')) :
    (x >>= f).run.run s = (.error e, s') := by
  rw [ExceptT.run_bind, run_bind_eq, h]
  rfl

theorem run_settled (result : Except Failure α) (s : σ) :
    (Host.settled result : ExceptT Failure (StateM σ) α).run.run s = (result, s) :=
  rfl

theorem run_prepare (o : Options) (w : Watched) :
    (host.prepare o).run.run w = (w.rehearsal.tree.prepared o, w) := by
  have hcopy := Link.prepare copies_reads o w
  rwa [show _ = _ from Rehearsal.answers_prepare o] at hcopy

/-- Without a compilation, nothing is written and nothing started. -/
theorem run_produce_of_error {e : Failure} (h : program.compile config = .error e) (w : Watched) :
    (host.produce o config program).run.run w = (.error e, w) := by
  unfold Host.produce
  rw [h]
  exact run_bind_error (run_settled _ w)

/-- A program is started only behind a writing of all artifacts that ends well, and finds the files
that were written. -/
theorem exists_starts_of_produce {c : Compilation} (h : program.compile config = .ok c)
    (w : Watched) :
    ∃ new, ((host.produce o config program).run.run w).2.starts = w.starts ++ new ∧
      ∀ s ∈ new, o.noDeploy = false ∧ ∃ dirs r,
        Rehearsal.Ends (Rehearsal.host.writeArtifacts o.output (c.artifacts config)) w.rehearsal
          dirs r ∧ s.tree = r.tree := by
  unfold Host.produce
  rw [h, run_bind_ok (run_settled (.ok c) w)]
  have hcopy := Link.writeArtifacts copies_writes o.output (c.artifacts config) w
  generalize hwrite : (Rehearsal.host.writeArtifacts o.output
    (c.artifacts config)).run.run w.rehearsal = written at hcopy
  obtain ⟨e | dirs, r⟩ := written
  · rw [run_bind_error hcopy]
    exact ⟨[], (List.append_nil _).symm, nofun⟩
  · rw [run_bind_ok hcopy]
    split
    · exact ⟨[], (List.append_nil _).symm, nofun⟩
    · rename_i hdeploy
      obtain ⟨-, new, hnew, hstarts⟩ := Link.deployment
        (Link.linksPlatform steady_programs config) dirs c.controller.services ⟨r, w.starts⟩
      refine ⟨new, hnew, fun s hs => ⟨by simpa using hdeploy, dirs, r, hwrite, hstarts s hs⟩⟩

variable {args : List String}

theorem run_command_of_error (hargs : Options.ofArgs args = .ok o) {e : Failure}
    (h : w.rehearsal.tree.prepared o = .error e) :
    (host.command args).run w = (.failed e false, w) := by
  unfold Host.command Host.compileAndDeploy
  rw [hargs]
  dsimp only
  rw [run_bind_eq, run_prepare, h]
  rfl

theorem run_command_of_ok (hargs : Options.ofArgs args = .ok o)
    (h : w.rehearsal.tree.prepared o = .ok (config, program)) :
    (host.command args).run w =
      (match ((host.produce o config program).run.run w).1 with
        | .error e => .failed e true
        | .ok addresses => .finished addresses,
      ((host.produce o config program).run.run w).2) := by
  unfold Host.command Host.compileAndDeploy
  rw [hargs]
  dsimp only
  rw [run_bind_eq, run_prepare, h]
  dsimp only
  rw [run_bind_eq]
  cases ((host.produce o config program).run.run w).1 <;> rfl

end Watched

/-- A run that is refused shows exit code 1 and changes nothing. Another run starts a program only
if it is to deploy, and only when each file of each artifact is there to be read. Whatever program
has run in the end was started so. -/
theorem command_starts_after_writing {args : List String} {o : Options}
    (hargs : Options.ofArgs args = .ok o) (r : Rehearsal) :
    ∃ outcome r' starts, (Rehearsal.host.command args).run r = (outcome, r') ∧
      (Watched.host.command args).run ⟨r, []⟩ = (outcome, ⟨r', starts⟩) ∧
      (∃ called, called.Sublist (starts.map Start.call) ∧ r'.runs = r.runs ++ called) ∧
      (r.tree.Refuses o → outcome.exitCode = 1 ∧ r' = r ∧ starts = []) ∧
      ∀ s ∈ starts, o.noDeploy = false ∧ ∃ config c, r.tree.Supplies o config c ∧
        ∀ a ∈ c.artifacts config, ∀ file ∈ a.files,
          s.tree.read (joinPath (joinPath o.output a.name) file.1) = .ok file.2 := by
  obtain ⟨outcome, r', starts, hplain, hrun, hcalled⟩ := Watched.exists_of_forgets
    (Link.command Watched.forgets_reads Watched.forgets_writes Watched.forgets_programs args) r
  refine ⟨outcome, r', starts, hplain, hrun, hcalled, ?_⟩
  cases hprepared : r.tree.prepared o with
  | error e =>
    rw [Watched.run_command_of_error (w := ⟨r, []⟩) hargs hprepared] at hrun
    cases hrun
    exact ⟨fun _ => ⟨rfl, rfl, rfl⟩, nofun⟩
  | ok pair =>
    obtain ⟨config, program⟩ := pair
    rw [Watched.run_command_of_ok (w := ⟨r, []⟩) hargs hprepared] at hrun
    cases hcompile : program.compile config with
    | error e =>
      rw [Watched.run_produce_of_error hcompile] at hrun
      cases hrun
      exact ⟨fun _ => ⟨rfl, rfl, rfl⟩, nofun⟩
    | ok c =>
      refine ⟨fun hrefuses => ?_, fun s hs => ?_⟩
      · obtain ⟨e, he⟩ := hrefuses.compile hprepared
        cases he.symm.trans hcompile
      · obtain ⟨new, hnew, hstarts⟩ := Watched.exists_starts_of_produce (o := o) hcompile ⟨r, []⟩
        obtain rfl : starts = new := by
          rw [(Prod.mk.inj hrun).2, List.nil_append] at hnew
          exact hnew
        obtain ⟨hdeploy, dirs, r', hends, htree⟩ := hstarts s hs
        obtain ⟨hconfig, source, hread, hload⟩ := FileTree.prepared_eq_ok_iff.mp hprepared
        refine ⟨hdeploy, config, c, ⟨hconfig, source, program, hread, hload, hcompile⟩, ?_⟩
        rw [htree]
        refine hends.read_of_writeArtifacts (Program.isStorable_artifacts hload hcompile) ?_
        rw [Compilation.artifacts_map_name]
        exact Program.nodup_artifactNames hcompile

/-! ### A machine with a program that launches a function -/

/-- A machine with a program that launches `f`, a text that is no program, and a directory for
artifacts with something in it. -/
def machineWith (output : List (String × Node)) : Rehearsal where
  tree := ⟨.directory [("output", .directory output), ("main.go", .file oneLaunch),
    ("broken.go", .file "package main\n\nfunc main() \x7b\n")], []⟩

/-- The machine with an old file in the directory of the controller. -/
def twoTexts : Rehearsal :=
  machineWith [("controller", .directory [("stale.txt", .file "old")])]

/-- The directory of an artifact with its first files in it. -/
private def Artifact.dirAfter (a : Artifact) (k : Nat) : String × Node :=
  (a.name, .directory ((a.files.take k).reverse.map fun file => (file.1, .file file.2)))

private theorem Rehearsal.Ends.via {α β : Type} {r r'' : Rehearsal}
    {x : ExceptT Failure (StateM Rehearsal) α} {f : α → ExceptT Failure (StateM Rehearsal) β}
    {a : α} {b : β} (r' : Rehearsal) (h : Ends x r a r') (h' : Ends (f a) r' b r'') :
    Ends (x >>= f) r b r'' :=
  (Watched.run_bind_ok h).trans h'

/-- The program is compiled to one service. -/
theorem exists_compile_oneLaunch : ∃ program c, Program.load "main.go" oneLaunch = .ok program ∧
    program.compile {} = .ok c ∧ c.services.map Service.name = ["f"] := by
  obtain ⟨program, c, -, hload, hcompile, -, hcallees⟩ :=
    Program.exists_load_compile plainNameF "main.go" oneLaunchText
  exact ⟨program, c, hload, hcompile,
    (Program.compile_services_name hcompile).trans (eq_of_beq hcallees)⟩

/-- A service `f` and the controller are written, whatever the texts of their files are. -/
theorem twoTexts_writes {c : Compilation} (h : c.services.map Service.name = ["f"]) :
    ∃ t, Rehearsal.Ends (Rehearsal.host.writeArtifacts "output" (c.artifacts {})) twoTexts
      [⟨"f", "output/f"⟩, ⟨"controller", "output/controller"⟩] { tree := t } := by
  obtain ⟨s, hs, hname⟩ := List.map_eq_singleton_iff.mp h
  let one k := machineWith [(s.artifact {}).dirAfter k,
    ("controller", .directory [("stale.txt", .file "old")])]
  let two k := machineWith [(c.controller.artifact {}).dirAfter k, (s.artifact {}).dirAfter 5]
  refine ⟨(two 5).tree, ?_⟩
  obtain ⟨name, _⟩ := s
  obtain rfl : name = "f" := hname
  simp only [Host.writeArtifacts, Compilation.artifacts, hs, List.map_cons, Service.artifact,
    artifactFiles, List.map_nil, Controller.artifact, controllerName, List.cons_append,
    List.nil_append, List.mapM_cons, Host.writeArtifact, joinPath, String.reduceToList,
    List.getLast?_cons_cons, List.getLast?_singleton, Option.some.injEq, Char.reduceEq,
    ↓reduceIte, String.reduceAppend, List.forM_eq_forM, List.forM_cons, List.forM_nil, bind_assoc,
    pure_bind, List.mapM_nil]
  -- One step makes a directory empty, five write files to it.
  exact .via (one 0) rfl <| .via (one 1) rfl <| .via (one 2) rfl <| .via (one 3) rfl <|
    .via (one 4) rfl <| .via (one 5) rfl <| .via (two 0) rfl <| .via (two 1) rfl <|
    .via (two 2) rfl <| .via (two 3) rfl <| .via (two 4) rfl <| .via (two 5) rfl rfl

private theorem broken_not_loaded :
    (Program.load "broken.go" "package main\n\nfunc main() \x7b\n").toOption.isNone = true := by
  decide +kernel

theorem twoTexts_starts_after_writing :
    (∃ outcome r', ∃ starts : List Start,
      (Rehearsal.host.command ["-f", "main.go"]).run twoTexts = (outcome, r') ∧
      starts.map (fun s => s.call.program) = ["go"] ∧
      ∀ s ∈ starts, ∃ o config c, twoTexts.tree.Supplies o config c ∧
        c.services.map Service.name = ["f"] ∧ ∀ a ∈ c.artifacts config, ∀ file ∈ a.files,
          s.tree.read (joinPath (joinPath "output" a.name) file.1) = .ok file.2) ∧
    ∃ outcome, (Rehearsal.host.command ["-f", "broken.go"]).run twoTexts = (outcome, twoTexts) ∧
      outcome.exitCode = 1 := by
  have hargs : ∀ filename ∈ ["main.go", "broken.go"], Options.ofArgs ["-f", filename] =
      .ok ⟨filename, "output", none, none, false, false⟩ := by decide
  constructor
  · have hargs := hargs "main.go" (by simp)
    obtain ⟨program, c, hload, hcompile, hnames⟩ := exists_compile_oneLaunch
    obtain ⟨outcome, r', starts, hplain, hrun, -, -, hstarts⟩ :=
      command_starts_after_writing hargs twoTexts
    have hsettings : twoTexts.tree.settings ⟨"main.go", "output", none, none, false, false⟩ =
        .ok {} := rfl
    have hread : twoTexts.tree.read "main.go" = .ok oneLaunch := rfl
    refine ⟨outcome, r', starts, hplain, ?_, fun s hs => ?_⟩
    · -- The first program that is started is not there, so it is the only one.
      obtain ⟨t, hends⟩ := twoTexts_writes hnames
      have hcopy :=
        Link.writeArtifacts Watched.copies_writes "output" (c.artifacts {}) ⟨twoTexts, []⟩
      rw [show _ = _ from hends] at hcopy
      rw [Watched.run_command_of_ok (w := ⟨twoTexts, []⟩) hargs
        (FileTree.prepared_eq_ok_iff.mpr ⟨hsettings, _, hread, hload⟩), Host.produce, hcompile,
        Watched.run_bind_ok (Watched.run_settled (.ok c) _), Watched.run_bind_ok hcopy] at hrun
      rw [show starts = _ from congrArg (Watched.starts ∘ Prod.snd) hrun.symm]
      rfl
    · obtain ⟨-, config, c', hsupplies, hfiles⟩ := hstarts s hs
      refine ⟨_, config, c', hsupplies, ?_, hfiles⟩
      obtain ⟨hsettings', source, program', hread', hload', hcompile'⟩ := hsupplies
      cases hsettings.symm.trans hsettings'
      cases hread.symm.trans hread'
      cases hload.symm.trans hload'
      cases hcompile.symm.trans hcompile'
      exact hnames
  · obtain ⟨outcome, r', starts, hplain, -, -, hrefused, -⟩ :=
      command_starts_after_writing (hargs "broken.go" (by simp)) twoTexts
    cases hload : Program.load "broken.go" "package main\n\nfunc main() \x7b\n" with
    | error e =>
      obtain ⟨hexit, rfl, -⟩ := hrefused (.notLoaded rfl hload)
      exact ⟨outcome, hplain, hexit⟩
    | ok program =>
      have hnone := broken_not_loaded
      rw [hload] at hnone
      cases hnone

end ServiceSplit
