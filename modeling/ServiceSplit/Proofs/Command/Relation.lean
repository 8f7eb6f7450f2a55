import ServiceSplit.Command.Run

/-!
# Runs on related hosts

A run uses its host only through the operations of the host. So whatever relation holds between the
operations of two hosts, and is kept when computations follow each other, holds between the runs on
them. This file says so for each part of a run.
-/

namespace ServiceSplit

/-- A relation between computations that sequences keep. -/
structure Link (m n : Type → Type) [Monad m] [Monad n] where
  /-- The relation. -/
  Rel : {α : Type} → m α → n α → Prop
  rel_pure : ∀ {α : Type} (a : α), Rel (pure a) (pure a)
  rel_bind : ∀ {α β : Type} {x : m α} {y : n α} {f : α → m β} {g : α → n β},
    Rel x y → (∀ a, Rel (f a) (g a)) → Rel (x >>= f) (y >>= g)

section

variable {m n : Type → Type} [Monad m] [Monad n]

/-- The relation holds between the operations that read files. -/
structure Host.LinksReads (L : Link m n) (h : Host m) (k : Host n) : Prop where
  readFile : ∀ path, L.Rel (h.readFile path) (k.readFile path)
  isFile : ∀ path, L.Rel (h.isFile path) (k.isFile path)

/-- The relation holds between the operations that write files. -/
structure Host.LinksWrites (L : Link m n) (h : Host m) (k : Host n) : Prop where
  pathExists : ∀ path, L.Rel (h.pathExists path) (k.pathExists path)
  removeTree : ∀ path, L.Rel (h.removeTree path) (k.removeTree path)
  createDirs : ∀ path, L.Rel (h.createDirs path) (k.createDirs path)
  writeFile : ∀ path text, L.Rel (h.writeFile path text) (k.writeFile path text)

/-- The relation holds between the operations that start programs and wait. -/
structure Host.LinksPrograms (L : Link m n) (h : Host m) (k : Host n) : Prop where
  run : ∀ i, L.Rel (h.run i) (k.run i)
  pause : ∀ ms, L.Rel (h.pause ms) (k.pause ms)

/-- The relation between computations that can fail. -/
def Link.Tries {ε α : Type} (L : Link m n) (x : ExceptT ε m α) (y : ExceptT ε n α) : Prop :=
  L.Rel x.run y.run

end

namespace Link

variable {m n : Type → Type} [Monad m] [Monad n] {L : Link m n} {h : Host m}
  {k : Host n} {ε α β : Type} {x : ExceptT ε m α} {y : ExceptT ε n α} {f : α → ExceptT ε m β}
    {g : α → ExceptT ε n β}

/-! ### Computations that can fail -/

theorem tries_pure (a : α) : L.Tries (pure a : ExceptT ε m α) (pure a) :=
  L.rel_pure (Except.ok a : Except ε α)

theorem tries_throw (e : ε) : L.Tries (throw e : ExceptT ε m α) (throw e) :=
  L.rel_pure (Except.error e : Except ε α)

theorem Tries.bind (hx : L.Tries x y) (hf : ∀ a, L.Tries (f a) (g a)) :
    L.Tries (x >>= f) (y >>= g) := by
  refine L.rel_bind hx fun result => ?_
  cases result with
  | ok a => exact hf a
  | error e => exact L.rel_pure _

theorem tries_forM {items : List α} {f : α → ExceptT ε m PUnit} {g : α → ExceptT ε n PUnit}
    (hf : ∀ a, L.Tries (f a) (g a)) : L.Tries (items.forM f) (items.forM g) := by
  induction items with
  | nil => exact tries_pure _
  | cons a items ih => exact (hf a).bind fun _ => ih

theorem tries_settled (result : Except Failure α) :
    L.Tries (Host.settled result : ExceptT Failure m α) (Host.settled result) :=
  L.rel_pure result

theorem tries_accessing {x : m (Except OsError α)} {y : n (Except OsError α)} (path : String)
    (hx : L.Rel x y) : L.Tries (Host.accessing path x) (Host.accessing path y) :=
  L.rel_bind hx fun _ => L.rel_pure _

variable [LawfulMonad m] [LawfulMonad n]

theorem tries_lift {x : m α} {y : n α} (hx : L.Rel x y) :
    L.Tries (ExceptT.lift x : ExceptT ε m α) (ExceptT.lift y) := by
  unfold Tries ExceptT.lift
  change L.Rel (Except.ok <$> x) (Except.ok <$> y)
  rw [map_eq_pure_bind, map_eq_pure_bind]
  exact L.rel_bind hx fun a => L.rel_pure _

theorem tries_mapM {items : List α} (hf : ∀ a, L.Tries (f a) (g a)) :
    L.Tries (items.mapM f) (items.mapM g) := by
  induction items with
  | nil => exact tries_pure _
  | cons a items ih =>
    rw [List.mapM_cons, List.mapM_cons]
    exact (hf a).bind fun b => ih.bind fun bs => tries_pure _

/-! ### Reading the settings and the program -/

omit [LawfulMonad m] [LawfulMonad n] in
theorem readConfig (hreads : h.LinksReads L k) (path : String) :
    L.Tries (h.readConfig path) (k.readConfig path) :=
  (tries_accessing path (hreads.readFile path)).bind fun _ => tries_settled _

theorem findConfig (hreads : h.LinksReads L k) (path? : Option String) :
    L.Tries (h.findConfig path?) (k.findConfig path?) := by
  cases path? with
  | some path => exact readConfig hreads path
  | none =>
    refine (tries_lift (hreads.isFile _)).bind fun found => ?_
    cases found
    · exact tries_pure _
    · exact readConfig hreads _

theorem prepare (hreads : h.LinksReads L k) (o : Options) :
    L.Tries (h.prepare o) (k.prepare o) :=
  (findConfig hreads o.config).bind fun _ =>
    (tries_accessing _ (hreads.readFile _)).bind fun _ =>
      (tries_settled _).bind fun _ => tries_pure _

/-! ### Writing artifacts -/

theorem freshDir (hwrites : h.LinksWrites L k) (dir : String) :
    L.Tries (h.freshDir dir) (k.freshDir dir) := by
  refine (tries_lift (hwrites.pathExists dir)).bind fun found => ?_
  have hcreate := tries_accessing dir (hwrites.createDirs dir)
  cases found
  · exact hcreate
  · exact (tries_accessing dir (hwrites.removeTree dir)).bind fun _ => hcreate

theorem writeArtifact (hwrites : h.LinksWrites L k) (out : String) (a : Artifact) :
    L.Tries (h.writeArtifact out a) (k.writeArtifact out a) :=
  (freshDir hwrites _).bind fun _ =>
    (tries_forM fun _ => tries_accessing _ (hwrites.writeFile _ _)).bind fun _ => tries_pure _

theorem writeArtifacts (hwrites : h.LinksWrites L k) (out : String) (artifacts : List Artifact) :
    L.Tries (h.writeArtifacts out artifacts) (k.writeArtifacts out artifacts) :=
  tries_mapM (writeArtifact hwrites out)

/-! ### Bringing up artifacts -/

theorem runTool (hprograms : h.LinksPrograms L k) (c : Call) (i : Invocation) :
    L.Tries (h.runTool c i) (k.runTool c i) := by
  refine (tries_lift (hprograms.run i)).bind fun result => ?_
  cases result with
  | error e => exact tries_throw _
  | ok out =>
    dsimp only
    split
    · exact tries_pure _
    · exact tries_throw _

theorem compileTool (hprograms : h.LinksPrograms L k) (artifact dir : String) :
    L.Tries (h.compileTool artifact dir) (k.compileTool artifact dir) :=
  (runTool hprograms _ _).bind fun _ => (runTool hprograms _ _).bind fun _ => tries_pure _

theorem createTool (hprograms : h.LinksPrograms L k) (namespace_ : Option String)
    (spec : WorkloadSpec) : L.Tries (h.createTool namespace_ spec)
    (k.createTool namespace_ spec) := by
  refine (runTool hprograms _ _).bind fun out => ?_
  split
  · exact tries_throw _
  · exact tries_pure _

theorem statusTool (hprograms : h.LinksPrograms L k) (namespace_ : Option String)
    (artifact workload : String) :
    L.Tries (h.statusTool namespace_ artifact workload)
      (k.statusTool namespace_ artifact workload) := by
  refine (runTool hprograms _ _).bind fun out => ?_
  split
  · exact tries_pure _
  · exact tries_throw _

theorem call (hprograms : h.LinksPrograms L k) (namespace_ : Option String) (c : Call) :
    L.Tries ((h.platform namespace_).call c) ((k.platform namespace_).call c) := by
  cases c with
  | compile artifact dir => exact compileTool hprograms artifact dir
  | containerize artifact executable image =>
    exact (runTool hprograms _ _).bind fun _ => tries_pure _
  | push artifact image => exact (runTool hprograms _ _).bind fun _ => tries_pure _
  | create spec => exact createTool hprograms namespace_ spec
  | status artifact workload => exact statusTool hprograms namespace_ artifact workload
  | expose artifact workload host portNumber =>
    exact (runTool hprograms _ _).bind fun _ => tries_pure _

/-- The relation holds between the calls of two platforms, and between their pauses. -/
structure LinksPlatform (L : Link m n) (d : Deployment m) (e : Deployment n) : Prop where
  call : ∀ c, L.Tries (d.platform.call c) (e.platform.call c)
  pause : ∀ ms, L.Rel (d.platform.pause ms) (e.platform.pause ms)
  config : d.config = e.config
  policy : d.policy = e.policy

variable {d : Deployment m} {e : Deployment n}

omit [LawfulMonad m] [LawfulMonad n] in
theorem look (hd : LinksPlatform L d e) (artifact workload : String) :
    L.Tries (d.look artifact workload) (e.look artifact workload) := by
  refine (hd.call _).bind fun status => ?_
  split
  · exact tries_pure _
  · exact tries_throw _
  · exact tries_throw _
  · exact tries_pure _

theorem pollFrom {pause : m Unit} {pause' : n Unit} {f : Nat → ExceptT ε m (Option α)}
    {g : Nat → ExceptT ε n (Option α)} (hpause : L.Rel pause pause') (hf : ∀ i, L.Tries (f i) (g i))
    (left i : Nat) :
    L.Tries (RetryPolicy.pollFrom pause f left i) (RetryPolicy.pollFrom pause' g left i) := by
  induction left generalizing i with
  | zero => exact tries_pure _
  | succ left ih =>
    refine (hf i).bind fun result => ?_
    cases result with
    | some a => exact tries_pure _
    | none =>
      dsimp only
      split
      · exact (tries_lift hpause).bind fun _ => ih _
      · exact ih _

theorem awaitRunning (hd : LinksPlatform L d e) (artifact workload : String) :
    L.Tries (d.awaitRunning artifact workload) (e.awaitRunning artifact workload) := by
  unfold Deployment.awaitRunning RetryPolicy.poll
  rw [hd.policy]
  refine Tries.bind (pollFrom ?_ (fun _ => look hd artifact workload) _ _) fun result => ?_
  · split
    · exact L.rel_pure _
    · exact hd.pause _
  · cases result with
    | some address => exact tries_pure _
    | none => exact tries_throw _

theorem deploy (hd : LinksPlatform L d e) (a : ArtifactDir) (portNumber : Nat) (env : Variables) :
    L.Tries (d.deploy a portNumber env) (e.deploy a portNumber env) := by
  unfold Deployment.deploy
  rw [hd.config]
  exact (hd.call _).bind fun _ => (hd.call _).bind fun _ => (hd.call _).bind fun _ =>
    (hd.call _).bind fun _ => (awaitRunning hd _ _).bind fun _ => tries_pure _

theorem services (hd : LinksPlatform L d e) (dirs : List ArtifactDir) (known : Addresses) :
    L.Tries (d.services dirs known) (e.services dirs known) := by
  induction dirs generalizing known with
  | nil => exact tries_pure _
  | cons a dirs ih => exact (deploy hd a _ _).bind fun _ => ih _

theorem controller (hd : LinksPlatform L d e) (a : ArtifactDir) (dispatched : List String)
    (known : Addresses) :
    L.Tries (d.controller a dispatched known) (e.controller a dispatched known) := by
  unfold Deployment.controller
  rw [hd.config]
  split
  · exact tries_throw _
  · exact (deploy hd a _ _).bind fun _ => (hd.call _).bind fun _ => tries_pure _

theorem deployment (hd : LinksPlatform L d e) (artifacts : List ArtifactDir)
    (dispatched : List String) :
    L.Tries (d.run artifacts dispatched) (e.run artifacts dispatched) := by
  refine (services hd _ _).bind fun known => ?_
  split
  · exact tries_pure _
  · exact controller hd _ _ _

/-! ### Whole runs -/

theorem linksPlatform (hprograms : h.LinksPrograms L k) (config : Config) : LinksPlatform L
    ⟨h.platform config.scheduler.workloadNamespace, config, config.retryPolicy⟩
    ⟨k.platform config.scheduler.workloadNamespace, config, config.retryPolicy⟩ where
  call := call hprograms _
  pause := hprograms.pause
  config := rfl
  policy := rfl

theorem produce (hwrites : h.LinksWrites L k) (hprograms : h.LinksPrograms L k) (o : Options)
    (config : Config) (program : Program) :
    L.Tries (h.produce o config program) (k.produce o config program) := by
  refine (tries_settled _).bind fun c => (writeArtifacts hwrites _ _).bind fun dirs => ?_
  split
  · exact tries_pure _
  · exact deployment (linksPlatform hprograms config) _ _

theorem command (hreads : h.LinksReads L k) (hwrites : h.LinksWrites L k)
    (hprograms : h.LinksPrograms L k) (args : List String) :
    L.Rel (h.command args) (k.command args) := by
  unfold Host.command
  split
  · refine L.rel_bind (prepare hreads _) fun prepared => ?_
    cases prepared with
    | error failure => exact L.rel_pure _
    | ok pair =>
      refine L.rel_bind (produce hwrites hprograms _ _ _) fun produced => ?_
      cases produced <;> exact L.rel_pure _
  · exact L.rel_pure _
  · exact L.rel_pure _
  · exact L.rel_pure _

end Link

end ServiceSplit
