import ServiceSplit.Proofs.Compilation.Agreement
import ServiceSplit.Proofs.Compilation.Evaluation
import ServiceSplit.Proofs.Editor.Unchanged
import ServiceSplit.Proofs.Parser.Source
import ServiceSplit.Proofs.Tree.Nodes

/-!
# What a compilation leaves alone

A controller keeps every declaration of the program in which no launch is replaced, except for the
launched functions that nothing mentions. What it adds stands behind all of them.

A launch is replaced where a `go` statement has its span. That this is its own statement and no
other one rests on the parser: statements of a parsed file start at different places.

## Main definitions

* `Mentions`: a name stands in declarations.
* `Compilation.KeepsDecls`: the controller has the declarations of the program, and others behind
  them.

## Main results

* `Program.compile_keepsDecls`: every compilation keeps the declarations.
-/

namespace ServiceSplit

variable {program : Program} {launches : Launches} {services : List Service}

/-! ### Declarations without launches -/

/-- A function body in which nothing is replaced stays as it is. -/
theorem inFunction_pure (sig : Signature) (body : Block) :
    inFunction sig (pure body) = pure body := by
  funext st
  rfl

theorem launchEditor_leaves_expr (x : Expr) : (launchEditor launches services).leaves.expr x :=
  ⟨fun _ => rfl, fun sig body _ _ => inFunction_pure sig body⟩

/-- Replacing launches does nothing at an event that is not one of them. -/
theorem launchEditor_leaves {e : Event}
    (h : ∀ call span, e = .enter (.go call span) → launches.at? span = none) :
    e.Has (launchEditor launches services).leaves := by
  cases e with
  | enter s =>
    cases s with
    | go call span =>
      dsimp only [Event.Has, Editor.leaves, launchEditor]
      rw [h call span rfl]
      rfl
    | _ => rfl
  | expr role e => exact launchEditor_leaves_expr e
  | openLit sig span => exact ⟨⟨[], .synthetic⟩, launchEditor_leaves_expr _⟩
  | _ => trivial

/-- None of the launches stands in the declaration. -/
def Decl.FreeOf (d : Decl) (launches : Launches) : Prop :=
  ∀ call span, .enter (.go call span) ∈ d.events {} → launches.at? span = none

/-- A declaration in which no launch stands stays as it is. -/
theorem launchEditor_decl {d : Decl} (h : d.FreeOf launches) :
    (launchEditor launches services).decl d = pure d := by
  have hleaves : d.Every (launchEditor launches services).leaves := by
    intro e he
    refine launchEditor_leaves fun call span heq => ?_
    subst heq
    exact h call span he
  rw [Decl.every_iff] at hleaves
  cases d with
  | gen g =>
    rw [Editor.decl, Editor.genDecl_eq_pure (fun _ _ _ => launchEditor_leaves_expr _) hleaves,
      pure_bind]
  | func f =>
    cases hbody : f.body with
    | none => simp only [Editor.decl, hbody]
    | some body =>
      have hblock : (launchEditor launches services).block body = pure body :=
        Editor.block_eq_pure (fun _ _ _ => launchEditor_leaves_expr _) (hleaves.2.2.2 body hbody)
      simp only [Editor.decl, hbody, hblock, inFunction_pure, pure_bind]
      rw [← hbody]

/-- Each result of a sequence of actions is that of one of them. -/
theorem forall₂_of_mapM_run_eq_ok {σ ε α β : Type} {f : α → StateT σ (Except ε) β} {xs : List α}
    {ys : List β} {st st' : σ} (h : (xs.mapM f).run st = .ok (ys, st')) :
    List.Forall₂ (fun x y => ∃ st st', (f x).run st = .ok (y, st')) xs ys := by
  induction xs generalizing ys st with
  | nil =>
    cases h
    exact .nil
  | cons x xs ih =>
    rw [List.mapM_cons] at h
    obtain ⟨⟨y, st₁⟩, hy, h⟩ := exists_of_bind_eq_ok h
    obtain ⟨⟨ys', st₂⟩, hys, h⟩ := exists_of_bind_eq_ok h
    cases h
    exact .cons ⟨st, st₁, hy⟩ (ih hys)

/-! ### Where launches are found -/

/-- The launches found up to the end of a declaration, `found` being those in front of it. -/
def Decl.search (program : Program) (found : Launches) : Decl → Launches
  | .func f => Launches.Search.body program found f
  | .gen _ => found

namespace Program

/-- The launches found in the first `n` declarations. -/
def launchesUpTo (program : Program) (n : Nat) : Launches :=
  (program.file.decls.take n).foldl (Decl.search program) {}

/-- The launches that are found, and replaced, in declaration number `i`. -/
def launchesIn (program : Program) (i : Nat) : List Launch :=
  (program.launchesUpTo (i + 1)).sites.drop (program.launchesUpTo i).sites.length

theorem launchesUpTo_length :
    program.launchesUpTo program.file.decls.length = program.launches := by
  rw [launchesUpTo, List.take_length, launches, File.functions, List.foldl_filterMap]
  congr 1
  funext found d
  cases d <;> rfl

/-- A declaration adds the launches that are found in it. -/
theorem exists_launchesIn (program : Program) (i : Nat) :
    (program.launchesUpTo (i + 1)).sites = (program.launchesUpTo i).sites ++ program.launchesIn i ∧
      ∀ l ∈ program.launchesIn i, ∃ f, program.file.decls[i]? = some (.func f) ∧
        l.FoundIn program f.bodyEvents := by
  obtain ⟨new, hnew, hin⟩ : ∃ new,
      (program.launchesUpTo (i + 1)).sites = (program.launchesUpTo i).sites ++ new ∧
      ∀ l ∈ new, ∃ f, program.file.decls[i]? = some (.func f) ∧
        l.FoundIn program f.bodyEvents := by
    simp only [launchesUpTo, List.take_add_one, List.foldl_append]
    cases hd : program.file.decls[i]? with
    | none => exact ⟨[], by simp, List.forall_mem_nil _⟩
    | some d =>
      cases d with
      | gen g => exact ⟨[], by simp [Decl.search], List.forall_mem_nil _⟩
      | func f =>
        obtain ⟨new, hnew, hin⟩ := Launches.Search.exists_body_sites program
          ((program.file.decls.take i).foldl (Decl.search program) {}) f
        exact ⟨new, hnew, fun l hl => ⟨f, rfl, hin l hl⟩⟩
  have hlaunches : program.launchesIn i = new := by
    rw [launchesIn, hnew, List.drop_left]
  rw [hlaunches]
  exact ⟨hnew, hin⟩

theorem mem_launchesUpTo_iff {n : Nat} {l : Launch} :
    l ∈ (program.launchesUpTo n).sites ↔ ∃ i < n, l ∈ program.launchesIn i := by
  induction n with
  | zero => simp [launchesUpTo]
  | succ n ih =>
    rw [(program.exists_launchesIn n).1, List.mem_append, ih]
    constructor
    · rintro (⟨i, hi, hl⟩ | hl)
      · exact ⟨i, by omega, hl⟩
      · exact ⟨n, by omega, hl⟩
    · rintro ⟨i, hi, hl⟩
      by_cases hin : i = n
      · exact .inr (hin ▸ hl)
      · exact .inl ⟨i, by omega, hl⟩

theorem mem_sites_iff {l : Launch} : l ∈ program.launches.sites ↔
    ∃ i < program.file.decls.length, l ∈ program.launchesIn i := by
  rw [← launchesUpTo_length, mem_launchesUpTo_iff]

end Program

theorem mem_keyStarts_of_go {es : List Event} (call : Expr) {span : Span}
    (h : .enter (.go call span) ∈ es) : span.start ∈ keyStarts es :=
  List.mem_filterMap.mpr ⟨_, h, rfl⟩

/-- A launch starts at a `go` statement of the declaration in which it is found. -/
theorem Launch.FoundIn.mem_keys {l : Launch} {f : FuncDecl}
    (h : l.FoundIn program f.bodyEvents) : l.span.start ∈ keys (Decl.func f) := by
  obtain ⟨-, call, hmem, -⟩ := h
  exact mem_keyStarts_of_go call
    (((Decl.func f).thins_events Launches.traversal).sublist.subset (List.mem_append_right _ hmem))

/-- Where the parts of a list increase, a value is in one part only. -/
theorem eq_of_mem_flatMap_of_pairwise {α : Type} {xs : List α} {f : α → List Nat}
    (h : (xs.flatMap f).Pairwise (· < ·)) {i j : Nat} {x y : α} (hx : xs[i]? = some x)
    (hy : xs[j]? = some y) {a : Nat} (hax : a ∈ f x) (hay : a ∈ f y) : i = j := by
  obtain ⟨hi, rfl⟩ := List.getElem?_eq_some_iff.mp hx
  obtain ⟨hj, rfl⟩ := List.getElem?_eq_some_iff.mp hy
  have hparts := List.pairwise_iff_getElem.mp (List.pairwise_flatMap.mp h).2
  by_contra hne
  rcases Nat.lt_or_gt_of_ne hne with hlt | hlt
  · exact Nat.lt_irrefl a (hparts i j hi hj hlt a hax a hay)
  · exact Nat.lt_irrefl a (hparts j i hj hi hlt a hay a hax)

/-- The launches of a program whose `go` statements start at different places stand in the
declarations in which they are found. -/
theorem Program.decl_freeOf (hkeys : (keys program.file.decls).Pairwise (· < ·))
    {i : Nat} {d : Decl} (hd : program.file.decls[i]? = some d) (hi : program.launchesIn i = []) :
    d.FreeOf program.launches := by
  intro call span hmem
  cases hat : program.launches.at? span with
  | none => rfl
  | some l =>
    exfalso
    have hspan : l.span = span := by simpa using List.find?_some hat
    obtain ⟨j, -, hj⟩ := Program.mem_sites_iff.mp (List.mem_of_find?_eq_some hat)
    obtain ⟨f, hf, hfound⟩ := (program.exists_launchesIn j).2 l hj
    have hij : i = j :=
      eq_of_mem_flatMap_of_pairwise hkeys hd hf (hspan ▸ mem_keyStarts_of_go call hmem)
        hfound.mem_keys
    rw [← hij, hi] at hj
    cases hj

/-! ### The declarations of a controller -/

/-- The node is an expression that consists of the name. -/
def SyntaxNode.IsName (name : String) : SyntaxNode → Prop
  | part (.expr _ (.ident id)) => id.name = name
  | _ => False

/-- The name stands as an expression somewhere in the declarations, at any depth. -/
def Mentions (decls : List Decl) (name : String) : Prop :=
  ∃ d ∈ decls, ∃ n, d.Contains n ∧ n.IsName name

private theorem Event.identName?_eq_some {e : Event} {name : String} :
    e.identName? = some name ↔ ∃ n, e.node? = some n ∧ n.IsName name := by
  constructor
  · intro h
    unfold Event.identName? at h
    split at h
    · exact ⟨_, rfl, Option.some.inj h⟩
    · cases h
  · rintro ⟨n, hn, h⟩
    unfold SyntaxNode.IsName at h
    split at h
    · cases e <;> cases hn
      exact congrArg some h
    · cases h

theorem mem_identNames {decls : List Decl} {name : String} :
    name ∈ (decls.flatMap (Decl.events {})).filterMap Event.identName? ↔ Mentions decls name :=
  Decl.mem_filterMap_events fun _ => Event.identName?_eq_some

instance (decls : List Decl) (name : String) : Decidable (Mentions decls name) :=
  decidable_of_iff _ mem_identNames

/-- Whether a declaration is a launched function that no expression in `edited` mentions. -/
def Program.drops (program : Program) (edited : List Decl) : Decl → Bool
  | .func f =>
    !f.isMethod && program.launches.callees.contains f.name.name &&
      !decide (Mentions edited f.name.name)
  | .gen _ => false

/-- The declarations of the controller are those of the program, with `edited` in place of them,
without what is dropped, and `added` behind them. -/
structure Compilation.KeepsDecls (program : Program) (c : Compilation) (edited added : List Decl) :
    Prop where
  /-- Launches are replaced in the declarations one by one. -/
  edits : ∃ progress, program.editedDecls program.launches c.services = .ok (edited, progress)
  length : edited.length = program.file.decls.length
  /-- A declaration without a launch stays as it is. -/
  unchanged : ∀ (i : Nat) d, program.file.decls[i]? = some d → program.launchesIn i = [] →
    edited[i]? = some d
  /-- Only the body of a function changes. -/
  bodies : ∀ (i : Nat) f, program.file.decls[i]? = some (.func f) →
    ∃ body, edited[i]? = some (.func { f with body })
  decls : c.controller.file.decls = edited.filter (!program.drops edited ·) ++ added

/-- A program that is loaded has the file of its text and the functions of the file. -/
theorem Program.load_eq_ok {path source : String} (h : Program.load path source = .ok program) :
    parseFile source = .ok program.file ∧ program.functions = (Function.collect
      (program.file.functions.filter FuncDecl.isLaunchable) []).1.mergeSort fun f g =>
      f.name ≤ g.name := by
  unfold Program.load at h
  split at h
  · cases h
  · rename_i hfile
    split at h
    · cases h
    · split at h
      · rename_i hcollect
        cases h
        exact ⟨hfile, by rw [hcollect]⟩
      · cases h

theorem Program.parseFile_of_load {path source : String}
    (h : Program.load path source = .ok program) : parseFile source = .ok program.file :=
  (load_eq_ok h).1

theorem Program.load_gos {path source : String} (h : Program.load path source = .ok program) :
    (keys program.file.decls).Pairwise (· < ·) :=
  keys_of_parseFile (parseFile_of_load h)

variable {config : Config} {c : Compilation}

theorem Program.keptFile_decls (h : program.compile config = .ok c) (edited : List Decl) :
    (program.keptFile c.services edited).decls = edited.filter (!program.drops edited ·) := by
  rw [Program.keptFile, Program.compile_services_name h]
  refine List.filter_congr fun d _ => ?_
  cases d with
  | func f =>
    have hmentions : (((edited.flatMap (Decl.events {})).filterMap Event.identName?).contains
        f.name.name) = decide (Mentions edited f.name.name) := by
      rw [List.contains_eq_mem]
      exact decide_eq_decide.mpr mem_identNames
    simp only [File.events, hmentions, Program.drops, Bool.not_and, Bool.not_not]
  | gen g => rfl

/-- A declaration becomes one of the same kind, with another body at most. -/
theorem exists_of_decl_run {f : FuncDecl} {d : Decl} {st st' : Progress}
    (h : ((launchEditor launches services).decl (.func f)).run st = .ok (d, st')) :
    ∃ body, d = .func { f with body } := by
  rw [Editor.decl] at h
  split at h
  · cases h
    exact ⟨f.body, rfl⟩
  · obtain ⟨⟨body, st₁⟩, -, h⟩ := exists_of_bind_eq_ok h
    cases h
    exact ⟨some body, rfl⟩

theorem Program.exists_keepsDecls
    (hkeys : (keys program.file.decls).Pairwise (· < ·))
    (h : program.compile config = .ok c) :
    ∃ edited added, c.KeepsDecls program edited added ∧
      Route.addedDecls c.controller.routes = .ok added := by
  obtain ⟨-, -, hcontroller⟩ := Program.exists_of_compile_eq_ok h
  obtain ⟨edited, progress, added, hedited, -, hadded, hdecls, -⟩ :=
    Program.exists_of_controller_eq_ok hcontroller
  have hall := forall₂_of_mapM_run_eq_ok hedited
  -- What each declaration becomes is found by its number.
  have hget : ∀ (i : Nat) d, program.file.decls[i]? = some d → ∃ d' st st', edited[i]? = some d' ∧
      ((launchEditor program.launches c.services).decl d).run st = .ok (d', st') := by
    intro i d hd
    obtain ⟨hi, rfl⟩ := List.getElem?_eq_some_iff.mp hd
    have hi' : i < edited.length := hall.length_eq ▸ hi
    obtain ⟨st, st', hrun⟩ := hall.get hi hi'
    exact ⟨edited[i], st, st', List.getElem?_eq_getElem hi', hrun⟩
  refine ⟨edited, added, ⟨⟨progress, hedited⟩, hall.length_eq.symm, ?_, ?_, ?_⟩, hadded⟩
  · intro i d hd hi
    obtain ⟨d', st, st', hd', hrun⟩ := hget i d hd
    rw [launchEditor_decl (Program.decl_freeOf hkeys hd hi)] at hrun
    cases hrun
    exact hd'
  · intro i f hf
    obtain ⟨d', st, st', hd', hrun⟩ := hget i (.func f) hf
    obtain ⟨body, rfl⟩ := exists_of_decl_run hrun
    exact ⟨body, hd'⟩
  · rw [hdecls, Program.keptFile_decls h]

/-- A program without launches keeps its declarations. -/
theorem Compilation.KeepsDecls.eq_of_no_sites {edited added : List Decl}
    (h : c.KeepsDecls program edited added) (hsites : program.launches.sites = []) :
    c.controller.file.decls = program.file.decls ++ added := by
  have hin : ∀ i < program.file.decls.length, program.launchesIn i = [] := by
    intro i hi
    refine List.eq_nil_iff_forall_not_mem.mpr fun l hl => ?_
    have hmem : l ∈ program.launches.sites := Program.mem_sites_iff.mpr ⟨i, hi, hl⟩
    rw [hsites] at hmem
    cases hmem
  have hedited : edited = program.file.decls := by
    refine List.ext_getElem? fun i => ?_
    cases hd : program.file.decls[i]? with
    | none =>
      rw [List.getElem?_eq_none_iff] at hd ⊢
      exact h.length ▸ hd
    | some d =>
      obtain ⟨hi, -⟩ := List.getElem?_eq_some_iff.mp hd
      exact h.unchanged i d hd (hin i hi)
  have hdrops : ∀ d, program.drops edited d = false := by
    intro d
    cases d with
    | func f => simp [Program.drops, Launches.callees, hsites]
    | gen g => rfl
  rw [h.decls, hedited, List.filter_eq_self.mpr]
  simp [hedited ▸ hdrops]

/-- The declarations of a program in which no launch is found stay as they are, in the controller,
and in their order, except for launched functions that nothing mentions; what is added stands behind
them. A program without launches is its own controller. -/
theorem Program.compile_keepsDecls {path source : String}
    (hload : Program.load path source = .ok program) (h : program.compile config = .ok c) :
    (∃ edited added, c.KeepsDecls program edited added) ∧
      (program.launches.sites = [] → c.controller.file.decls = program.file.decls ∧
        c.controller.routes = [] ∧ c.services = []) := by
  obtain ⟨edited, added, hkeeps, hadded⟩ := Program.exists_keepsDecls (Program.load_gos hload) h
  refine ⟨⟨edited, added, hkeeps⟩, fun hsites => ?_⟩
  have hservices : c.services = [] := by
    have hnames := Program.compile_services_name h
    simpa [Launches.callees, hsites] using hnames
  have hroutes : c.controller.routes = [] := by
    have hslots := Program.compile_routes h
    simpa [Launches.slots, hsites] using hslots
  rw [hroutes] at hadded
  cases hadded
  exact ⟨by rw [hkeeps.eq_of_no_sites hsites, List.append_nil], hroutes, hservices⟩

/-- A program with a variable, a function and a function that launches it. -/
def oneLaunch : String :=
  "package main

var n = 1

func f(out chan int) \x7b
\tout <- 1
\x7d

func start() int \x7b
\tch := make(chan int)
\tgo f(ch)
\treturn <-ch
\x7d
"

/-- The program launches `f` only. -/
def oneLaunchText : LaunchingText "f" ["n", "start"]
    (fun program _ => program.launches.callees == ["f"]) where
  text := oneLaunch
  reads := by
    rw [oneLaunch]
    simp only [String.reduceToList]
    decide +kernel

theorem oneLaunch_keepsDecls : ∃ program c, Program.load "main.go" oneLaunch = .ok program ∧
    program.compile {} = .ok c ∧ (∃ edited added, c.KeepsDecls program edited added) ∧
      (program.launches.sites = [] → c.controller.file.decls = program.file.decls ∧
        c.controller.routes = [] ∧ c.services = []) := by
  obtain ⟨program, c, -, hload, hc, -⟩ :=
    Program.exists_load_compile plainNameF "main.go" oneLaunchText
  exact ⟨program, c, hload, hc, Program.compile_keepsDecls hload hc⟩

end ServiceSplit
