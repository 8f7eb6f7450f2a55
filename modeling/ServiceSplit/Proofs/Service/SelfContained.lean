import ServiceSplit.Proofs.Dependency
import ServiceSplit.Proofs.Scope.References
import ServiceSplit.Proofs.Service.Synthesis

/-!
# Services are self-contained

The program of a service takes over the declarations that the launched function needs. Whether it
takes over all of them depends on the names that are declared in one branch, clause or head of a
statement and used in another: the search for references takes these as local. What such names and
the keys of literals refer to decides.
-/

namespace ServiceSplit

/-- A use that refers to the package or is predeclared: no local declaration of its name is visible,
and it is not the name of a field. Which keys are names of fields is told by `isField`; a key of a
literal whose type is written as a map, slice or array never is. -/
def NameUse.ReachesPackage (isField : Ident → Bool) (u : NameUse) : Prop :=
  u.isLocal = false ∧ ¬(u.isKey = true ∧ isField u.id = true)

/-- Whatever the names of a declaration refer to in the package is among the declarations `copied`,
or the function `root` itself, and not a variable. -/
def Decl.SelfContained (file : File) (root : String) (copied : List Decl) (isField : Ident → Bool)
    (d : Decl) : Prop :=
  ∀ u ∈ d.uses, u.ReachesPackage isField → Supplied file root copied u.id.name

/-- Names that are not tracked and are no keys are always supplied, and keys that are not tracked
are supplied unless they name a variable. -/
private theorem supplied_of_dependencies {file : File} {root : FuncDecl} {copied : List Decl}
    (h : file.dependencies root = .ok copied) {d : Decl} (hd : d ∈ .func root :: copied)
    {u : NameUse} (hu : u ∈ d.uses) (hfree : u.isTracked = false)
    (hkey : u.isKey = true → ¬NamesVariable file u.id.name) :
    Supplied file root.name.name copied u.id.name := by
  refine File.dependencies_supplied h hd (Decl.mem_references hu hfree) fun hhard => ?_
  exact hkey (by simpa only [NameUse.reference, Bool.not_eq_false'] using hhard)

/-- A service is self-contained if and only if this holds of the names that are local only if each
statement is one scope, and no key of a literal is a variable of the package. -/
theorem Program.service_selfContained_iff {program : Program} {config : Config} {f : Function}
    {service : Service} (isField : Ident → Bool) (h : program.service config f = .ok service) :
    ∃ body entry copied rest, f.decl.body = some body ∧
      f.serviceBody config body = .ok entry ∧
      program.file.dependencies (f.serviceDecl entry) = .ok copied ∧
      service.file.decls = copied ++ [.func (f.serviceDecl entry)] ++ rest ∧
      ((∀ d ∈ .func (f.serviceDecl entry) :: copied,
          d.SelfContained program.file f.decl.name.name copied isField) ↔
        ∀ d ∈ .func (f.serviceDecl entry) :: copied, ∀ u ∈ d.uses, u.ReachesPackage isField →
          (u.isTracked = true → Supplied program.file f.decl.name.name copied u.id.name) ∧
          (u.isKey = true → ¬NamesVariable program.file u.id.name)) := by
  obtain ⟨body, entry, copied, text, rest, hbody, hentry, hcopied, -, -, hdecls⟩ :=
    Program.exists_of_service_eq_ok h
  refine ⟨body, entry, copied, rest, hbody, hentry, hcopied, hdecls, ?_, ?_⟩
  · intro hall d hd u hu hreach
    have hsupplied := hall d hd u hu hreach
    exact ⟨fun _ => hsupplied, fun _ => hsupplied.not_namesVariable⟩
  · intro hall d hd u hu hreach
    obtain ⟨htracked, hkey⟩ := hall d hd u hu hreach
    cases hu' : u.isTracked with
    | true => exact htracked hu'
    | false => exact supplied_of_dependencies hcopied hd hu hu' hkey

/-! ### A name of the other branch -/

/-- A function with a local variable `total` in one branch, which sends `other` in the other one:
`func f(out chan int) { if true { total := 1; out <- total } else { out <- other } }`. -/
def branching (other : Expr) : FuncDecl :=
  let name (n : String) := Expr.ident (.made n)
  let send (value : Expr) (span : Span) := Stmt.send (name "out") value span
  { recv := none
    name := .made "f"
    typeParams := []
    sig := ⟨[⟨[.made "out"], .chan .both (.named "int"), none, .synthetic⟩], []⟩
    body := some ⟨[
      .ifElse none (name "true")
        ⟨[.assign [name "total"] .define [.lit .int "1" .synthetic] .synthetic,
          send (name "total") (.range 0 1)], .synthetic⟩
        (some (.block ⟨[send other (.range 2 3)], .synthetic⟩)) .synthetic], .synthetic⟩
    directives := []
    span := .synthetic }

/-- The declaration of the variable or constant `name` of a package. -/
def packageValue (kind : GenKind) (name : String) : Decl :=
  .gen ⟨kind, [.value [.made name] none [.lit .int "3" .synthetic] .synthetic], false, [],
    .synthetic⟩

/-- A program in which `total` is a variable and `limit` a constant. -/
def branchingProgram (other : Expr) : Program :=
  ⟨⟨[], .made "main", [],
    [packageValue .var "total", packageValue .const "limit", .func (branching other)]⟩,
    [.ofDecl (branching other)]⟩

private theorem harmless_of_all {file : File} {root : String} {copied ds : List Decl}
    {isField : Ident → Bool}
    (h : (ds.all fun d => d.uses.all fun u => u.isLocal || !u.isTracked && !u.isKey) = true) :
    ∀ d ∈ ds, ∀ u ∈ d.uses, u.ReachesPackage isField →
      (u.isTracked = true → Supplied file root copied u.id.name) ∧
      (u.isKey = true → ¬NamesVariable file u.id.name) := by
  intro d hd u hu hreach
  have hu := List.all_eq_true.mp (List.all_eq_true.mp h d hd) u hu
  simp only [hreach.1, Bool.false_or, Bool.and_eq_true, Bool.not_eq_true'] at hu
  simp only [hu.1, hu.2, Bool.false_eq_true, false_implies, and_self]

/-- A function that sends the constant in its other branch takes the constant with it. -/
theorem branching_limit_selfContained : ∃ service entry,
    (branchingProgram (.ident (.made "limit"))).service {}
        (.ofDecl (branching (.ident (.made "limit")))) = .ok service ∧
      packageValue .const "limit" ∈ service.file.decls ∧
      .func ((Function.ofDecl (branching (.ident (.made "limit")))).serviceDecl entry) ∈
        service.file.decls ∧
      ∀ d ∈ [.func ((Function.ofDecl (branching (.ident (.made "limit")))).serviceDecl entry),
          packageValue .const "limit"],
        d.SelfContained (branchingProgram (.ident (.made "limit"))).file "f"
          [packageValue .const "limit"] fun _ => false := by
  obtain ⟨service, hservice⟩ : ∃ service, (branchingProgram (.ident (.made "limit"))).service {}
      (.ofDecl (branching (.ident (.made "limit")))) = .ok service := by
    refine Program.exists_service_of_f [packageValue .const "limit"] rfl rfl rfl rfl rfl
      (List.forall_mem_nil _) ?_
    exact List.all_eq_true.mp rfl
  obtain ⟨body, entry, copied, rest, hbody, hentry, hcopied, hdecls, hiff⟩ :=
    Program.service_selfContained_iff (fun _ => false) hservice
  cases hbody
  obtain rfl := Except.ok.inj hentry
  obtain rfl : [packageValue .const "limit"] = copied := Except.ok.inj hcopied
  refine ⟨service, _, hservice, ?_, ?_, hiff.mpr (harmless_of_all rfl)⟩
  · rw [hdecls]
    simp
  · rw [hdecls]
    simp

/-- A function that uses the variable in its other branch becomes a service without it. -/
theorem branching_total_not_selfContained : ∃ service entry,
    (branchingProgram (.ident (.made "total"))).service {}
        (.ofDecl (branching (.ident (.made "total")))) = .ok service ∧
      .func ((Function.ofDecl (branching (.ident (.made "total")))).serviceDecl entry) ∈
        service.file.decls ∧
      ¬∃ copied isField,
        (Decl.func ((Function.ofDecl (branching (.ident (.made "total")))).serviceDecl
          entry)).SelfContained (branchingProgram (.ident (.made "total"))).file "f" copied
            isField := by
  obtain ⟨service, hservice⟩ : ∃ service, (branchingProgram (.ident (.made "total"))).service {}
      (.ofDecl (branching (.ident (.made "total")))) = .ok service := by
    refine Program.exists_service_of_f [] rfl rfl rfl rfl rfl (List.forall_mem_nil _) ?_
    exact List.all_eq_true.mp rfl
  obtain ⟨body, entry, copied, text, rest, hbody, hentry, -, -, -, hdecls⟩ :=
    Program.exists_of_service_eq_ok hservice
  refine ⟨service, entry, hservice, ?_, ?_⟩
  · rw [hdecls]
    simp
  · rintro ⟨copied, isField, hself⟩
    -- The use of `total` in the other branch, where no local declaration of it is visible.
    have huse : ⟨.made "total", false, false, true⟩ ∈
        (Decl.func ((Function.ofDecl (branching (.ident (.made "total")))).serviceDecl
          entry)).uses := by
      cases hbody
      obtain rfl := Except.ok.inj hentry
      exact List.contains_iff_mem.mp rfl
    exact (hself _ huse ⟨rfl, by simp⟩).not_namesVariable ⟨_, rfl, rfl⟩

end ServiceSplit
