import ServiceSplit.Proofs.Dependency.Order

/-!
# Dependencies are what a function reaches

A name brings in the declaration that it stands for, and with a type the methods declared on it. The
dependencies of a function that is no method are the declarations it reaches in this way, each of
them once and in source order, without the function itself. There are none exactly if the function
or something that it reaches surely refers to a variable. Neither depends on the order in which
references are followed.

The function itself need not be a declaration of the file: it may be one that was made from it, with
other parameters and another body. What the file declares under its name then stands for it.

A method is not left out of its own dependencies: it refers to the type of its receiver, and that
brings in its methods.

## Main definitions

* `File.Reaches`: the positions of the declarations that a function refers to, directly or through
  others.
* `File.Forbids`: a sure reference to a variable, in the function or in what it reaches.
* `File.Ends`: how following the references in some order ends.

## Main results

* `File.dependencies_reaches`: the dependencies are what the function reaches without itself.
-/

namespace ServiceSplit

/-! ### What a name brings in -/

/-- The name of the type on which a method is declared. -/
def Decl.methodBase : Decl → Option String
  | .func f => f.recv.bind (·.ty.receiverBase)
  | .gen _ => none

/-- The declaration is what `root` stands for: the function of its name, and the method of its name
if it is one. -/
def Decl.IsRoot (root : FuncDecl) : Decl → Prop
  | .func f => f.recv = root.recv ∧ f.name.name = root.name.name
  | .gen _ => False

namespace File

/-- A name brings in the declaration at a position: the one that it stands for, unless that declares
variables, and with a group the methods declared on the name. -/
def Brings (file : File) (name : String) (p : Nat) : Prop :=
  match file.declared? name with
  | none => False
  | some (.func _, q) => p = q
  | some (.gen g, q) => g.kind ≠ .var ∧
      (p = q ∨ ∃ d, file.decls[p]? = some d ∧ d.methodBase = some name)

/-- The positions of the declarations that a function refers to, directly or through others. The
references of the function are its own, whatever the file declares under its name. -/
inductive Reaches (file : File) (root : FuncDecl) : Nat → Prop
  | direct {r : Reference} {p : Nat} (hr : r ∈ root.references) (h : file.Brings r.name p) :
      Reaches file root p
  | through {d : Decl} {r : Reference} {p q : Nat} (hp : Reaches file root p)
      (hd : file.decls[p]? = some d) (hroot : ¬d.IsRoot root) (hr : r ∈ d.references)
      (h : file.Brings r.name q) : Reaches file root q

/-- The references of a function and of the other declarations that it reaches. -/
def Mentions (file : File) (root : FuncDecl) (r : Reference) : Prop :=
  r ∈ root.references ∨ ∃ p d, file.Reaches root p ∧ file.decls[p]? = some d ∧
    ¬d.IsRoot root ∧ r ∈ d.references

/-- A function, or a declaration that it reaches, surely refers to a variable. -/
def Forbids (file : File) (root : FuncDecl) (r : Reference) : Prop :=
  file.Mentions root r ∧ r.hard = true ∧
    ∃ g p, file.declared? r.name = some (.gen g, p) ∧ g.kind = .var

variable {file : File} {name : String}

theorem getElem?_of_declared? {d : Decl} {p : Nat} (h : file.declared? name = some (d, p)) :
    file.decls[p]? = some d :=
  List.mk_mem_zipIdx_iff_getElem?.mp (List.mem_reverse.mp (List.mem_of_find?_eq_some h))

theorem mem_entryNames_of_declared? {d : Decl} {p : Nat}
    (h : file.declared? name = some (d, p)) : name ∈ d.entryNames := by
  have hname := List.find?_some h
  exact List.contains_iff_mem.mp hname

end File

namespace PackageIndex

variable {file : File} {root name : String}

private theorem methods_add (index : PackageIndex) (d : Decl × Nat) :
    (index.add d).methods = index.methods ++ (d.1.methodBase.map (·, d.2)).toList := by
  obtain ⟨d, position⟩ := d
  cases d with
  | gen g => simp [add, Decl.methodBase]
  | func f =>
    cases hrecv : f.recv with
    | none => simp [add, Decl.methodBase, hrecv]
    | some recv =>
      cases hbase : recv.ty.receiverBase <;> simp [add, Decl.methodBase, hrecv, hbase]

private theorem methods_foldl_add (ds : List (Decl × Nat)) (index : PackageIndex) :
    (ds.foldl add index).methods =
      index.methods ++ ds.filterMap fun d => d.1.methodBase.map (·, d.2) := by
  induction ds generalizing index with
  | nil => simp
  | cons d ds ih =>
    rw [List.foldl_cons, ih, methods_add, List.append_assoc, List.filterMap_cons]
    cases d.1.methodBase <;> rfl

/-- The methods of a type are the functions that are declared on its name. -/
theorem mem_methodsOf_ofFile {p : Nat} :
    p ∈ (ofFile file).methodsOf name ↔
      ∃ d, file.decls[p]? = some d ∧ d.methodBase = some name := by
  simp only [methodsOf, ofFile, methods_foldl_add, List.nil_append, List.mem_map, List.mem_filter,
    List.mem_filterMap, Option.map_eq_some_iff]
  constructor
  · rintro ⟨_, ⟨⟨d, hd, base, hbase, rfl⟩, hname⟩, rfl⟩
    exact ⟨d.1, List.mk_mem_zipIdx_iff_getElem?.mp hd,
      hbase.trans (congrArg some (eq_of_beq hname))⟩
  · rintro ⟨d, hd, hbase⟩
    exact ⟨(name, p), ⟨⟨(d, p), List.mk_mem_zipIdx_iff_getElem?.mpr hd, name, hbase, rfl⟩,
      BEq.rfl⟩, rfl⟩

/-- A name pulls in what it brings in, save that the name of the function itself does not. -/
theorem mem_pulled_ofFile {p : Nat} :
    p ∈ (ofFile file).pulled root name ↔
      file.Brings name p ∧ ∀ f, file.declared? name = some (.func f, p) → name ≠ root := by
  unfold pulled File.Brings
  rw [lookup_entries]
  cases hdecl : file.declared? name with
  | none => simp
  | some d =>
    obtain ⟨d, q⟩ := d
    cases d with
    | func f =>
      by_cases hroot : name = root
      · simp +contextual [entryAt, hroot]
      · simp [entryAt, hroot]
    | gen g =>
      cases hkind : g.kind <;>
        simp [entryAt, groupEntry, hkind, mem_methodsOf_ofFile]

/-- A sure reference to a variable is refused. -/
theorem refused_ofFile {r : Reference} :
    Needed.Refused (ofFile file) r ↔
      r.hard = true ∧ ∃ g p, file.declared? r.name = some (.gen g, p) ∧ g.kind = .var := by
  rw [Needed.Refused, lookup_entries, and_comm]
  refine and_congr_right fun _ => ?_
  cases hdecl : file.declared? r.name with
  | none => simp
  | some d =>
    obtain ⟨d, q⟩ := d
    cases d with
    | func f => simp [entryAt]
    | gen g => cases hkind : g.kind <;> simp [entryAt, groupEntry, hkind]

end PackageIndex

/-! ### What a function reaches -/

namespace File

variable {file : File} {root : FuncDecl}

/-- A function that is pulled in has a name other than the one it was pulled in for. -/
private theorem name_ne_of_mem_pulled {name : String} {p : Nat} {f : FuncDecl}
    (hp : p ∈ (PackageIndex.ofFile file).pulled root.name.name name)
    (hf : file.decls[p]? = some (.func f)) (hplain : f.recv = none) :
    f.name.name ≠ root.name.name := by
  obtain ⟨hbrings, hroot⟩ := PackageIndex.mem_pulled_ofFile.mp hp
  unfold Brings at hbrings
  cases hdecl : file.declared? name with
  | none => simp only [hdecl] at hbrings
  | some d =>
    obtain ⟨d, q⟩ := d
    have hq := getElem?_of_declared? hdecl
    cases d with
    | func g =>
      simp only [hdecl] at hbrings
      subst hbrings
      obtain rfl : g = f := Decl.func.inj (Option.some.inj (hq.symm.trans hf))
      have hname := mem_entryNames_of_declared? hdecl
      rw [Decl.entryNames, FuncDecl.isMethod, hplain] at hname
      exact List.mem_singleton.mp hname ▸ hroot g hdecl
    | gen g =>
      simp only [hdecl] at hbrings
      rcases hbrings.2 with rfl | ⟨d, hd, hbase⟩
      · cases hq.symm.trans hf
      · obtain rfl := Option.some.inj (hd.symm.trans hf)
        simp [Decl.methodBase, hplain] at hbase

/-- What a name pulls in is not the function itself. -/
private theorem not_isRoot_of_mem_pulled (h : root.recv = none) {name : String} {p : Nat}
    (hp : p ∈ (PackageIndex.ofFile file).pulled root.name.name name) {d : Decl}
    (hd : file.decls[p]? = some d) : ¬d.IsRoot root := by
  cases d with
  | func f => exact fun hroot => name_ne_of_mem_pulled hp hd (hroot.1.trans h) hroot.2
  | gen g => exact id

/-- A name pulls in what it brings in, apart from the function itself. -/
private theorem pulled_of_brings (h : root.recv = none) {name : String} {p : Nat}
    (hp : file.Brings name p) (hroot : ∀ d, file.decls[p]? = some d → ¬d.IsRoot root) :
    p ∈ (PackageIndex.ofFile file).pulled root.name.name name := by
  refine PackageIndex.mem_pulled_ofFile.mpr ⟨hp, ?_⟩
  rintro f hf rfl
  have hname := mem_entryNames_of_declared? hf
  rw [Decl.entryNames] at hname
  split at hname
  · cases hname
  · rename_i hplain
    rw [FuncDecl.isMethod, Bool.not_eq_true, Option.isSome_eq_false_iff,
      Option.isNone_iff_eq_none] at hplain
    exact hroot _ (getElem?_of_declared? hf)
      ⟨hplain.trans h.symm, (List.mem_singleton.mp hname).symm⟩

theorem exists_of_mem_referencesAt {p : Nat} {r : Reference}
    (h : r ∈ Needed.referencesAt file.decls p) :
    ∃ d, file.decls[p]? = some d ∧ r ∈ d.references := by
  unfold Needed.referencesAt at h
  cases hd : file.decls[p]? with
  | none =>
    rw [hd] at h
    cases h
  | some d =>
    rw [hd] at h
    exact ⟨d, rfl, h⟩

/-- What is taken is what the function reaches, without itself. -/
theorem reached_iff (h : root.recv = none) {p : Nat} :
    Needed.Reached (PackageIndex.ofFile file) file.decls root.name.name root.references p ↔
      file.Reaches root p ∧ ∀ d, file.decls[p]? = some d → ¬d.IsRoot root := by
  constructor
  · intro hp
    induction hp with
    | direct hr hp =>
      exact ⟨.direct hr (PackageIndex.mem_pulled_ofFile.mp hp).1,
        fun _ => not_isRoot_of_mem_pulled h hp⟩
    | through _ hr hq ih =>
      obtain ⟨d, hd, hr⟩ := exists_of_mem_referencesAt hr
      exact ⟨.through ih.1 hd (ih.2 d hd) hr (PackageIndex.mem_pulled_ofFile.mp hq).1,
        fun _ => not_isRoot_of_mem_pulled h hq⟩
  · rintro ⟨hp, hroot⟩
    induction hp with
    | direct hr hp => exact .direct hr (pulled_of_brings h hp hroot)
    | @through d r p q _ hd hself hr hq ih =>
      refine .through (ih fun e he => ?_) ?_ (pulled_of_brings h hq hroot)
      · cases hd.symm.trans he
        exact hself
      · rwa [Needed.referencesAt, hd]

/-- The references met on the way are those of the function and of what it reaches. -/
theorem mentioned_iff (h : root.recv = none) {r : Reference} :
    Needed.Mentioned (PackageIndex.ofFile file) file.decls root.name.name root.references r ↔
      file.Mentions root r := by
  refine or_congr_right ⟨?_, ?_⟩
  · rintro ⟨p, hp, hr⟩
    obtain ⟨d, hd, hr⟩ := exists_of_mem_referencesAt hr
    obtain ⟨hp, hroot⟩ := (reached_iff h).mp hp
    exact ⟨p, d, hp, hd, hroot d hd, hr⟩
  · rintro ⟨p, d, hp, hd, hroot, hr⟩
    refine ⟨p, (reached_iff h).mpr ⟨hp, fun e he => ?_⟩, ?_⟩
    · cases hd.symm.trans he
      exact hroot
    · rwa [Needed.referencesAt, hd]

/-! ### The dependencies of a function -/

/-- The declarations at some positions, in source order. -/
def declsAt (file : File) (included : List Nat) : List Decl :=
  (file.decls.zipIdx.filter fun d => included.contains d.2).map Prod.fst

private theorem declsAt_congr {ps qs : List Nat} (h : ∀ p, p ∈ ps ↔ p ∈ qs) :
    file.declsAt ps = file.declsAt qs := by
  have hcontains : ∀ p, ps.contains p = qs.contains p := fun p => by
    rw [Bool.eq_iff_iff, List.contains_iff_mem, List.contains_iff_mem, h]
  simp only [declsAt, hcontains]

/-- Each position gives its declaration, and they are given in order. -/
private theorem exists_positions_declsAt {included : List Nat}
    (h : ∀ p ∈ included, p < file.decls.length) :
    ∃ ps : List Nat, ps.Pairwise (· < ·) ∧ (∀ p, p ∈ ps ↔ p ∈ included) ∧
      (file.declsAt included).map some = ps.map (file.decls[·]?) := by
  refine ⟨(file.decls.zipIdx.filter fun d => included.contains d.2).map Prod.snd, ?_, ?_, ?_⟩
  · have hrange : (file.decls.zipIdx.map Prod.snd).Pairwise (· < ·) := by
      rw [List.zipIdx_map_snd]
      exact List.pairwise_lt_range'
    exact hrange.sublist (List.filter_sublist.map Prod.snd)
  · intro p
    simp only [List.mem_map, List.mem_filter, List.contains_iff_mem]
    constructor
    · rintro ⟨d, ⟨-, hp⟩, rfl⟩
      exact hp
    · intro hp
      have hd := List.getElem?_eq_getElem (h p hp)
      exact ⟨(_, p), ⟨List.mk_mem_zipIdx_iff_getElem?.mpr hd, hp⟩, rfl⟩
  · rw [declsAt, List.map_map, List.map_map]
    refine List.map_congr_left fun d hd => ?_
    exact (List.mk_mem_zipIdx_iff_getElem?.mp (List.mem_filter.mp hd).1).symm

/-- The references of a function are followed in some order. -/
def Ends (file : File) (root : FuncDecl) : Except Reference (List Nat) → Prop :=
  Needed.Ends (PackageIndex.ofFile file) file.decls root.name.name { pending := [root.references] }

/-- The dependencies come from one of the orders. -/
theorem exists_ends_dependencies (file : File) (root : FuncDecl) :
    ∃ o, file.Ends root o ∧ file.dependencies root = o.map file.declsAt := by
  have hrounds : [root.references].length + (file.decls.length - ([] : List Nat).length) ≤
      file.decls.length + 1 := by
    rw [List.length_singleton, List.length_nil]
    omega
  refine ⟨_, Needed.ends_close (PackageIndex.inRange_ofFile file)
    (.start _ _ root.name.name root.references) hrounds, ?_⟩
  rw [dependencies]
  cases Needed.close (PackageIndex.ofFile file) file.decls root.name.name (file.decls.length + 1)
    { pending := [root.references] } <;> rfl

/-- The dependencies are declarations of the file, in source order. -/
theorem dependencies_sublist {copied : List Decl} (h : file.dependencies root = .ok copied) :
    copied.Sublist file.decls := by
  obtain ⟨o, -, heq⟩ := exists_ends_dependencies file root
  cases o with
  | error r => cases heq.symm.trans h
  | ok included =>
    cases heq.symm.trans h
    have hsublist := List.filter_sublist (l := file.decls.zipIdx) (p := (included.contains ·.2))
    have hmap := hsublist.map Prod.fst
    rwa [List.zipIdx_map_fst] at hmap

/-- What every order comes to: a forbidden reference, or what the function reaches. -/
def Settles (file : File) (root : FuncDecl) : Except Reference (List Nat) → Prop
  | .error r => file.Forbids root r
  | .ok included => (¬∃ r, file.Forbids root r) ∧
      ∀ p, p ∈ included ↔ file.Reaches root p ∧ ∀ d, file.decls[p]? = some d → ¬d.IsRoot root

theorem Ends.settles (h : root.recv = none) {o : Except Reference (List Nat)}
    (ho : file.Ends root o) : file.Settles root o := by
  have hsettles := Needed.Ends.settles (PackageIndex.inRange_ofFile file) ho (.initial _ _ _ _)
  cases o with
  | error r => exact ⟨(mentioned_iff h).mp hsettles.1, PackageIndex.refused_ofFile.mp hsettles.2⟩
  | ok included =>
    refine ⟨fun ⟨r, hr, hvar⟩ => ?_, fun p => (hsettles.1 p).trans (reached_iff h)⟩
    exact hsettles.2 r ((mentioned_iff h).mpr hr) (PackageIndex.refused_ofFile.mpr hvar)

/-- Two outcomes are both refusals, or they give the same declarations. -/
theorem Settles.agree {o o' : Except Reference (List Nat)} (h : file.Settles root o)
    (h' : file.Settles root o') :
    (∃ r r', o = .error r ∧ o' = .error r') ∨ o.map file.declsAt = o'.map file.declsAt := by
  cases o with
  | error r =>
    cases o' with
    | error r' => exact Or.inl ⟨r, r', rfl, rfl⟩
    | ok _ => exact absurd ⟨r, h⟩ h'.1
  | ok included =>
    cases o' with
    | error r' => exact absurd ⟨r', h'⟩ h.1
    | ok _ => exact Or.inr (congrArg Except.ok (declsAt_congr fun p => (h.2 p).trans (h'.2 p).symm))

/-- A function that is no method has no dependencies to give exactly if it, or a declaration that it
reaches, surely refers to a variable. Otherwise its dependencies are the declarations that it
reaches without itself, each of them once and in source order. Following the references in another
order always ends, and comes to the same. -/
theorem dependencies_reaches (h : root.recv = none) :
    ((∃ r, file.dependencies root = .error r) ↔ ∃ r, file.Forbids root r) ∧
      ((¬∃ r, file.Forbids root r) → ∃ (copied : List Decl) (ps : List Nat),
        file.dependencies root = .ok copied ∧ ps.Pairwise (· < ·) ∧
        (∀ p, p ∈ ps ↔ file.Reaches root p ∧ ∀ d, file.decls[p]? = some d → ¬d.IsRoot root) ∧
        copied.map some = ps.map (file.decls[·]?)) ∧
      (∀ o, file.Ends root o → (∃ r r', o = .error r ∧ file.dependencies root = .error r') ∨
        o.map file.declsAt = file.dependencies root) ∧
      ∀ run : Nat → Needed, ∃ n, ¬Needed.Follows (PackageIndex.ofFile file) file.decls
        root.name.name (run n) (run (n + 1)) := by
  obtain ⟨own, hends, heq⟩ := exists_ends_dependencies file root
  have hown := hends.settles h
  rw [heq]
  refine ⟨?_, fun hnone => ?_, fun o ho => ?_, fun run => ?_⟩
  · cases own with
    | error r => exact ⟨fun _ => ⟨r, hown⟩, fun _ => ⟨r, rfl⟩⟩
    | ok included => exact ⟨fun ⟨_, hr⟩ => (nomatch hr), fun hr => absurd hr hown.1⟩
  · cases own with
    | error r => exact absurd ⟨r, hown⟩ hnone
    | ok included =>
      have hrange : ∀ p ∈ included, p < file.decls.length := fun p hp =>
        ((reached_iff h).mpr ((hown.2 p).mp hp)).lt_length (PackageIndex.inRange_ofFile file)
      obtain ⟨ps, hsorted, hmem, hmap⟩ := exists_positions_declsAt hrange
      exact ⟨_, ps, rfl, hsorted, fun p => (hmem p).trans (hown.2 p), hmap⟩
  · rcases (ho.settles h).agree hown with ⟨r, r', rfl, rfl⟩ | hagree
    · exact Or.inl ⟨r, r', rfl, rfl⟩
    · exact Or.inr hagree
  · exact Needed.exists_not_follows (PackageIndex.inRange_ofFile file) run

end File

/-- A function or method `name` that calls the functions `callees`. -/
def calling (recv : Option Field) (name : String) (callees : List String) : FuncDecl :=
  { recv
    name := .made name
    typeParams := []
    sig := ⟨[], []⟩
    body := some ⟨callees.map fun callee =>
      .expr (.call (.ident (.made callee)) [] false .synthetic), .synthetic⟩
    directives := []
    span := .synthetic }

/-- The method `name` of the type `T`. -/
def methodOfT (name : String) (callees : List String) : FuncDecl :=
  calling (some ⟨[.made "t"], .named "T", none, .synthetic⟩) name callees

/-- The declaration `type T int`. -/
def typeT : Decl :=
  .gen ⟨.type, [.type (.made "T") [] false (.named "int") .synthetic], false, [], .synthetic⟩

/-- Two functions that call each other, and a type with a method that calls one of them. -/
def cyclicFile : File :=
  ⟨[], .made "main", [],
    [typeT, .func (methodOfT "show" ["odd"]), .func (calling none "even" ["odd"]),
      .func (calling none "odd" ["even", "T"]), .func (calling none "main" ["even"])]⟩

/-- In any order, a function that is made from the first one takes the type, its method and the
second function with it, and leaves out the one it is made from. -/
theorem cyclicFile_dependencies :
    (calling none "even" ["T"]).recv = none ∧
      (¬∃ r, cyclicFile.Forbids (calling none "even" ["T"]) r) ∧
      ∀ o, cyclicFile.Ends (calling none "even" ["T"]) o → o.map cyclicFile.declsAt =
        .ok [typeT, .func (methodOfT "show" ["odd"]),
        .func (calling none "odd" ["even", "T"])] := by
  have hdependencies : cyclicFile.dependencies (calling none "even" ["T"]) =
      .ok [typeT, .func (methodOfT "show" ["odd"]), .func (calling none "odd" ["even", "T"])] :=
    rfl
  obtain ⟨herror, -, horder, -⟩ :=
    @File.dependencies_reaches cyclicFile (calling none "even" ["T"]) rfl
  rw [hdependencies] at herror horder
  refine ⟨rfl, fun hforbids => ?_, fun o ho => ?_⟩
  · obtain ⟨r, hr⟩ := herror.mpr hforbids
    cases hr
  · rcases horder o ho with ⟨r, r', -, hr⟩ | heq
    · cases hr
    · exact heq

/-- A file with a method of a type. -/
def methodFile : File :=
  ⟨[], .made "main", [], [typeT, .func (methodOfT "m" []), .func (calling none "main" [])]⟩

/-- A method is one of its own dependencies, since the type of its receiver brings in its
methods. -/
theorem methodFile_dependencies :
    methodFile.dependencies (methodOfT "m" []) = .ok [typeT, .func (methodOfT "m" [])] :=
  rfl

end ServiceSplit
