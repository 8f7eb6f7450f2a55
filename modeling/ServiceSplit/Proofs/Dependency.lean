import ServiceSplit.Dependency
import ServiceSplit.Proofs.Except

/-!
# Dependencies are closed

The declarations that a function needs contain everything that they refer to, and none of them
surely refers to a variable of the package.
-/

namespace ServiceSplit

/-- The declaration of a file that a name refers to: the last one that declares it. The blank
identifier refers to nothing. -/
def File.packageDecl? (file : File) (name : String) : Option Decl :=
  if name = "_" then none else file.decls.reverse.find? (·.packageNames.contains name)

/-- The names by which the index gives a declaration. The blank name of a variable or constant is
not one of them. -/
def Decl.entryNames : Decl → List String
  | .func f => if f.isMethod then [] else [f.name.name]
  | .gen g => g.specs.flatMap PackageIndex.specNames

/-- The declaration that a name stands for in the index of a file, with its position: the last one
of that name. -/
def File.declared? (file : File) (name : String) : Option (Decl × Nat) :=
  file.decls.zipIdx.reverse.find? (·.1.entryNames.contains name)

/-! ### The index of a file -/

namespace PackageIndex

variable {index : PackageIndex} {name : String}

/-- What the names of a declaration stand for. -/
def entryAt : Decl × Nat → PackageEntry
  | (.func _, position) => .func position
  | (.gen g, position) => groupEntry g.kind position

private theorem lookup_foldl_cons {names : List String} {entry : PackageEntry}
    {es : List (String × PackageEntry)} :
    (names.foldl (fun es name => (name, entry) :: es) es).lookup name =
      if names.contains name then some entry else es.lookup name := by
  induction names generalizing es with
  | nil => rfl
  | cons n names ih =>
    rw [List.foldl_cons, ih, List.lookup_cons, List.contains_cons]
    cases names.contains name <;> cases name == n <;> rfl

private theorem contains_specNames (hname : name ≠ "_") (specs : List Spec) :
    (specs.flatMap specNames).contains name = (specs.flatMap Spec.names).contains name := by
  rw [Bool.eq_iff_iff, List.contains_iff_mem, List.contains_iff_mem, List.mem_flatMap,
    List.mem_flatMap]
  refine exists_congr fun s => and_congr_right fun _ => ?_
  cases s with
  | type id params isAlias ty sp => exact Iff.rfl
  | value names ty values sp =>
    simp only [specNames, Spec.names, List.mem_map, List.mem_filter, Ident.isBlank]
    constructor
    · rintro ⟨id, ⟨hid, -⟩, rfl⟩
      exact ⟨id, hid, rfl⟩
    · rintro ⟨id, hid, rfl⟩
      exact ⟨id, ⟨hid, by simpa using hname⟩, rfl⟩

private theorem contains_entryNames (hname : name ≠ "_") (d : Decl) :
    d.entryNames.contains name = d.packageNames.contains name := by
  cases d with
  | func f => rfl
  | gen g => exact contains_specNames hname g.specs

private theorem lookup_add (d : Decl × Nat) :
    (index.add d).entries.lookup name =
      if d.1.entryNames.contains name then some (entryAt d) else index.entries.lookup name := by
  obtain ⟨d, position⟩ := d
  cases d with
  | func f =>
    cases hrecv : f.recv with
    | some recv =>
      simp only [add, hrecv, Decl.entryNames, FuncDecl.isMethod]
      split <;> rfl
    | none =>
      simp only [add, hrecv, Decl.entryNames, FuncDecl.isMethod, List.lookup_cons,
        Option.isSome_none, Bool.false_eq_true, if_false, List.contains_cons, entryAt]
      cases name == f.name.name <;> rfl
  | gen g =>
    simp only [add, Decl.entryNames, lookup_foldl_cons, entryAt]
    rfl

private theorem lookup_foldl_add (ds : List (Decl × Nat)) :
    (ds.foldl add index).entries.lookup name =
      ((ds.reverse.find? (·.1.entryNames.contains name)).map entryAt).or
        (index.entries.lookup name) := by
  induction ds generalizing index with
  | nil => rfl
  | cons d ds ih =>
    rw [List.foldl_cons, ih, lookup_add, List.reverse_cons, List.find?_append,
      List.find?_singleton]
    cases ds.reverse.find? (·.1.entryNames.contains name) <;>
      cases d.1.entryNames.contains name <;> rfl

/-- The index gives the last declaration of a name. -/
theorem lookup_entries (file : File) (name : String) :
    (ofFile file).entries.lookup name = (file.declared? name).map entryAt := by
  rw [ofFile, lookup_foldl_add]
  exact Option.or_none

/-- The index gives the last declaration of a name, with its position. -/
theorem lookup_ofFile (file : File) (hname : name ≠ "_") :
    match file.packageDecl? name with
    | none => (ofFile file).entries.lookup name = none
    | some d => ∃ position, file.decls[position]? = some d ∧
        (ofFile file).entries.lookup name = some (entryAt (d, position)) := by
  have hlookup := lookup_entries file name
  have hdecl : file.packageDecl? name = (file.declared? name).map Prod.fst := by
    have hdecls : file.decls.reverse = file.decls.zipIdx.reverse.map Prod.fst := by
      rw [List.map_reverse, List.zipIdx_map_fst]
    have hnames : (fun d : Decl × Nat => d.1.entryNames.contains name) =
        (·.packageNames.contains name) ∘ Prod.fst :=
      funext fun d => contains_entryNames hname d.1
    rw [File.packageDecl?, if_neg hname, hdecls, List.find?_map, File.declared?, hnames]
  cases hfound : file.declared? name with
  | none =>
    rw [hfound] at hlookup hdecl
    rw [hdecl]
    exact hlookup
  | some d =>
    rw [hfound] at hlookup hdecl
    have hmem := List.mem_reverse.mp (List.mem_of_find?_eq_some hfound)
    rw [hdecl]
    exact ⟨d.2, List.mk_mem_zipIdx_iff_getElem?.mp hmem, hlookup⟩

end PackageIndex

/-! ### Following references -/

namespace PackageIndex

variable {index : PackageIndex} {count : Nat}

/-- Every position in the index is the position of one of `count` declarations. -/
structure InRange (index : PackageIndex) (count : Nat) : Prop where
  entries : ∀ name position, (name, .func position) ∈ index.entries ∨
    (name, .group position) ∈ index.entries → position < count
  methods : ∀ base position, (base, position) ∈ index.methods → position < count

private theorem mem_foldl_cons {names : List String} {entry : PackageEntry}
    {es : List (String × PackageEntry)} {e : String × PackageEntry}
    (h : e ∈ names.foldl (fun es name => (name, entry) :: es) es) : e ∈ es ∨ e.2 = entry := by
  induction names generalizing es with
  | nil => exact Or.inl h
  | cons name names ih =>
    rcases ih h with h | h
    · rcases List.mem_cons.mp h with rfl | h
      · exact Or.inr rfl
      · exact Or.inl h
    · exact Or.inr h

private theorem InRange.add (h : index.InRange count) {d : Decl × Nat} (hd : d.2 < count) :
    (index.add d).InRange count := by
  obtain ⟨d, position⟩ := d
  cases d with
  | func f =>
    cases hrecv : f.recv with
    | some recv =>
      simp only [PackageIndex.add, hrecv]
      split
      · refine ⟨h.entries, fun base p hp => ?_⟩
        rcases List.mem_append.mp hp with hp | hp
        · exact h.methods base p hp
        · cases List.mem_singleton.mp hp
          exact hd
      · exact h
    | none =>
      simp only [PackageIndex.add, hrecv]
      refine ⟨fun name p hp => ?_, h.methods⟩
      simp only [List.mem_cons, Prod.mk.injEq, PackageEntry.func.injEq, reduceCtorEq, and_false,
        false_or] at hp
      rcases hp with (⟨-, rfl⟩ | hp) | hp
      · exact hd
      · exact h.entries name p (Or.inl hp)
      · exact h.entries name p (Or.inr hp)
  | gen g =>
    have hgroup : ∀ p, groupEntry g.kind position = .group p → p = position := by
      intro p hp
      cases hkind : g.kind <;> simp only [groupEntry, hkind] at hp <;> cases hp <;> rfl
    refine ⟨fun name p hp => ?_, h.methods⟩
    rcases hp with hp | hp
    · rcases mem_foldl_cons hp with hp | hp
      · exact h.entries name p (Or.inl hp)
      · cases hkind : g.kind <;> simp only [groupEntry, hkind] at hp <;> cases hp
    · rcases mem_foldl_cons hp with hp | hp
      · exact h.entries name p (Or.inr hp)
      · rw [hgroup p hp.symm]
        exact hd

/-- The index of a file gives positions of its declarations. -/
theorem inRange_ofFile (file : File) : (ofFile file).InRange file.decls.length := by
  have hadd : ∀ ds : List (Decl × Nat), (∀ d ∈ ds, d.2 < file.decls.length) →
      ∀ index : PackageIndex, index.InRange file.decls.length →
        (ds.foldl PackageIndex.add index).InRange file.decls.length := by
    intro ds
    induction ds with
    | nil => exact fun _ _ h => h
    | cons d ds ih =>
      intro hds index h
      exact ih (fun e he => hds e (List.mem_cons_of_mem d he)) _ (h.add (hds d List.mem_cons_self))
  refine hadd _ (fun d hd => ?_) {} ⟨fun _ _ h => ?_, fun _ _ h => nomatch h⟩
  · exact List.snd_lt_of_mem_zipIdx hd
  · rcases h with h | h <;> cases h

end PackageIndex

namespace Needed

variable {index : PackageIndex} {decls : List Decl} {root : String} {st st' : Needed}

/-- The references of the declaration at a position. -/
def referencesAt (decls : List Decl) (position : Nat) : List Reference :=
  (decls[position]?.map Decl.references).getD []

/-- What a reference pulls in is among the positions `included`, and a sure reference is not to a
variable. -/
def Resolved (index : PackageIndex) (root : String) (included : List Nat) (r : Reference) : Prop :=
  match index.entries.lookup r.name with
  | none => True
  | some .var => r.hard = false
  | some (.func position) => r.name = root ∨ position ∈ included
  | some (.group position) => ∀ q ∈ position :: index.methodsOf r.name, q ∈ included

theorem Resolved.mono {included more : List Nat} {r : Reference}
    (h : Resolved index root included r) (hsub : included ⊆ more) : Resolved index root more r := by
  unfold Resolved at h ⊢
  split at h
  · trivial
  · exact h
  · exact h.imp id fun hp => hsub hp
  · exact fun q hq => hsub (h q hq)

/-- Positions are taken, and the references there are to be looked at. -/
structure Extends (decls : List Decl) (st st' : Needed) : Prop where
  added : ∃ ps, st'.included = ps ++ st.included ∧
    st'.pending = ps.map (referencesAt decls) ++ st.pending
  nodup : st.included.Nodup → st'.included.Nodup
  inRange : (∀ p ∈ st.included, p < decls.length) → ∀ p ∈ st'.included, p < decls.length

namespace Extends

theorem refl (st : Needed) : Extends decls st st :=
  ⟨⟨[], rfl, rfl⟩, id, id⟩

theorem trans {st₁ st₂ st₃ : Needed} (h₁ : Extends decls st₁ st₂) (h₂ : Extends decls st₂ st₃) :
    Extends decls st₁ st₃ := by
  obtain ⟨ps, hin, hpending⟩ := h₁.added
  obtain ⟨qs, hin', hpending'⟩ := h₂.added
  refine ⟨⟨qs ++ ps, ?_, ?_⟩, h₂.nodup ∘ h₁.nodup, h₂.inRange ∘ h₁.inRange⟩
  · rw [hin', hin, List.append_assoc]
  · rw [hpending', hpending, List.map_append, List.append_assoc]

theorem subset (h : Extends decls st st') : st.included ⊆ st'.included := by
  obtain ⟨ps, hin, -⟩ := h.added
  exact hin ▸ List.subset_append_right ps st.included

end Extends

private theorem extends_take {position : Nat} (hp : position < decls.length) :
    Extends decls st (st.take decls position) ∧ position ∈ (st.take decls position).included := by
  rw [take]
  split
  · rename_i h
    exact ⟨.refl st, List.contains_iff_mem.mp h⟩
  · rename_i h
    have hfresh : position ∉ st.included := fun hmem => h (List.contains_iff_mem.mpr hmem)
    refine ⟨⟨⟨[position], rfl, rfl⟩, fun hn => List.nodup_cons.mpr ⟨hfresh, hn⟩, ?_⟩,
      List.mem_cons_self⟩
    exact fun hr => List.forall_mem_cons.mpr ⟨hp, hr⟩

private theorem extends_foldl_take {ps : List Nat} (hps : ∀ p ∈ ps, p < decls.length) :
    Extends decls st (ps.foldl (take decls) st) ∧ ps ⊆ (ps.foldl (take decls) st).included := by
  induction ps generalizing st with
  | nil => exact ⟨.refl st, List.nil_subset _⟩
  | cons p ps ih =>
    obtain ⟨htake, hmem⟩ : Extends decls st (st.take decls p) ∧ p ∈ (st.take decls p).included :=
      extends_take (hps p List.mem_cons_self)
    obtain ⟨hrest, hsub⟩ := ih fun q hq => hps q (List.mem_cons_of_mem p hq)
    exact ⟨htake.trans hrest, List.cons_subset.mpr ⟨hrest.subset hmem, hsub⟩⟩

theorem mem_of_lookup {name : String} {entry : PackageEntry}
    {es : List (String × PackageEntry)} (h : es.lookup name = some entry) : (name, entry) ∈ es := by
  obtain ⟨before, after, rfl, -⟩ := List.lookup_eq_some_iff.mp h
  exact List.mem_append_right before List.mem_cons_self

/-- What following a reference takes, and that it is enough. -/
theorem extends_follow (hindex : index.InRange decls.length) {r : Reference}
    (h : follow index decls root st r = .ok st') :
    Extends decls st st' ∧ Resolved index root st'.included r := by
  unfold follow at h
  unfold Resolved
  cases hentry : index.entries.lookup r.name with
  | none =>
    simp only [hentry] at h
    cases h
    exact ⟨.refl st, trivial⟩
  | some entry =>
    have hmem := mem_of_lookup hentry
    cases entry with
    | var =>
      simp only [hentry] at h
      split at h
      · cases h
      · rename_i hhard
        cases h
        exact ⟨.refl st, Bool.eq_false_iff.mpr hhard⟩
    | func position =>
      simp only [hentry] at h
      split at h
      · rename_i hroot
        cases h
        exact ⟨.refl st, Or.inl hroot⟩
      · cases h
        obtain ⟨hext, hmem⟩ := extends_take (hindex.entries r.name position (Or.inl hmem))
        exact ⟨hext, Or.inr hmem⟩
    | group position =>
      simp only [hentry] at h
      cases h
      have hrange : ∀ q ∈ position :: index.methodsOf r.name, q < decls.length := by
        refine List.forall_mem_cons.mpr ⟨hindex.entries r.name position (Or.inr hmem), ?_⟩
        intro q hq
        obtain ⟨m, hm, rfl⟩ := List.mem_map.mp hq
        exact hindex.methods m.1 m.2 (List.mem_filter.mp hm).1
      obtain ⟨hext, hsub⟩ := extends_foldl_take hrange
      exact ⟨hext, fun q hq => hsub hq⟩

private theorem extends_foldlM (hindex : index.InRange decls.length) {refs : List Reference}
    (h : refs.foldlM (follow index decls root) st = .ok st') :
    Extends decls st st' ∧ ∀ r ∈ refs, Resolved index root st'.included r := by
  induction refs generalizing st with
  | nil =>
    cases h
    exact ⟨.refl st', List.forall_mem_nil _⟩
  | cons r refs ih =>
    rw [List.foldlM_cons] at h
    obtain ⟨next, hnext, h⟩ := exists_of_bind_eq_ok h
    obtain ⟨hfirst, hr⟩ := extends_follow hindex hnext
    obtain ⟨hrest, hrefs⟩ := ih h
    exact ⟨hfirst.trans hrest, List.forall_mem_cons.mpr ⟨hr.mono hrest.subset, hrefs⟩⟩

/-- Every declaration that was taken is looked at later, or what it refers to has been taken. So it
is for the references `start` of the function itself. -/
structure Closing (index : PackageIndex) (decls : List Decl) (root : String)
    (start : List Reference) (st : Needed) : Prop where
  nodup : st.included.Nodup
  inRange : ∀ p ∈ st.included, p < decls.length
  covered : ∀ refs ∈ start :: st.included.map (referencesAt decls),
    refs ∈ st.pending ∨ ∀ r ∈ refs, Resolved index root st.included r

/-- At first only the references of the function itself are to be looked at. -/
theorem Closing.start (index : PackageIndex) (decls : List Decl) (root : String)
    (refs : List Reference) : Closing index decls root refs { pending := [refs] } :=
  ⟨List.nodup_nil, List.forall_mem_nil _, fun _ hrefs => Or.inl hrefs⟩

/-- No position is taken twice, so there are at most as many as declarations. -/
private theorem Closing.length_le {start : List Reference}
    (h : Closing index decls root start st) : st.included.length ≤ decls.length := by
  have hsub : st.included ⊆ List.range decls.length :=
    fun p hp => List.mem_range.mpr (h.inRange p hp)
  simpa only [List.length_range] using h.nodup.length_le_of_subset hsub

/-- If nothing is left to be looked at, everything has been taken. -/
private theorem Closing.resolved {start : List Reference} (h : Closing index decls root start st)
    (hnone : st.pending = []) :
    ∀ refs ∈ start :: st.included.map (referencesAt decls),
      ∀ r ∈ refs, Resolved index root st.included r := by
  intro refs hrefs
  rcases h.covered refs hrefs with hmem | hdone
  · rw [hnone] at hmem
    cases hmem
  · exact hdone

/-- A round looks at the references of one declaration. -/
theorem Closing.round (hindex : index.InRange decls.length) {start refs : List Reference}
    {rest : List (List Reference)} (h : Closing index decls root start st)
    (hpending : st.pending = refs :: rest)
    (hround : refs.foldlM (follow index decls root) { st with pending := rest } = .ok st') :
    Closing index decls root start st' ∧
      st'.pending.length + (decls.length - st'.included.length) + 1 =
        st.pending.length + (decls.length - st.included.length) := by
  obtain ⟨hext, hrefs⟩ := extends_foldlM hindex hround
  obtain ⟨ps, hin, hpend⟩ := hext.added
  have hclosing : Closing index decls root start st' := by
    refine ⟨hext.nodup h.nodup, hext.inRange h.inRange, fun later hlater => ?_⟩
    have hold : later ∈ start :: st.included.map (referencesAt decls) ∨
        later ∈ ps.map (referencesAt decls) := by
      rw [hin, List.map_append, List.mem_cons, List.mem_append] at hlater
      rcases hlater with hlater | hlater | hlater
      · exact Or.inl (List.mem_cons.mpr (Or.inl hlater))
      · exact Or.inr hlater
      · exact Or.inl (List.mem_cons_of_mem _ hlater)
    rcases hold with hold | hnew
    · rcases h.covered later hold with hlater | hdone
      · rw [hpending] at hlater
        rcases List.mem_cons.mp hlater with rfl | hlater
        · exact Or.inr hrefs
        · exact Or.inl (hpend ▸ List.mem_append_right _ hlater)
      · exact Or.inr fun r hr => (hdone r hr).mono hext.subset
    · exact Or.inl (hpend ▸ List.mem_append_left _ hnew)
  refine ⟨hclosing, ?_⟩
  have hle := hclosing.length_le
  rw [hin, List.length_append] at hle ⊢
  rw [hpend, hpending, List.length_append, List.length_map, List.length_cons]
  simp only at hle ⊢
  omega

/-- The rounds suffice: each looks at one declaration, and none is taken twice. -/
theorem close_resolved (hindex : index.InRange decls.length) {start : List Reference}
    {rounds : Nat} (h : Closing index decls root start st)
    (hrounds : st.pending.length + (decls.length - st.included.length) ≤ rounds)
    (hclose : close index decls root rounds st = .ok st') :
    ∀ refs ∈ start :: st'.included.map (referencesAt decls),
      ∀ r ∈ refs, Resolved index root st'.included r := by
  induction rounds generalizing st with
  | zero =>
    obtain rfl := Except.ok.inj hclose
    exact h.resolved (List.eq_nil_of_length_eq_zero (by omega))
  | succ rounds ih =>
    rw [close] at hclose
    cases hpending : st.pending with
    | nil =>
      rw [hpending] at hclose
      obtain rfl := Except.ok.inj hclose
      exact h.resolved hpending
    | cons refs rest =>
      simp only [hpending] at hclose
      obtain ⟨next, hround, hclose⟩ := exists_of_bind_eq_ok hclose
      obtain ⟨hnext, hcount⟩ := h.round hindex hpending hround
      exact ih hnext (by omega) hclose

end Needed

/-! ### The dependencies of a function -/

/-- What a name refers to is among the declarations `copied`, or the function `root` itself, and not
a variable. -/
def Supplied (file : File) (root : String) (copied : List Decl) (name : String) : Prop :=
  match file.packageDecl? name with
  | none => True
  | some (.func f) => name = root ∨ .func f ∈ copied
  | some (.gen g) => g.kind ≠ .var ∧ .gen g ∈ copied

/-- A name refers to a variable of the package. -/
def NamesVariable (file : File) (name : String) : Prop :=
  ∃ g, file.packageDecl? name = some (.gen g) ∧ g.kind = .var

/-- What is supplied is not a variable. -/
theorem Supplied.not_namesVariable {file : File} {root name : String} {copied : List Decl}
    (h : Supplied file root copied name) : ¬NamesVariable file name := by
  rintro ⟨g, hg, hvar⟩
  rw [Supplied, hg] at h
  exact h.1 hvar

private theorem supplied_of_resolved {file : File} {root : String} {included : List Nat}
    {r : Reference} (h : Needed.Resolved (PackageIndex.ofFile file) root included r)
    (hvar : r.hard = false → ¬NamesVariable file r.name) :
    Supplied file root
      ((file.decls.zipIdx.filter fun d => included.contains d.2).map Prod.fst) r.name := by
  have hcopied : ∀ position d, file.decls[position]? = some d → position ∈ included →
      d ∈ (file.decls.zipIdx.filter fun d => included.contains d.2).map Prod.fst := by
    intro position d hd hp
    exact List.mem_map.mpr ⟨(d, position), List.mem_filter.mpr
      ⟨List.mk_mem_zipIdx_iff_getElem?.mpr hd, List.contains_iff_mem.mpr hp⟩, rfl⟩
  by_cases hblank : r.name = "_"
  · rw [Supplied, File.packageDecl?, if_pos hblank]
    trivial
  have hlookup := PackageIndex.lookup_ofFile file hblank
  unfold Supplied
  unfold Needed.Resolved at h
  cases hdecl : file.packageDecl? r.name with
  | none => trivial
  | some d =>
    rw [hdecl] at hlookup
    obtain ⟨position, hposition, hentry⟩ := hlookup
    rw [hentry] at h
    cases d with
    | func f => exact h.imp id fun hp => hcopied position _ hposition hp
    | gen g =>
      cases hkind : g.kind with
      | var =>
        simp only [PackageIndex.entryAt, PackageIndex.groupEntry, hkind] at h
        exact absurd ⟨g, hdecl, hkind⟩ (hvar h)
      | const | type =>
        simp only [PackageIndex.entryAt, PackageIndex.groupEntry, hkind] at h
        exact ⟨by simp [hkind], hcopied position _ hposition (h position List.mem_cons_self)⟩

/-- What the references of a function and of its dependencies refer to is among the dependencies,
unless it is a variable that is not surely referred to. -/
theorem File.dependencies_supplied {file : File} {root : FuncDecl} {copied : List Decl}
    (h : file.dependencies root = .ok copied) {d : Decl} (hd : d ∈ .func root :: copied)
    {r : Reference} (hr : r ∈ d.references)
    (hvar : r.hard = false → ¬NamesVariable file r.name) :
    Supplied file root.name.name copied r.name := by
  obtain ⟨st, hclose, h⟩ := exists_of_bind_eq_ok h
  obtain rfl := Except.ok.inj h
  have hall := Needed.close_resolved (PackageIndex.inRange_ofFile file)
    (Needed.Closing.start _ _ _ root.references)
    (by simp only [List.length_cons, List.length_nil]; omega) hclose
  refine supplied_of_resolved ?_ hvar
  rcases List.mem_cons.mp hd with rfl | hd
  · exact hall _ List.mem_cons_self r hr
  · obtain ⟨⟨d', position⟩, hmem, rfl⟩ := List.mem_map.mp hd
    obtain ⟨hzip, hin⟩ := List.mem_filter.mp hmem
    refine hall _ (List.mem_cons_of_mem _ (List.mem_map.mpr
      ⟨position, List.contains_iff_mem.mp hin, rfl⟩)) r ?_
    rw [Needed.referencesAt, List.mk_mem_zipIdx_iff_getElem?.mp hzip]
    exact hr

end ServiceSplit
