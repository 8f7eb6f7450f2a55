import ServiceSplit.Artifact.Write
import ServiceSplit.Host.Rehearsal
import ServiceSplit.Proofs.Host.View

/-!
# Written artifacts

Artifacts are written one after the other, each to a directory of its own. Writing one empties its
directory first, so it must be shown that nothing of the artifacts before it is lost, and that the
paths of all files still lead to them in the end.
-/

namespace ServiceSplit

/-! ### Files of artifacts -/

namespace FileTree

variable {t t' : FileTree} {out artifact : String} {file : String × String}

/-- The directories on the way to the artifacts are there. -/
def Reaches (t : FileTree) (out : String) : Prop :=
  t.walk (if isAbsolute (joinPath out "") then [] else t.home) (namesInto out) =
      .ok (placeInto t.home out) ∧
    t.view (placeInto t.home out) = some none

/-- The tree has a file of an artifact, and neither its path nor a name in it is too long. -/
structure Stores (t : FileTree) (out artifact : String) (file : String × String) : Prop where
  view : t.view (placeInto t.home out ++ [artifact, file.1]) = some (some file.2)
  path_le : (joinPath (joinPath out artifact) file.1).utf8ByteSize ≤ maxPathSize
  artifact_le : artifact.utf8ByteSize ≤ maxNameSize
  name_le : file.1.utf8ByteSize ≤ maxNameSize

theorem placeFrom_file (home : Location) (out : String) (hartifact : IsEntryName artifact)
    {name : String} (hname : IsEntryName name) :
    placeFrom home (joinPath (joinPath out artifact) name) =
      placeInto home out ++ [artifact] ++ [name] := by
  rw [placeFrom_joinPath home _ hname, placeInto_joinPath home out hartifact]

theorem pathNames_file (out : String) (hartifact : IsEntryName artifact) {name : String}
    (hname : IsEntryName name) :
    pathNames (joinPath (joinPath out artifact) name) = namesInto out ++ [artifact, name] := by
  rw [pathNames_joinPath _ hname.no_slash, namesInto_joinPath out hartifact, List.append_assoc]
  rfl

/-- The path of a file can be followed if the artifacts can be reached and the file's directory is
there. -/
theorem locate_file_eq_ok_iff (hartifact : IsEntryName artifact) {name : String}
    (hname : IsEntryName name) {stop : Location} :
    t.locate (joinPath (joinPath out artifact) name) = .ok stop ↔
      (joinPath (joinPath out artifact) name).utf8ByteSize ≤ maxPathSize ∧
        artifact.utf8ByteSize ≤ maxNameSize ∧ name.utf8ByteSize ≤ maxNameSize ∧ t.Reaches out ∧
        t.view (placeInto t.home out ++ [artifact]) = some none ∧
        stop = placeInto t.home out ++ [artifact, name] := by
  rw [locate_eq_ok_iff, pathNames_file out hartifact hname, isAbsolute_joinPath,
    isAbsolute_joinPath_joinPath out hartifact, walk_append_eq_ok_iff, walk_cons_eq_ok_iff,
    walk_cons_eq_ok_iff, follow_entry _ hartifact, follow_entry _ hname, Reaches, placeInto]
  simp only [walk, List.append_assoc, List.cons_append, List.nil_append, Except.ok.injEq]
  constructor
  · rintro ⟨hpath, hout, hinto, hartifact_le, hdir, hname_le, hstop⟩
    exact ⟨hpath, hartifact_le, hname_le, ⟨hout, hinto⟩, hdir, hstop.symm⟩
  · rintro ⟨hpath, hartifact_le, hname_le, ⟨hout, hinto⟩, hdir, hstop⟩
    exact ⟨hpath, hout, hinto, hartifact_le, hdir, hname_le, hstop.symm⟩

/-- A stored file can be read. -/
theorem Stores.read (h : t.Stores out artifact file) (hout : t.Reaches out)
    (hartifact : IsEntryName artifact) (hname : IsEntryName file.1) :
    t.read (joinPath (joinPath out artifact) file.1) = .ok file.2 := by
  have hdir : t.view (placeInto t.home out ++ [artifact]) = some none := by
    have hview := h.view
    rw [List.append_cons] at hview
    exact view_of_append hview
  exact read_eq_ok_iff.mpr ⟨_, (locate_file_eq_ok_iff hartifact hname).mpr
    ⟨h.path_le, h.artifact_le, h.name_le, hout, hdir, rfl⟩, h.view⟩

/-- A file is stored by writing it, which changes nothing else. -/
theorem stores_of_write (hartifact : IsEntryName artifact) (hname : IsEntryName file.1)
    (h : t.write (joinPath (joinPath out artifact) file.1) file.2 = .ok t') :
    t'.home = t.home ∧ t'.Reaches out ∧ t'.Stores out artifact file ∧
      ∀ q, q ≠ placeInto t.home out ++ [artifact, file.1] → t'.view q = t.view q := by
  obtain ⟨hhome, hlocate, hview⟩ := view_of_write (placeFrom_file t.home out hartifact hname) h
  obtain ⟨hpath, hartifact_le, hname_le, hout, -, -⟩ :=
    (locate_file_eq_ok_iff hartifact hname).mp hlocate
  rw [List.append_assoc] at hview
  have hfree : t.view (placeInto t.home out ++ [artifact, file.1]) ≠ some none := by
    intro hdir
    obtain ⟨entries, hentries⟩ := view_eq_directory_iff.mp hdir
    rw [List.append_assoc] at hlocate
    rw [write, hlocate] at h
    simp only [bind, Except.bind, List.cons_append, List.nil_append, hentries] at h
    cases h
  have hdirs : ∀ q, t.view q = some none → t'.view q = some none := by
    intro q hq
    rw [hview, if_neg, hq]
    rintro rfl
    exact hfree hq
  refine ⟨hhome, ?_, ⟨?_, hpath, hartifact_le, hname_le⟩, fun q hq => ?_⟩
  · unfold Reaches
    rw [hhome]
    exact ⟨walk_of_directories hdirs hout.1, hdirs _ hout.2⟩
  · rw [hhome, hview]
    exact if_pos rfl
  · rw [hview]
    exact if_neg hq

end FileTree

/-- An artifact that can be stored: it has files, and they and it have names of entries. -/
structure Artifact.IsStorable (a : Artifact) : Prop where
  name : IsEntryName a.name
  names : ∀ file ∈ a.files, IsEntryName file.1
  nodup : (a.files.map Prod.fst).Nodup
  files : a.files ≠ []

/-! ### Trees with artifacts -/

namespace FileTree

variable {t t' t'' : FileTree} {out name : String} {q : Location}

/-- The places that the path to the artifacts passes. -/
def Passes (home : Location) (out : String) (q : Location) : Prop :=
  ∃ front, front <+: namesInto out ∧
    q = follow (if isAbsolute (joinPath out "") then [] else home) front

/-- At a place there is the same as before, or a new directory on the way to the artifacts. -/
def SameAt (t t' : FileTree) (out : String) (q : Location) : Prop :=
  t'.view q = t.view q ∨ t.view q = none ∧ t'.view q = some none ∧ Passes t.home out q

theorem SameAt.trans (h : t.SameAt t' out q) (h' : t'.SameAt t'' out q) (hhome : t'.home = t.home) :
    t.SameAt t'' out q := by
  rcases h' with hsame | ⟨hnone, hdir, hpasses⟩
  · unfold SameAt
    rw [hsame]
    exact h
  · rcases h with hsame | ⟨-, hdir', -⟩
    · exact .inr ⟨hsame ▸ hnone, hdir, hhome ▸ hpasses⟩
    · cases hnone.symm.trans hdir'

/-- What is there stays. -/
theorem SameAt.view_eq_some {shown : Option String} (h : t.SameAt t' out q)
    (hq : t.view q = some shown) : t'.view q = some shown := by
  rcases h with hsame | ⟨hnone, -⟩
  · rw [hsame, hq]
  · cases hnone.symm.trans hq

/-- The way to the artifacts does not turn back, or all of it is there. A way that turns back in a
directory that is missing leads nowhere until the directory is created. -/
def Leads (t : FileTree) (out : String) : Prop :=
  ".." ∉ namesInto out ∨ t.Reaches out

theorem sameAt_of_createDirs (hname : IsEntryName name)
    (h : t.createDirs (joinPath out name) = .ok t') (hq : q ≠ placeInto t.home out ++ [name]) :
    t.SameAt t' out q := by
  by_cases hsame : t'.view q = t.view q
  · exact .inl hsame
  · obtain ⟨hnone, hdir⟩ := ((extends_of_createDirs h).view q).resolve_left hsame
    refine .inr ⟨hnone, hdir, ?_⟩
    unfold createDirs origin at h
    split at h
    · cases h
    · obtain ⟨front, hfront, hplace⟩ := exists_front_of_createAlong h hsame
      rw [isAbsolute_joinPath] at hplace
      rw [pathNames_joinPath out hname.no_slash, List.prefix_concat_iff] at hfront
      rcases hfront with rfl | hfront
      · rw [follow_append, follow_entry _ hname] at hplace
        exact absurd hplace hq
      · exact ⟨front, hfront, hplace⟩

/-- A directory that is not found, but can be created, is not there. -/
theorem view_eq_none_of_at? (hname : IsEntryName name) (hleads : t.Leads out)
    (hat : t.at? (joinPath out name) = none) (h : t.createDirs (joinPath out name) = .ok t') :
    t.view (placeInto t.home out ++ [name]) = none := by
  by_contra hsome
  obtain ⟨shown, hshown⟩ := Option.ne_none_iff_exists'.mp hsome
  have hinto : t.view (placeInto t.home out) = some none := view_of_append hshown
  unfold createDirs origin at h
  split at h
  · cases h
  · rename_i hsize
    have hsizes := size_le_of_createAlong h
    rw [pathNames_joinPath out hname.no_slash] at hsizes
    have hwalk : t.walk (if isAbsolute (joinPath out "") then [] else t.home) (namesInto out) =
        .ok (placeInto t.home out) := by
      rcases hleads with hback | hreaches
      · exact walk_of_view hback (fun n hn => hsizes n (List.mem_append_left _ hn)) hinto
      · exact hreaches.1
    have hlocate : t.locate (joinPath out name) = .ok (placeInto t.home out ++ [name]) := by
      rw [locate_eq_ok_iff, pathNames_joinPath out hname.no_slash, isAbsolute_joinPath,
        walk_append_eq_ok_iff, walk_cons_eq_ok_iff, follow_entry _ hname]
      exact ⟨Nat.le_of_not_lt hsize, hwalk, hinto, hsizes name (by simp), rfl⟩
    rw [at?, hlocate] at hat
    exact hsome (view_eq_none_iff.mpr hat)

/-- The directory of an artifact has no other files than its own, and no directories but such as the
way to the artifacts passes. -/
def Only (t : FileTree) (out : String) (a : Artifact) : Prop :=
  ∀ rest shown, rest ≠ [] → t.view (placeInto t.home out ++ a.name :: rest) = some shown →
    (∃ file ∈ a.files, rest = [file.1] ∧ shown = some file.2) ∨
      shown = none ∧ Passes t.home out (placeInto t.home out ++ a.name :: rest)

/-- Artifacts come to a tree: they are there, with nothing else in their directories, and elsewhere
there is the same as before. -/
structure Gains (t : FileTree) (out : String) (artifacts : List Artifact) (t' : FileTree) :
    Prop where
  home : t'.home = t.home
  stores : ∀ a ∈ artifacts, ∀ file ∈ a.files, t'.Stores out a.name file
  only : t.Leads out → ∀ a ∈ artifacts, t'.Only out a
  same : ∀ q, (∀ a ∈ artifacts, ¬placeInto t.home out ++ [a.name] <+: q) → t.SameAt t' out q

theorem Gains.nil (t : FileTree) (out : String) : t.Gains out [] t :=
  ⟨rfl, nofun, fun _ _ h => absurd h List.not_mem_nil, fun _ _ => .inl rfl⟩

/-- The directories of artifacts with different names are apart. -/
theorem not_prefix_of_name_ne {a b : Artifact} (h : b.name ≠ a.name) (place rest : Location) :
    ¬place ++ [b.name] <+: place ++ a.name :: rest := by
  rw [List.prefix_append_right_inj]
  simpa using h

/-- One artifact comes after the other. -/
theorem Gains.cons {a : Artifact} {artifacts : List Artifact} (h : t.Gains out [a] t')
    (hreaches : t'.Reaches out) (h' : t'.Gains out artifacts t'')
    (hne : ∀ b ∈ artifacts, b.name ≠ a.name) : t.Gains out (a :: artifacts) t'' := by
  -- The other artifacts have other directories, so that of the first one stays as it is.
  have hkept : ∀ rest, t'.SameAt t'' out (placeInto t'.home out ++ a.name :: rest) := fun rest =>
    h'.same _ fun b hb => not_prefix_of_name_ne (hne b hb) _ rest
  refine ⟨h'.home.trans h.home, List.forall_mem_cons.mpr ⟨fun file hfile => ?_, h'.stores⟩,
    fun hleads => List.forall_mem_cons.mpr ⟨?_, h'.only (.inr hreaches)⟩, fun q hq => ?_⟩
  · obtain ⟨hshown, hpath, hartifact, hname⟩ := h.stores a (by simp) file hfile
    refine ⟨?_, hpath, hartifact, hname⟩
    rw [h'.home]
    exact (hkept [file.1]).view_eq_some hshown
  · intro rest shown hrest hshown
    rw [h'.home] at hshown ⊢
    rcases hkept rest with hsame | ⟨-, hdir, hpasses⟩
    · exact h.only hleads a (by simp) rest shown hrest (hsame ▸ hshown)
    · cases hdir.symm.trans hshown
      exact .inr ⟨rfl, hpasses⟩
  · rw [List.forall_mem_cons] at hq
    refine (h.same q (by simpa using hq.1)).trans (h'.same q ?_) h.home
    rw [h.home]
    exact hq.2

end FileTree

/-! ### Computations on a rehearsal -/

namespace Rehearsal

variable {α β : Type} {r r' r'' : Rehearsal}

/-- From `r` the computation ends well, with a value and another rehearsal. -/
def Ends (x : ExceptT Failure (StateM Rehearsal) α) (r : Rehearsal) (a : α)
    (r' : Rehearsal) : Prop :=
  x.run.run r = (.ok a, r')

theorem Ends.of_pure {a b : α} (h : Ends (pure a) r b r') : b = a ∧ r' = r := by
  cases h
  exact ⟨rfl, rfl⟩

theorem Ends.of_bind {x : ExceptT Failure (StateM Rehearsal) α}
    {f : α → ExceptT Failure (StateM Rehearsal) β} {b : β} (h : Ends (x >>= f) r b r'') :
    ∃ a r', Ends x r a r' ∧ Ends (f a) r' b r'' := by
  unfold Ends at h ⊢
  rw [ExceptT.run_bind, StateT.run_bind] at h
  generalize x.run.run r = result at h ⊢
  obtain ⟨e | a, r'⟩ := result
  · cases h
  · exact ⟨a, r', rfl, h⟩

/-- A change of the files that ends well. -/
theorem Ends.of_accessing {f : FileTree → Except OsError FileTree} {path : String} {a : Unit}
    (h : Ends (Host.accessing path (onTree f)) r a r') :
    ∃ t, f r.tree = .ok t ∧ r' = { r with tree := t } := by
  unfold Ends Host.accessing onTree at h
  simp only [ExceptT.run_mk, StateT.run_bind, StateT.run_modifyGet, StateT.run_pure, pure_bind] at h
  cases ht : f r.tree with
  | ok t =>
    rw [ht] at h
    cases h
    exact ⟨t, rfl, rfl⟩
  | error e =>
    rw [ht] at h
    cases h

theorem Ends.of_createDirs {path : String} {a : Unit}
    (h : Ends (Host.accessing path (host.createDirs path)) r a r') :
    ∃ t, r.tree.createDirs path = .ok t ∧ r' = { r with tree := t } :=
  Ends.of_accessing (f := (·.createDirs path)) h

theorem Ends.of_removeTree {path : String} {a : Unit}
    (h : Ends (Host.accessing path (host.removeTree path)) r a r') :
    ∃ t, r.tree.removeTree path = .ok t ∧ r' = { r with tree := t } :=
  Ends.of_accessing (f := (·.removeTree path)) h

theorem Ends.of_put {path text : String} {a : Unit} (h : Ends (host.put path text) r a r') :
    ∃ t, r.tree.write path text = .ok t ∧ r' = { r with tree := t } :=
  Ends.of_accessing (f := (·.write path text)) h

/-- Making an empty directory: what was inside is gone, and nothing else. -/
theorem Ends.of_freshDir {out name : String} {a : Unit} (hname : IsEntryName name)
    (h : Ends (host.freshDir (joinPath out name)) r a r') :
    ∃ t, r' = { r with tree := t } ∧ t.home = r.tree.home ∧
      (∀ q, ¬placeInto r.tree.home out ++ [name] <+: q → r.tree.SameAt t out q) ∧
      (r.tree.Leads out → ∀ rest shown, rest ≠ [] →
        t.view (placeInto r.tree.home out ++ name :: rest) = some shown →
          shown = none ∧ FileTree.Passes r.tree.home out
            (placeInto r.tree.home out ++ name :: rest)) := by
  obtain ⟨found, r₁, hfound, h⟩ := h.of_bind
  -- Between the two steps the directory is not there.
  obtain ⟨t₁, t, hcreate, rfl, hhome, hkept, hgone⟩ : ∃ t₁ t : FileTree,
      t₁.createDirs (joinPath out name) = .ok t ∧ r' = { r with tree := t } ∧
      t₁.home = r.tree.home ∧
      (∀ q, ¬placeInto r.tree.home out ++ [name] <+: q → t₁.view q = r.tree.view q) ∧
      (r.tree.Leads out → t₁.view (placeInto r.tree.home out ++ [name]) = none) := by
    cases hfound
    cases hfound : (r.tree.at? (joinPath out name)).isSome
    · rw [hfound] at h
      obtain ⟨t, ht, rfl⟩ := Ends.of_createDirs h
      exact ⟨r.tree, t, ht, rfl, rfl, fun _ _ => rfl, fun hleads =>
        FileTree.view_eq_none_of_at? hname hleads (by simpa using hfound) ht⟩
    · rw [hfound] at h
      obtain ⟨_, r₂, hremove, h⟩ := Ends.of_bind h
      obtain ⟨t₁, ht₁, rfl⟩ := hremove.of_removeTree
      obtain ⟨t, ht, rfl⟩ := Ends.of_createDirs h
      obtain ⟨hhome, hview⟩ := FileTree.view_of_removeTree (placeFrom_joinPath _ out hname) ht₁
      refine ⟨t₁, t, ht, rfl, hhome, fun q hq => ?_, fun _ => ?_⟩
      · rw [hview, if_neg hq]
      · rw [hview, if_pos List.prefix_rfl]
  have hsame := fun q => FileTree.sameAt_of_createDirs (q := q) hname hcreate
  rw [hhome] at hsame
  refine ⟨t, rfl, (FileTree.extends_of_createDirs hcreate).home.trans hhome, fun q hq => ?_,
    fun hleads rest shown hrest hshown => ?_⟩
  · have hsame := hsame q fun heq => hq (heq ▸ List.prefix_rfl)
    unfold FileTree.SameAt at hsame ⊢
    rwa [hkept q hq, hhome] at hsame
  · obtain ⟨first, rest, rfl⟩ := List.exists_cons_of_ne_nil hrest
    have hbelow : t₁.view (placeInto r.tree.home out ++ name :: first :: rest) = none := by
      rw [List.append_cons]
      exact Node.view_append_of_ne (by rw [← FileTree.view, hgone hleads]; simp) first rest
    rcases hsame (placeInto r.tree.home out ++ name :: first :: rest) (by simp) with
      heq | ⟨-, hdir, hpasses⟩
    · cases (heq.trans hbelow).symm.trans hshown
    · cases hdir.symm.trans hshown
      rw [hhome] at hpasses
      exact ⟨rfl, hpasses⟩

/-- Writing files to the directory of an artifact: in the end all of them are there, and nothing
else has changed. -/
theorem Ends.of_files {out artifact : String} {files : List (String × String)} {a : PUnit}
    (hartifact : IsEntryName artifact) (hnames : ∀ file ∈ files, IsEntryName file.1)
    (hnodup : (files.map Prod.fst).Nodup)
    (h : Ends (files.forM fun (name, text) => host.put (joinPath (joinPath out artifact) name) text)
      r a r') :
    ∃ t, r' = { r with tree := t } ∧ t.home = r.tree.home ∧ (files ≠ [] → t.Reaches out) ∧
      (∀ file ∈ files, t.Stores out artifact file) ∧
      ∀ q, (∀ file ∈ files, q ≠ placeInto r.tree.home out ++ [artifact, file.1]) →
        t.view q = r.tree.view q := by
  induction files generalizing r with
  | nil =>
    obtain ⟨-, rfl⟩ := h.of_pure
    exact ⟨_, rfl, rfl, fun h => absurd rfl h, nofun, fun _ _ => rfl⟩
  | cons file files ih =>
    obtain ⟨hname, hnames⟩ := List.forall_mem_cons.mp hnames
    rw [List.map_cons, List.nodup_cons] at hnodup
    obtain ⟨_, r₁, hput, h⟩ := h.of_bind
    obtain ⟨t₁, ht₁, rfl⟩ := hput.of_put
    obtain ⟨hhome₁, hreaches₁, hstores₁, hview₁⟩ := FileTree.stores_of_write hartifact hname ht₁
    obtain ⟨t, rfl, hhome, hreaches, hstores, hview⟩ := ih hnames hnodup.2 h
    dsimp only at hhome hview
    rw [hhome₁] at hview
    -- The files behind the first one have other names, so the first one stays.
    have hother : ∀ f ∈ files, placeInto r.tree.home out ++ [artifact, file.1] ≠
        placeInto r.tree.home out ++ [artifact, f.1] := by
      intro f hf heq
      have hfst : file.1 = f.1 := by simpa using heq
      exact hnodup.1 (hfst ▸ List.mem_map_of_mem hf)
    have hfirst : t.Stores out artifact file := by
      refine ⟨?_, hstores₁.path_le, hstores₁.artifact_le, hstores₁.name_le⟩
      rw [hhome, hhome₁, hview _ hother, ← hhome₁]
      exact hstores₁.view
    refine ⟨t, rfl, hhome.trans hhome₁, fun _ => ?_, List.forall_mem_cons.mpr ⟨hfirst, hstores⟩, ?_⟩
    · cases files with
      | nil =>
        obtain ⟨-, hr⟩ := Ends.of_pure h
        cases hr
        exact hreaches₁
      | cons f files => exact hreaches (List.cons_ne_nil _ _)
    · intro q hq
      rw [List.forall_mem_cons] at hq
      rw [hview q hq.2, hview₁ q hq.1]

/-- Writing an artifact: in the end it is there, and nothing outside its directory has changed. -/
theorem Ends.of_writeArtifact {out : String} {a : Artifact} {dir : ArtifactDir} (ha : a.IsStorable)
    (h : Ends (host.writeArtifact out a) r dir r') :
    dir = ⟨a.name, joinPath out a.name⟩ ∧
      ∃ t, r' = { r with tree := t } ∧ t.Reaches out ∧ r.tree.Gains out [a] t := by
  obtain ⟨_, r₁, hfresh, h⟩ := h.of_bind
  obtain ⟨_, r₂, hfiles, h⟩ := h.of_bind
  obtain ⟨rfl, rfl⟩ := h.of_pure
  obtain ⟨t₁, rfl, hhome₁, hsame₁, hgone₁⟩ := hfresh.of_freshDir ha.name
  obtain ⟨t, rfl, hhome, hreaches, hstores, hview⟩ := hfiles.of_files ha.name ha.names ha.nodup
  dsimp only at hhome hview
  rw [hhome₁] at hview
  have hhome := hhome.trans hhome₁
  refine ⟨rfl, t, rfl, hreaches ha.files, hhome, ?_, fun hleads => ?_, fun q hq => ?_⟩
  · rw [List.forall_mem_singleton]
    exact hstores
  · rw [List.forall_mem_singleton]
    intro rest shown hrest hshown
    by_cases hfile : ∃ file ∈ a.files, rest = [file.1]
    · obtain ⟨file, hfile, rfl⟩ := hfile
      exact .inl ⟨file, hfile, rfl, Option.some.inj (hshown.symm.trans (hstores file hfile).view)⟩
    · rw [hhome] at hshown ⊢
      rw [hview _ fun file hmem heq => hfile ⟨file, hmem, by simpa using heq⟩] at hshown
      exact .inr (hgone₁ hleads rest shown hrest hshown)
  · rw [List.forall_mem_singleton] at hq
    -- No file of the artifact is outside its directory.
    have hother : ∀ file ∈ a.files, q ≠ placeInto r.tree.home out ++ [a.name, file.1] := by
      intro file _ heq
      exact hq ⟨[file.1], by rw [heq, List.append_assoc]; rfl⟩
    unfold FileTree.SameAt
    rw [hview q hother]
    exact hsame₁ q hq

/-- Writing artifacts: in the end all of them are there. -/
theorem Ends.of_writeArtifacts {out : String} {artifacts : List Artifact} {dirs : List ArtifactDir}
    (hstorable : ∀ a ∈ artifacts, a.IsStorable) (hnodup : (artifacts.map Artifact.name).Nodup)
    (h : Ends (host.writeArtifacts out artifacts) r dirs r') :
    dirs = artifacts.map (fun a => ⟨a.name, joinPath out a.name⟩) ∧
      ∃ t, r' = { r with tree := t } ∧ (artifacts ≠ [] → t.Reaches out) ∧
        r.tree.Gains out artifacts t := by
  induction artifacts generalizing r dirs with
  | nil =>
    obtain ⟨rfl, rfl⟩ := h.of_pure
    exact ⟨rfl, _, rfl, fun h => absurd rfl h, .nil _ _⟩
  | cons a artifacts ih =>
    obtain ⟨ha, hstorable⟩ := List.forall_mem_cons.mp hstorable
    rw [List.map_cons, List.nodup_cons] at hnodup
    rw [Host.writeArtifacts, List.mapM_cons] at h
    obtain ⟨_, r₁, hwrite, h⟩ := h.of_bind
    obtain ⟨more, r₂, hmore, h⟩ := h.of_bind
    obtain ⟨rfl, rfl⟩ := h.of_pure
    obtain ⟨rfl, t₁, rfl, hreaches₁, hgains₁⟩ := hwrite.of_writeArtifact ha
    obtain ⟨rfl, t, rfl, hreaches, hgains⟩ := ih hstorable hnodup.2 hmore
    refine ⟨rfl, t, rfl, fun _ => ?_, hgains₁.cons hreaches₁ hgains fun b hb heq =>
      hnodup.1 (heq ▸ List.mem_map_of_mem hb)⟩
    cases artifacts with
    | nil =>
      obtain ⟨-, hr⟩ := Ends.of_pure hmore
      cases hr
      exact hreaches₁
    | cons b artifacts => exact hreaches (List.cons_ne_nil _ _)

/-- Behind a writing of artifacts, each file of each of them is read at its path. -/
theorem Ends.read_of_writeArtifacts {out : String} {artifacts : List Artifact}
    {dirs : List ArtifactDir} (hstorable : ∀ a ∈ artifacts, a.IsStorable)
    (hnodup : (artifacts.map Artifact.name).Nodup)
    (h : Ends (host.writeArtifacts out artifacts) r dirs r') :
    ∀ a ∈ artifacts, ∀ file ∈ a.files,
      r'.tree.read (joinPath (joinPath out a.name) file.1) = .ok file.2 := by
  obtain ⟨-, t, rfl, hreaches, hgains⟩ := h.of_writeArtifacts hstorable hnodup
  intro a ha file hfile
  exact (hgains.stores a ha file hfile).read (hreaches (List.ne_nil_of_mem ha))
    (hstorable a ha).name
    ((hstorable a ha).names file hfile)

end Rehearsal

end ServiceSplit
