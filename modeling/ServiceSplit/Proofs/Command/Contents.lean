import ServiceSplit.Proofs.Command.Course

/-!
# Contents of the written directories

A program is written as one directory for each service and one for the controller. What was in these
directories before is gone, and nothing outside them changes, as long as the way to them can be
followed before the first of them is made.
-/

namespace ServiceSplit

/-- The names of the files of an artifact. -/
theorem Compilation.map_fst_files {config : Config} {c : Compilation} :
    ∀ a ∈ c.artifacts config, a.files.map Prod.fst =
      ["main.go", "kompile_runtime.go", "go.mod", "Dockerfile", "deployment.yml"] := by
  intro a ha
  rcases List.mem_append.mp ha with ha | ha
  · obtain ⟨s, -, rfl⟩ := List.mem_map.mp ha
    rfl
  · rw [List.mem_singleton.mp ha]
    rfl

/-- A file in the directory of an artifact stays as it is when another artifact is written. -/
theorem FileTree.Gains.file_iff {t t' : FileTree} {out : String} {a b : Artifact}
    (h : t.Gains out [a] t') (hne : a.name ≠ b.name) (rest : Location) (text : String) :
    t'.view (placeInto t.home out ++ b.name :: rest) = some (some text) ↔
      t.view (placeInto t.home out ++ b.name :: rest) = some (some text) := by
  have hsame : t.SameAt t' out (placeInto t.home out ++ b.name :: rest) := by
    refine h.same _ ?_
    rw [List.forall_mem_singleton]
    exact FileTree.not_prefix_of_name_ne hne _ rest
  rcases hsame with hsame | ⟨hnone, hdir, -⟩
  · rw [hsame]
  · rw [hnone, hdir]
    simp

/-- A program that is compiled and written has one directory for each service, in order, and one for
the controller. Each of them holds its five files and nothing else if the way to them could be
followed before. All else is as it was, and each step of the writing leaves the files of the other
artifacts as they are. -/
theorem Program.written_exactly {path source out : String} {program : Program} {config : Config}
    {c : Compilation} {r r' : Rehearsal} {dirs : List ArtifactDir}
    (hload : Program.load path source = .ok program) (hcompile : program.compile config = .ok c)
    (h : Rehearsal.Ends (Rehearsal.host.writeArtifacts out (c.artifacts config)) r dirs r')
    (hleads : r.tree.Leads out) :
    dirs = (c.services.map Service.name ++ ["controller"]).map
        (fun name => ⟨name, joinPath out name⟩) ∧
      (c.artifacts config).map Artifact.name = c.services.map Service.name ++ ["controller"] ∧
      (∀ a ∈ c.artifacts config, a.files.map Prod.fst =
        ["main.go", "kompile_runtime.go", "go.mod", "Dockerfile", "deployment.yml"]) ∧
      r' = { r with tree := r'.tree } ∧ r.tree.Gains out (c.artifacts config) r'.tree ∧
      (∀ a ∈ c.artifacts config, r'.tree.Only out a) ∧
      ∀ a ∈ c.artifacts config, ∀ b ∈ c.artifacts config, a ≠ b → ∀ s dir s',
        Rehearsal.Ends (Rehearsal.host.writeArtifact out a) s dir s' → ∀ rest text,
          s'.tree.view (placeInto s.tree.home out ++ b.name :: rest) = some (some text) ↔
            s.tree.view (placeInto s.tree.home out ++ b.name :: rest) = some (some text) := by
  have hstorable := Program.isStorable_artifacts hload hcompile
  have hnames : (c.artifacts config).map Artifact.name =
      c.services.map Service.name ++ ["controller"] := Compilation.artifacts_map_name config c
  have hnodup : ((c.artifacts config).map Artifact.name).Nodup := by
    rw [Compilation.artifacts_map_name]
    exact Program.nodup_artifactNames hcompile
  obtain ⟨rfl, t, rfl, -, hgains⟩ := h.of_writeArtifacts hstorable hnodup
  refine ⟨?_, hnames, Compilation.map_fst_files, rfl, hgains, hgains.only hleads, ?_⟩
  · rw [← hnames, List.map_map]
    rfl
  · intro a ha b hb hne s dir s' hwrite
    obtain ⟨-, t', rfl, -, hgains'⟩ := hwrite.of_writeArtifact (hstorable a ha)
    exact hgains'.file_iff fun heq => hne (List.inj_on_of_nodup_map hnodup ha hb heq)

theorem twoTexts_written_exactly : ∃ program c dirs r',
    Program.load "main.go" oneLaunch = .ok program ∧ program.compile {} = .ok c ∧
      Rehearsal.Ends (Rehearsal.host.writeArtifacts "output" (c.artifacts {})) twoTexts dirs r' ∧
      dirs = [⟨"f", "output/f"⟩, ⟨"controller", "output/controller"⟩] ∧
      r'.tree.view ["output", "controller", "stale.txt"] = none ∧
      r'.tree.view ["main.go"] = some (some oneLaunch) := by
  obtain ⟨program, c, hload, hcompile, hnames⟩ := exists_compile_oneLaunch
  obtain ⟨t, hends⟩ := twoTexts_writes hnames
  obtain ⟨-, -, hfiles, -, hgains, honly, -⟩ :=
    Program.written_exactly hload hcompile hends (.inl (by decide))
  refine ⟨program, c, _, _, hload, hcompile, hends, rfl, ?_, ?_⟩
  · by_contra hsome
    obtain ⟨shown, hshown⟩ := Option.ne_none_iff_exists'.mp hsome
    have hplace : placeInto t.home "output" = ["output"] := by
      rw [hgains.home]
      decide
    have hcontroller : c.controller.artifact {} ∈ c.artifacts {} := by simp [Compilation.artifacts]
    have honly := honly _ hcontroller ["stale.txt"] shown (by simp)
    rw [hplace] at honly
    rcases honly hshown with ⟨file, hfile, hname, -⟩ | ⟨-, front, hfront, hpasses⟩
    · have hmem := List.mem_map_of_mem (f := Prod.fst) hfile
      rw [hfiles _ hcontroller, ← List.singleton_inj.mp hname] at hmem
      revert hmem
      decide
    · -- The way to the artifacts is one name long.
      have hnames : namesInto "output" = ["output"] := by decide
      rw [hnames, List.prefix_cons_iff] at hfront
      rw [hgains.home] at hpasses
      change ["output", "controller", "stale.txt"] = _ at hpasses
      rcases hfront with rfl | ⟨rest, rfl, hrest⟩
      · revert hpasses
        decide
      · rw [List.prefix_nil.mp hrest] at hpasses
        revert hpasses
        decide
  · refine (hgains.same ["main.go"] fun a _ => ?_).view_eq_some rfl
    have hplace : placeInto twoTexts.tree.home "output" = ["output"] := by decide
    rw [hplace]
    simp

/-- What a program and its writing to a directory give. -/
private def runOnTwoTexts (source out : String) : Option (Bool × Option (Option String)) :=
  (Program.load "main.go" source).toOption.bind fun program =>
    (program.compile {}).toOption.map fun c =>
      let (result, r') := (Rehearsal.host.writeArtifacts out (c.artifacts {})).run.run twoTexts
      (result.isOk, r'.tree.view ["output", "controller", "stale.txt"])

private theorem exists_ends_of_runOnTwoTexts {source out : String} {shown : Option (Option String)}
    (h : runOnTwoTexts source out = some (true, shown)) : ∃ program c dirs r',
      Program.load "main.go" source = .ok program ∧ program.compile {} = .ok c ∧
        Rehearsal.Ends (Rehearsal.host.writeArtifacts out (c.artifacts {})) twoTexts dirs r' ∧
        r'.tree.view ["output", "controller", "stale.txt"] = shown := by
  unfold runOnTwoTexts at h
  cases hload : Program.load "main.go" source with
  | error e => simp [hload, Except.toOption] at h
  | ok program =>
    cases hcompile : program.compile {} with
    | error e => simp [hload, hcompile, Except.toOption] at h
    | ok c =>
      cases hwrite : (Rehearsal.host.writeArtifacts out (c.artifacts {})).run.run twoTexts with
      | mk result r' =>
        simp only [hload, hcompile, hwrite, Except.toOption, Option.bind_some, Option.map_some,
          Option.some.injEq, Prod.mk.injEq] at h
        cases result with
        | error e => cases h.1
        | ok dirs => exact ⟨program, c, dirs, r', rfl, hcompile, hwrite, h.2⟩

/-- On a way that turns back in a directory that is missing, the old file stays. -/
theorem twoTexts_keeps_stale : ∃ source program c dirs r',
    Program.load "main.go" source = .ok program ∧ program.compile {} = .ok c ∧
      Rehearsal.Ends (Rehearsal.host.writeArtifacts "missing/../output" (c.artifacts {})) twoTexts
        dirs r' ∧
      r'.tree.view ["output", "controller", "stale.txt"] = some (some "old") :=
  ⟨"package main\n\nfunc main() \x7b\n\x7d\n", exists_ends_of_runOnTwoTexts (by decide +kernel)⟩

end ServiceSplit
