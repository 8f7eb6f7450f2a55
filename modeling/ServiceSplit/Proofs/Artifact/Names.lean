import ServiceSplit.Artifact.Basic
import ServiceSplit.Proofs.Compilation.Agreement

/-!
# Names of artifacts

The artifacts of a compilation are called by the functions that became services, and the controller
by a name that no such function may have.
-/

namespace ServiceSplit

/-- The names of the artifacts of a compilation, the controller's last. -/
def Compilation.artifactNames (c : Compilation) : List String :=
  c.services.map Service.name ++ [controllerName]

theorem Compilation.artifacts_map_name (config : Config) (c : Compilation) :
    (c.artifacts config).map Artifact.name = c.artifactNames := by
  simp [Compilation.artifacts, Compilation.artifactNames, Service.artifact, Controller.artifact]

theorem FirstOccurrences.nodup {α : Type} [DecidableEq α] {xs ys : List α}
    (h : FirstOccurrences xs ys) : ys.Nodup :=
  h.ordered.imp fun {_ _} hlt heq => by simp [heq] at hlt

namespace Program

variable {program : Program} {config : Config} {c : Compilation}

/-- The function of a service is one that may become a service. -/
theorem exists_function_of_mem_services (h : program.compile config = .ok c) {s : Service}
    (hs : s ∈ c.services) :
    ∃ f ∈ program.functions, f.name = s.name ∧ f.refusal = none := by
  have hname : s.name ∈ c.services.map Service.name := List.mem_map_of_mem hs
  rw [(Program.compile_services h).mem_iff] at hname
  obtain ⟨l, hl, hcallee⟩ := List.mem_map.mp hname
  obtain ⟨-, f, hf, hof⟩ := Program.exists_of_mem_sites hl
  exact ⟨f, List.mem_of_find?_eq_some hf, hof.callee.symm.trans hcallee, hof.allowed⟩

theorem name_ne_controllerName (h : program.compile config = .ok c) {s : Service}
    (hs : s ∈ c.services) : s.name ≠ controllerName := by
  obtain ⟨f, -, hname, hallowed⟩ := exists_function_of_mem_services h hs
  unfold Function.refusal at hallowed
  split at hallowed
  · cases hallowed
  · rename_i hreserved
    exact fun heq => hreserved (.inl (hname.trans heq))

/-- No two artifacts have the same name. -/
theorem nodup_artifactNames (h : program.compile config = .ok c) : c.artifactNames.Nodup := by
  refine List.nodup_append.mpr ⟨(Program.compile_services h).nodup, List.pairwise_singleton _ _, ?_⟩
  rintro name hname _ hcontroller rfl
  obtain ⟨s, hs, rfl⟩ := List.mem_map.mp hname
  exact name_ne_controllerName h hs (List.mem_singleton.mp hcontroller)

end Program

end ServiceSplit
