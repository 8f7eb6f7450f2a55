import ServiceSplit.Proofs.Artifact.Identity

/-!
# Labels of workloads

A platform takes labels of letters in lower case, digits and hyphens, of at most 63 characters, with
no hyphen at either end. The name of a workload is cut to that length after the hyphens at its ends
are removed, so it is a label unless the cut leaves a hyphen at the end.
-/

namespace ServiceSplit

/-- A label as DNS has it. -/
structure IsDnsLabel (s : String) : Prop where
  length : 1 ≤ s.length ∧ s.length ≤ 63
  chars : ∀ c ∈ s.toList, ('a' ≤ c ∧ c ≤ 'z') ∨ ('0' ≤ c ∧ c ≤ '9') ∨ c = '-'
  first : s.toList.head? ≠ some '-'
  last : s.toList.getLast? ≠ some '-'

private theorem of_mem_hyphenated {c : Char} {cs : List Char} (h : c ∈ hyphenated cs) :
    ('a' ≤ c ∧ c ≤ 'z') ∨ ('0' ≤ c ∧ c ≤ '9') ∨ c = '-' := by
  have hlower : ∀ {d : Char}, Text.isAsciiWord d = true →
      ('a' ≤ d.toLower ∧ d.toLower ≤ 'z') ∨ ('0' ≤ d.toLower ∧ d.toLower ≤ '9') := by
    intro d
    induction d using Text.charCases with
    | ascii => decide +revert
    | other d hword hlower hupper => simp [hword]
  induction cs with
  | nil => cases h
  | cons d ds ih =>
    rw [hyphenated] at h
    grind

private theorem trimHyphens_subset (cs : List Char) : trimHyphens cs ⊆ cs := by
  unfold trimHyphens
  intro c hc
  rw [List.mem_reverse] at hc
  have hc := (List.dropWhile_sublist _).subset hc
  rw [List.mem_reverse] at hc
  exact (List.dropWhile_sublist _).subset hc

/-- The name of a workload is a label exactly if there is no hyphen where its artifact's name is
cut. -/
theorem isDnsLabel_workloadName_iff (artifact : String) :
    IsDnsLabel (workloadName artifact) ↔
      (trimHyphens (hyphenated artifact.toList))[maxLabelLength - 1]? ≠ some '-' := by
  obtain ⟨hhead, hlast, -⟩ := ends_intercalate fun _ => @of_mem_labelWords artifact.toList _
  rw [← trimHyphens_hyphenated] at hhead hlast
  have hchars : ∀ c ∈ trimHyphens (hyphenated artifact.toList), _ := fun c hc =>
    of_mem_hyphenated (trimHyphens_subset _ hc)
  unfold workloadName
  cases hcore : trimHyphens (hyphenated artifact.toList) with
  | nil =>
    refine iff_of_true ⟨by decide, ?_, by decide, by decide⟩ (by simp)
    simp
  | cons c cs =>
    rw [hcore] at hhead hlast hchars
    -- The cut is the only place where a hyphen can come to an end of the name.
    have hcut : ((c :: cs).take maxLabelLength).getLast? ≠ some '-' ↔
        (c :: cs)[maxLabelLength - 1]? ≠ some '-' := by
      rw [List.getLast?_take, if_neg (by decide)]
      cases h : (c :: cs)[maxLabelLength - 1]? with
      | none => simpa using hlast
      | some d => simp
    refine ⟨fun h => hcut.mp (by simpa using h.last), fun h => ⟨?_, ?_, ?_, ?_⟩⟩
    · simp [maxLabelLength]
      omega
    · intro d hd
      rw [String.toList_ofList] at hd
      exact hchars d (List.mem_of_mem_take hd)
    · simpa [maxLabelLength] using hhead
    · simpa using hcut.mpr h

/-- The cut falls behind the hyphen that stands for the underscore. -/
theorem longName_not_isDnsLabel :
    ¬ IsDnsLabel (workloadName (String.ofList (List.replicate 62 'a' ++ ['_', 'b']))) := by
  intro h
  have hlast := h.last
  rw [workloadName, String.toList_ofList] at hlast
  revert hlast
  decide

end ServiceSplit
