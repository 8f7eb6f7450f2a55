import ServiceSplit.Proofs.Controller.Routes
import ServiceSplit.Proofs.Service.Fields

/-!
# Names that a compilation makes

The handlers of a controller and the fields of a request get their names one after the other. A name
that has been given out is taken from then on, also where it looks like a numbered form of a later
one.
-/

namespace ServiceSplit

/-- Handlers have different names, and none of those that are taken. -/
theorem nameHandlers_fresh (taken : List String) (ss : List Slot) :
    ((nameHandlers taken ss).map Route.handler).Nodup ∧
      ∀ r ∈ nameHandlers taken ss, r.handler ∉ taken := by
  induction ss generalizing taken with
  | nil => exact ⟨List.nodup_nil, nofun⟩
  | cons s ss ih =>
    have hfresh := Text.freshName_notMem (s.endpoint ++ "Handler") taken
    obtain ⟨hnodup, hfree⟩ := ih (Text.freshName (s.endpoint ++ "Handler") taken :: taken)
    rw [nameHandlers, List.map_cons, List.nodup_cons]
    refine ⟨⟨?_, hnodup⟩, ?_⟩
    · rw [List.mem_map]
      rintro ⟨r, hr, heq⟩
      exact hfree r hr (heq ▸ List.mem_cons_self)
    · rintro r (_ | ⟨_, hr⟩)
      · exact hfresh
      · exact fun hmem => hfree r hr (List.mem_cons_of_mem _ hmem)

/-- The search for a fresh name ends within as many numbers as names are taken and one, however far
it may go: it gives the base name if that is free, and otherwise the base name with the least free
number. So each slot has a handler, no two of them have one name, and none has that of a declaration
of the file; and each parameter in a structured request has a field with a name of its own. -/
theorem freshNames_distinct :
    (∀ (base : String) (taken : List String),
      Text.freshName base taken ∉ taken ∧
      (base ∉ taken → Text.freshName base taken = base) ∧
      (base ∈ taken → ∃ n ≤ taken.length + 2, IsLeast (Text.freeNumbers base taken) n ∧
        Text.freshName base taken = base ++ Text.decimal n ∧
        ∀ fuel ≥ taken.length, Text.freshNumbered base taken fuel 2 = base ++ Text.decimal n)) ∧
    (∀ (file : File) (slots : List Slot),
      let routes := nameHandlers (file.decls.flatMap Decl.packageNames) slots
      routes.map (fun r => (⟨r.endpoint, r.elem⟩ : Slot)) = slots ∧
      (routes.map Route.handler).Nodup ∧
      ∀ r ∈ routes, ∀ d ∈ file.decls, r.handler ∉ d.packageNames) ∧
    ∀ (ps : List EntryParam) (fields : List PayloadField), Payload.ofParams ps = .json fields →
      fields.map PayloadField.entryParam = ps ∧ (fields.map PayloadField.field).Nodup := by
  refine ⟨fun base taken => ⟨Text.freshName_notMem base taken, Text.freshName_of_notMem, ?_⟩,
    fun file slots => ⟨nameHandlers_slots _ slots, ?_⟩, fun ps fields h => ?_⟩
  · intro hmem
    obtain ⟨n, hle, hn⟩ := Text.exists_isLeast_freeNumbers base taken
    refine ⟨n, hle, hn, ?_, fun fuel hfuel => Text.freshNumbered_of_isLeast hn (by omega)⟩
    rw [Text.freshName_of_mem hmem, Text.freshNumbered_of_isLeast hn hle]
  · obtain ⟨hnodup, hfree⟩ := nameHandlers_fresh (file.decls.flatMap Decl.packageNames) slots
    exact ⟨hnodup, fun r hr d hd hmem => hfree r hr (List.mem_flatMap.mpr ⟨d, hd, hmem⟩)⟩
  · exact ⟨Payload.map_entryParam_of_ofParams h, Payload.nodup_field_of_ofParams h⟩

/-- Two parameters that differ only in the case of a letter have fields with different names. -/
theorem sameLetter_distinct :
    ∃ fields, Payload.ofParams [⟨"a", .name none "int" []⟩, ⟨"A", .name none "int" []⟩] =
        .json fields ∧
      fields.map PayloadField.field = ["A", "A2"] ∧ (fields.map PayloadField.field).Nodup := by
  refine ⟨_, rfl, rfl, ?_⟩
  exact (freshNames_distinct.2.2
    [⟨"a", .name none "int" []⟩, ⟨"A", .name none "int" []⟩] _ rfl).2

end ServiceSplit
