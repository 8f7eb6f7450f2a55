import Mathlib.Data.String.Basic
import ServiceSplit.Controller.Route

/-!
# The routes of a controller

A controller has one route for each endpoint of its launches. The routes stand in the order of their
endpoints, and the type of a route is that of the first channel with its endpoint.
-/

namespace ServiceSplit

/-- The slots are in the strict order of their endpoints. -/
def Slot.Sorted (ss : List Slot) : Prop :=
  ss.Pairwise fun s t => s.endpoint < t.endpoint

namespace Slot

/-- An endpoint that comes before that of the first slot is none of theirs. -/
private theorem Sorted.ne_of_lt {slot s : Slot} {ss : List Slot} (h : Sorted (s :: ss))
    (hlt : slot.endpoint < s.endpoint) : ∀ t ∈ s :: ss, t.endpoint ≠ slot.endpoint := by
  intro t ht
  rcases List.mem_cons.mp ht with rfl | ht
  · exact hlt.ne'
  · exact (hlt.trans (List.rel_of_pairwise_cons h ht)).ne'

/-- A slot is inserted if its endpoint is new. -/
theorem mem_insert_iff {slot t : Slot} {ss : List Slot} (h : Sorted ss) :
    t ∈ slot.insert ss ↔ t ∈ ss ∨ t = slot ∧ ∀ s ∈ ss, s.endpoint ≠ slot.endpoint := by
  induction ss with
  | nil => simp [insert]
  | cons s ss ih =>
    rw [insert]
    split_ifs with hlt heq
    · rw [List.mem_cons, and_iff_left (h.ne_of_lt hlt), or_comm]
    · simp [heq]
    · have hne : s.endpoint ≠ slot.endpoint := fun h => heq h.symm
      simp [ih h.of_cons, hne, or_assoc]

/-- Inserting a slot keeps the order. -/
theorem Sorted.insert {ss : List Slot} (h : Sorted ss) (slot : Slot) : Sorted (slot.insert ss) := by
  induction ss with
  | nil => exact List.pairwise_singleton _ _
  | cons s ss ih =>
    rw [Slot.insert]
    split_ifs with hlt heq
    · refine List.Pairwise.cons (fun t ht => ?_) h
      rcases List.mem_cons.mp ht with rfl | ht
      · exact hlt
      · exact hlt.trans (List.rel_of_pairwise_cons h ht)
    · exact h
    · have hlt : s.endpoint < slot.endpoint := lt_of_le_of_ne (not_lt.mp hlt) fun h => heq h.symm
      refine List.Pairwise.cons (fun t ht => ?_) (ih h.of_cons)
      rcases (mem_insert_iff h.of_cons).mp ht with ht | ⟨rfl, -⟩
      · exact List.rel_of_pairwise_cons h ht
      · exact hlt

theorem Sorted.foldl_insert {before : List Slot} (h : Sorted before) (ss : List Slot) :
    Sorted (ss.foldl (fun ss s => s.insert ss) before) := by
  induction ss generalizing before with
  | nil => exact h
  | cons s ss ih => exact ih (h.insert s)

/-- Of several slots with one endpoint the first is inserted. -/
theorem mem_foldl_insert_iff {before ss : List Slot} {t : Slot} (h : Sorted before) :
    t ∈ ss.foldl (fun ss s => s.insert ss) before ↔
      t ∈ before ∨ (∀ s ∈ before, s.endpoint ≠ t.endpoint) ∧
        ss.find? (·.endpoint == t.endpoint) = some t := by
  induction ss generalizing before with
  | nil => simp
  | cons s ss ih =>
    rw [List.foldl_cons, ih (h.insert s), mem_insert_iff h, List.find?_cons]
    by_cases hst : s.endpoint = t.endpoint
    · have hkept : (∀ r ∈ s.insert before, r.endpoint ≠ t.endpoint) ↔ False := by
        refine iff_false_intro fun hall => ?_
        by_cases hnew : ∀ r ∈ before, r.endpoint ≠ s.endpoint
        · exact hall s ((mem_insert_iff h).mpr (Or.inr ⟨rfl, hnew⟩)) hst
        · push Not at hnew
          obtain ⟨r, hr, hrs⟩ := hnew
          exact hall r ((mem_insert_iff h).mpr (Or.inl hr)) (hrs.trans hst)
      simp only [hkept, hst, beq_self_eq_true, Option.some.injEq, false_and, or_false, eq_comm,
        and_comm]
    · have hts : t ≠ s := fun h => hst (h ▸ rfl)
      have hkept : (∀ r ∈ s.insert before, r.endpoint ≠ t.endpoint) ↔
          ∀ r ∈ before, r.endpoint ≠ t.endpoint := by
        refine ⟨fun hall r hr => hall r ((mem_insert_iff h).mpr (Or.inl hr)), fun hall r hr => ?_⟩
        rcases (mem_insert_iff h).mp hr with hr | ⟨rfl, -⟩
        · exact hall r hr
        · exact hst
      have hbeq : (s.endpoint == t.endpoint) = false := beq_false_of_ne hst
      simp only [hkept, hbeq, hts, false_and, or_false]

end Slot

namespace Launches

/-- The slots for the channels of all launches, in the order of the text. -/
def channelSlots (ls : Launches) : List Slot :=
  ls.sites.flatMap fun l => l.channels.map ChannelArg.slot

theorem slots_sorted (ls : Launches) : Slot.Sorted ls.slots :=
  Slot.Sorted.foldl_insert List.Pairwise.nil _

/-- There is one slot for each endpoint, the first one with it. -/
theorem mem_slots_iff {ls : Launches} {t : Slot} :
    t ∈ ls.slots ↔ ls.channelSlots.find? (·.endpoint == t.endpoint) = some t := by
  rw [slots, Slot.mem_foldl_insert_iff List.Pairwise.nil]
  simp [channelSlots]

theorem exists_mem_slots_iff {ls : Launches} {e : String} :
    (∃ t ∈ ls.slots, t.endpoint = e) ↔ ∃ t ∈ ls.channelSlots, t.endpoint = e := by
  constructor
  · rintro ⟨t, ht, rfl⟩
    exact ⟨t, List.mem_of_find?_eq_some (mem_slots_iff.mp ht), rfl⟩
  · rintro ⟨t, ht, rfl⟩
    obtain ⟨s, hs⟩ : ∃ s, ls.channelSlots.find? (·.endpoint == t.endpoint) = some s :=
      Option.isSome_iff_exists.mp (List.find?_isSome.mpr ⟨t, ht, beq_self_eq_true t.endpoint⟩)
    have hst : s.endpoint = t.endpoint := by simpa using List.find?_some hs
    exact ⟨s, mem_slots_iff.mpr (by rwa [hst]), hst⟩

end Launches

/-! ### Handlers -/

/-- Naming handlers leaves endpoints and types alone. -/
theorem nameHandlers_slots (taken : List String) (ss : List Slot) :
    (nameHandlers taken ss).map (fun r => (⟨r.endpoint, r.elem⟩ : Slot)) = ss := by
  induction ss generalizing taken with
  | nil => rfl
  | cons s ss ih => rw [nameHandlers, List.map_cons, ih]

/-- The text for a single route whose values are no errors. -/
theorem Route.text_singleton {endpoint handler elem : String} {ty : TypeExpr}
    (herror : ty.isNamed "error" = false) (helem : Template.type controllerName ty = .ok elem) :
    Route.text [⟨endpoint, ty, handler⟩] = .ok (Text.lines
      ["var " ++ routesName ++ " = map[string]any\x7b",
        "\t" ++ Text.quote endpoint ++ ": make(chan " ++ elem ++ ", 1),",
        "\x7d",
        "",
        "func " ++ handler ++ "(w http.ResponseWriter, r *http.Request) \x7b",
        "\tvar " ++ ("value " ++ elem),
        "\tif err := json.NewDecoder(r.Body).Decode(&" ++ "value" ++ "); err != nil \x7b",
        "\t\thttp.Error(w, \"could not decode callback: \"+err.Error(), http.StatusBadRequest)",
        "\t\treturn",
        "\t\x7d",
        "\t" ++ routesName ++ "[" ++ Text.quote endpoint ++ "].(chan " ++ elem ++ ") <- value",
        "\tw.WriteHeader(http.StatusOK)",
        "\x7d",
        "",
        "func init() \x7b",
        "\thttp.HandleFunc(" ++ Text.quote ("/" ++ endpoint) ++ ", " ++ handler ++ ")",
        "\tgo kompileListen()",
        "\x7d"]) := by
  simp only [Route.text, List.mapM_cons, Route.tableLine, Route.handlerLines, Route.elemText,
    Route.isError, herror, helem]
  rfl

end ServiceSplit
