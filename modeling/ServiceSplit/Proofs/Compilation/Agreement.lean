import ServiceSplit.Proofs.Compilation.Evaluation
import ServiceSplit.Proofs.Controller.Routes

/-!
# The parts of a compilation fit together

The launches of a program, the services of the launched functions and the routes of the controller
are found independently of each other, from the parameters of the launched functions. They agree: a
service takes what a launch sends, and each place where a service answers is a route.
-/

namespace ServiceSplit

/-- The elements of `ys` are those of `xs`, each once, in the order in which they first occur. -/
structure FirstOccurrences {α : Type} [DecidableEq α] (xs ys : List α) : Prop where
  mem_iff : ∀ a, a ∈ ys ↔ a ∈ xs
  ordered : ys.Pairwise fun a b => xs.idxOf a < xs.idxOf b

/-- What is left of a list keeps the order of first occurrences. -/
private theorem idxOf_lt_of_filter {α : Type} [DecidableEq α] (p : α → Bool) {a b : α} {xs : List α}
    (ha : p a = true) (hb : p b = true) (h : (xs.filter p).idxOf a < (xs.filter p).idxOf b) :
    xs.idxOf a < xs.idxOf b := by
  induction xs with
  | nil => simp at h
  | cons x xs ih =>
    by_cases hp : p x = true
    · rw [List.filter_cons_of_pos hp] at h
      simp only [List.idxOf_cons, cond_eq_ite, beq_iff_eq] at h ⊢
      split_ifs at h ⊢ <;> omega
    · rw [List.filter_cons_of_neg hp] at h
      have hxa : x ≠ a := fun heq => hp (heq ▸ ha)
      have hxb : x ≠ b := fun heq => hp (heq ▸ hb)
      rw [List.idxOf_cons_ne xs hxa, List.idxOf_cons_ne xs hxb]
      exact Nat.succ_lt_succ (ih h)

theorem firstOccurrences_eraseDups {α : Type} [DecidableEq α] (xs : List α) :
    FirstOccurrences xs xs.eraseDups := by
  refine ⟨fun a => List.mem_eraseDups, ?_⟩
  -- On the length, since what equals the first element is taken out of the rest.
  induction hn : xs.length using Nat.strong_induction_on generalizing xs with
  | _ n ih =>
    cases xs with
    | nil => exact List.Pairwise.nil
    | cons x xs =>
      have hlength : (xs.filter fun b => !b == x).length < n :=
        hn ▸ Nat.lt_succ_of_le (List.length_filter_le _ _)
      have hne : ∀ b ∈ (xs.filter fun b => !b == x).eraseDups, (!b == x) = true :=
        fun b hb => (List.mem_filter.mp (List.mem_eraseDups.mp hb)).2
      rw [List.eraseDups_cons]
      refine List.Pairwise.cons (fun b hb => ?_) ((ih _ hlength _ rfl).imp_of_mem ?_)
      · have hxb : x ≠ b := by
          have hb := hne b hb
          simp only [Bool.not_eq_true', beq_eq_false_iff_ne] at hb
          exact hb.symm
        rw [List.idxOf_cons_self, List.idxOf_cons_ne xs hxb]
        exact Nat.succ_pos _
      · intro a b ha hb hab
        refine idxOf_lt_of_filter (fun b => !b == x) (hne a ha) (hne b hb) ?_
        rwa [List.filter_cons_of_neg (by simp)]

/-- The parts of a compilation of `program` fit together. -/
structure Compilation.Agrees (program : Program) (c : Compilation) : Prop where
  /-- The launches are those of the program. -/
  launches : c.launches = program.launches
  /-- There is one service for each launched function, in the order of the first launch. -/
  services : FirstOccurrences (c.launches.sites.map Launch.callee) (c.services.map Service.name)
  /-- A service takes the data that each of its launches sends. -/
  params : ∀ l ∈ c.launches.sites, ∀ s ∈ c.services, s.name = l.callee →
    s.params = l.data.map DataArg.entryParam
  /-- A service answers on the channels that each of its launches passes. -/
  callbacks : ∀ l ∈ c.launches.sites, ∀ s ∈ c.services, s.name = l.callee →
    s.callbacks = l.channels.map (ChannelArg.callback l.callee)
  /-- The routes are in the strict order of their endpoints. -/
  sorted : (c.controller.routes.map Route.endpoint).Pairwise (· < ·)
  /-- The endpoints of the routes are those on which services answer. -/
  endpoints : ∀ e, (∃ r ∈ c.controller.routes, r.endpoint = e) ↔
    ∃ s ∈ c.services, ∃ cb ∈ s.callbacks, cb.endpoint = e

variable {program : Program} {config : Config} {c : Compilation}

/-- The services of a compilation are called by the functions that they serve. -/
theorem Program.compile_services_name (h : program.compile config = .ok c) :
    c.services.map Service.name = program.launches.callees := by
  obtain ⟨-, hservices, -⟩ := Program.exists_of_compile_eq_ok h
  generalize program.launches.callees = names, c.services = services at hservices
  induction hservices with
  | nil => rfl
  | cons hs _ ih =>
    obtain ⟨f, hf, hs⟩ := Program.exists_of_serviceOf_eq_ok hs
    rw [List.map_cons, ih, (Program.service_interface hs).1, Program.name_of_find? hf]

/-- A service of a compilation is that of a function, whose name it has. -/
theorem Program.exists_of_mem_services (h : program.compile config = .ok c) {s : Service}
    (hs : s ∈ c.services) :
    ∃ f, program.find? s.name = some f ∧ program.service config f = .ok s := by
  obtain ⟨-, hservices, -⟩ := Program.exists_of_compile_eq_ok h
  obtain ⟨i, hi, rfl⟩ := List.getElem_of_mem hs
  obtain ⟨f, hf, hservice⟩ := Program.exists_of_serviceOf_eq_ok
    ((List.forall₂_iff_get.mp hservices).2 i (hservices.length_eq ▸ hi) hi)
  refine ⟨f, ?_, hservice⟩
  rw [List.get_eq_getElem] at hservice
  rwa [(Program.service_interface hservice).1, Program.name_of_find? hf]

/-- The launches of a service fit the function that it serves. -/
theorem Program.launch_of_service (h : program.compile config = .ok c) {s : Service}
    (hs : s ∈ c.services) {l : Launch} (hl : l ∈ program.launches.sites)
    (hname : s.name = l.callee) :
    s.params = l.data.map DataArg.entryParam ∧
      s.callbacks = l.channels.map (ChannelArg.callback l.callee) := by
  obtain ⟨f, hf, hservice⟩ := Program.exists_of_mem_services h hs
  obtain ⟨-, g, hg, hof⟩ := Program.exists_of_mem_sites hl
  obtain rfl : f = g := by
    rw [hname] at hf
    exact Option.some.inj (hf.symm.trans hg)
  obtain ⟨-, hparams, -, hcallbacks⟩ := Program.service_interface hservice
  rw [hparams, hcallbacks, hof.data, hof.callee, hof.channels]
  exact ⟨rfl, rfl⟩

/-- There is one service for each launched function, in the order of the first launch. -/
theorem Program.compile_services (h : program.compile config = .ok c) :
    FirstOccurrences (program.launches.sites.map Launch.callee) (c.services.map Service.name) :=
  Program.compile_services_name h ▸ firstOccurrences_eraseDups _

/-- The routes have the endpoints and types of the slots of all launches. -/
theorem Program.compile_routes (h : program.compile config = .ok c) :
    c.controller.routes.map (fun r => (⟨r.endpoint, r.elem⟩ : Slot)) = program.launches.slots := by
  obtain ⟨-, -, hcontroller⟩ := Program.exists_of_compile_eq_ok h
  obtain ⟨decls, -, -, -, hroutes, -⟩ := Program.exists_of_controller_eq_ok hcontroller
  rw [hroutes]
  exact nameHandlers_slots _ _

/-- The channels of launches are those on which services answer. -/
theorem Program.mem_channelSlots_iff (h : program.compile config = .ok c) {t : Slot} :
    t ∈ program.launches.channelSlots ↔
      ∃ s ∈ c.services, ∃ cb ∈ s.callbacks, t = ⟨cb.endpoint, cb.elem⟩ := by
  have hservices := Program.compile_services h
  constructor
  · intro ht
    obtain ⟨l, hl, ht⟩ := List.mem_flatMap.mp ht
    obtain ⟨ch, hch, rfl⟩ := List.mem_map.mp ht
    obtain ⟨s, hs, hname⟩ := List.mem_map.mp
      ((hservices.mem_iff l.callee).mpr (List.mem_map_of_mem hl))
    refine ⟨s, hs, ch.callback l.callee, ?_, rfl⟩
    rw [(Program.launch_of_service h hs hl hname).2]
    exact List.mem_map_of_mem hch
  · rintro ⟨s, hs, cb, hcb, rfl⟩
    obtain ⟨l, hl, hname⟩ := List.mem_map.mp
      ((hservices.mem_iff s.name).mp (List.mem_map_of_mem hs))
    rw [(Program.launch_of_service h hs hl hname.symm).2] at hcb
    obtain ⟨ch, hch, rfl⟩ := List.mem_map.mp hcb
    exact List.mem_flatMap.mpr ⟨l, hl, List.mem_map_of_mem hch⟩

/-- The endpoints of the routes are those on which services answer. -/
theorem Program.exists_route_iff (h : program.compile config = .ok c) {e : String} :
    (∃ r ∈ c.controller.routes, r.endpoint = e) ↔
      ∃ s ∈ c.services, ∃ cb ∈ s.callbacks, cb.endpoint = e := by
  have hroutes : (∃ r ∈ c.controller.routes, r.endpoint = e) ↔
      ∃ t ∈ program.launches.slots, t.endpoint = e := by
    rw [← Program.compile_routes h]
    simp only [List.mem_map, exists_exists_and_eq_and]
  rw [hroutes, Launches.exists_mem_slots_iff]
  constructor
  · rintro ⟨t, ht, rfl⟩
    obtain ⟨s, hs, cb, hcb, rfl⟩ := (Program.mem_channelSlots_iff h).mp ht
    exact ⟨s, hs, cb, hcb, rfl⟩
  · rintro ⟨s, hs, cb, hcb, rfl⟩
    exact ⟨_, (Program.mem_channelSlots_iff h).mpr ⟨s, hs, cb, hcb, rfl⟩, rfl⟩

/-- The parts of every compilation fit together. -/
theorem Program.compile_agrees (h : program.compile config = .ok c) : c.Agrees program := by
  have hlaunches : c.launches = program.launches := (Program.exists_of_compile_eq_ok h).1
  refine ⟨hlaunches, hlaunches ▸ Program.compile_services h, fun l hl s hs hname => ?_,
    fun l hl s hs hname => ?_, ?_, fun e => Program.exists_route_iff h⟩
  · exact (Program.launch_of_service h hs (hlaunches ▸ hl) hname).1
  · exact (Program.launch_of_service h hs (hlaunches ▸ hl) hname).2
  · have hsorted := program.launches.slots_sorted
    rw [← Program.compile_routes h, Slot.Sorted, List.pairwise_map] at hsorted
    exact List.pairwise_map.mpr hsorted

/-- The parts fit together where a launch sends two arguments. -/
theorem pairProgram_agrees : ∃ c, (pairProgram "n").compile {} = .ok c ∧
    c.Agrees (pairProgram "n") ∧ ∃ l ∈ c.launches.sites,
    l.data.map DataArg.param = ["n", "arg0"] := by
  obtain ⟨c, hc⟩ := exists_compile_pairs.2
  have hagrees := Program.compile_agrees hc
  refine ⟨c, hc, hagrees, ?_⟩
  rw [hagrees.launches]
  exact ⟨_, List.mem_singleton_self _, rfl⟩

end ServiceSplit
