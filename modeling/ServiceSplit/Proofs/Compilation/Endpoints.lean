import Mathlib.Data.List.Nodup
import ServiceSplit.Proofs.Compilation.Agreement

/-!
# Endpoints and channels

The endpoint of a channel is the name of its function and the name of the parameter with a low line
between them. Both names may hold low lines themselves, so that two channels can come to one
endpoint; all that arrives there then has the type of the channel that was launched first.
-/

namespace ServiceSplit

namespace Compilation

/-- Callbacks with the same endpoint are the same channel parameter of the same function. -/
def EndpointsIdentify (c : Compilation) : Prop :=
  ∀ s ∈ c.services, ∀ t ∈ c.services, ∀ a ∈ s.callbacks, ∀ b ∈ t.callbacks,
    a.endpoint = b.endpoint → s.name = t.name ∧ a.param = b.param

/-- The name of a service continues that of another one, in the way that the name of a channel
parameter of the other one starts; what follows there is the name of a channel parameter as well. -/
def NamesOverlap (c : Compilation) : Prop :=
  ∃ s ∈ c.services, ∃ t ∈ c.services, ∃ a ∈ s.callbacks, ∃ b ∈ t.callbacks, ∃ middle,
    t.name = s.name ++ "_" ++ middle ∧ a.param = middle ++ "_" ++ b.param

/-- The type of a route is the element type of every channel whose values are posted to it. -/
def RoutesTyped (c : Compilation) : Prop :=
  ∀ r ∈ c.controller.routes, ∀ s ∈ c.services, ∀ a ∈ s.callbacks,
    a.endpoint = r.endpoint → a.elem = r.elem

end Compilation

/-! ### Joined names -/

private theorem append_cons_eq_iff {α : Type} {x : α} {as bs ps qs : List α} :
    as ++ x :: ps = bs ++ x :: qs ↔ as = bs ∧ ps = qs ∨
      (∃ ms, bs = as ++ x :: ms ∧ ps = ms ++ x :: qs) ∨
      ∃ ms, as = bs ++ x :: ms ∧ qs = ms ++ x :: ps := by
  constructor
  · intro h
    rcases List.append_eq_append_iff.mp h with ⟨ms, rfl, hms⟩ | ⟨ms, rfl, hms⟩
    · cases ms with
      | nil => simpa using hms
      | cons m ms =>
        rw [List.cons_append, List.cons.injEq] at hms
        obtain ⟨rfl, hms⟩ := hms
        exact Or.inr (Or.inl ⟨ms, rfl, hms⟩)
    · cases ms with
      | nil => simpa using hms.symm
      | cons m ms =>
        rw [List.cons_append, List.cons.injEq] at hms
        obtain ⟨rfl, hms⟩ := hms
        exact Or.inr (Or.inr ⟨ms, rfl, hms⟩)
  · rintro (⟨rfl, rfl⟩ | ⟨ms, rfl, rfl⟩ | ⟨ms, rfl, rfl⟩) <;> simp

/-- Two channels have the same endpoint if they are the same, or if the name of one function
continues that of the other. -/
theorem endpointName_eq_iff {f g p q : String} :
    endpointName f p = endpointName g q ↔ f = g ∧ p = q ∨
      (∃ m, g = f ++ "_" ++ m ∧ p = m ++ "_" ++ q) ∨
      ∃ m, f = g ++ "_" ++ m ∧ q = m ++ "_" ++ p := by
  have hchars : ∀ a b : String, (a ++ "_" ++ b).toList = a.toList ++ '_' :: b.toList := by
    intro a b
    simp
  have hover : ∀ a b p q : String, (∃ m, b = a ++ "_" ++ m ∧ p = m ++ "_" ++ q) ↔
      ∃ ms, b.toList = a.toList ++ '_' :: ms ∧ p.toList = ms ++ '_' :: q.toList := by
    intro a b p q
    constructor
    · rintro ⟨m, rfl, rfl⟩
      exact ⟨m.toList, hchars a m, hchars m q⟩
    · rintro ⟨ms, hb, hp⟩
      refine ⟨String.ofList ms, ?_, ?_⟩
      · rw [← String.toList_inj, hchars, String.toList_ofList, hb]
      · rw [← String.toList_inj, hchars, String.toList_ofList, hp]
  rw [hover, hover, endpointName, endpointName, ← String.toList_inj, hchars, hchars,
    append_cons_eq_iff, String.toList_inj, String.toList_inj]

/-! ### Services and routes -/

variable {program : Program} {config : Config} {c : Compilation}

/-- The endpoint of a callback is made of the names of its function and its parameter. -/
theorem Program.endpoint_of_mem_callbacks (h : program.compile config = .ok c) {s : Service}
    (hs : s ∈ c.services) {a : Callback} (ha : a ∈ s.callbacks) :
    a.endpoint = endpointName s.name a.param := by
  obtain ⟨f, -, hservice⟩ := Program.exists_of_mem_services h hs
  obtain ⟨hname, -, -, hcallbacks⟩ := Program.service_interface hservice
  rw [hcallbacks, Function.callbacks] at ha
  obtain ⟨p, -, hp⟩ := List.mem_filterMap.mp ha
  split at hp
  · cases hp
    rw [hname]
  · cases hp

/-- Services of one name are one service. -/
theorem Program.service_eq_of_name (h : program.compile config = .ok c) {s t : Service}
    (hs : s ∈ c.services) (ht : t ∈ c.services) (hname : s.name = t.name) : s = t := by
  have hnodup : (c.services.map Service.name).Nodup :=
    (Program.compile_services h).ordered.imp fun {a b} hlt (heq : a = b) =>
      Nat.ne_of_lt hlt (heq ▸ rfl)
  exact List.inj_on_of_nodup_map hnodup hs ht hname

/-- Every route has the type of a channel that answers on it. -/
theorem Program.exists_callback_of_route (h : program.compile config = .ok c) {r : Route}
    (hr : r ∈ c.controller.routes) :
    ∃ s ∈ c.services, ∃ a ∈ s.callbacks, a.endpoint = r.endpoint ∧ a.elem = r.elem := by
  have hslot : (⟨r.endpoint, r.elem⟩ : Slot) ∈ program.launches.slots := by
    rw [← Program.compile_routes h]
    exact List.mem_map_of_mem hr
  obtain ⟨s, hs, a, ha, heq⟩ := (Program.mem_channelSlots_iff h).mp
    (List.mem_of_find?_eq_some (Launches.mem_slots_iff.mp hslot))
  obtain ⟨hendpoint, helem⟩ := Slot.mk.inj heq
  exact ⟨s, hs, a, ha, hendpoint.symm, helem.symm⟩

/-- Endpoints identify channels exactly if names do not overlap. If, besides, no function gives one
name to two channel parameters, routes have the types of all channels that answer on them. -/
theorem Program.endpointsIdentify_iff (h : program.compile config = .ok c) :
    (c.EndpointsIdentify ↔ ¬c.NamesOverlap) ∧
      (c.EndpointsIdentify → (∀ s ∈ c.services, (s.callbacks.map Callback.param).Nodup) →
        c.RoutesTyped) := by
  have hendpoint := fun {s} => @Program.endpoint_of_mem_callbacks program config c h s
  refine ⟨⟨fun hid hover => ?_, fun hover s hs t ht a ha b hb hab => ?_⟩,
    fun hid hnodup r hr s hs a ha har => ?_⟩
  · obtain ⟨s, hs, t, ht, a, ha, b, hb, middle, hname, hparam⟩ := hover
    have hab : a.endpoint = b.endpoint := by
      rw [hendpoint hs ha, hendpoint ht hb]
      exact endpointName_eq_iff.mpr (Or.inr (Or.inl ⟨middle, hname, hparam⟩))
    have hlength := congrArg String.length ((hid s hs t ht a ha b hb hab).1.trans hname)
    have hmark : "_".length = 1 := rfl
    rw [String.length_append, String.length_append] at hlength
    omega
  · rw [hendpoint hs ha, hendpoint ht hb] at hab
    rcases endpointName_eq_iff.mp hab with heq | ⟨m, hm⟩ | ⟨m, hm⟩
    · exact heq
    · exact absurd ⟨s, hs, t, ht, a, ha, b, hb, m, hm⟩ hover
    · exact absurd ⟨t, ht, s, hs, b, hb, a, ha, m, hm⟩ hover
  · obtain ⟨t, ht, b, hb, hbr, helem⟩ := Program.exists_callback_of_route h hr
    obtain ⟨hname, hparam⟩ := hid s hs t ht a ha b hb (har.trans hbr.symm)
    obtain rfl := Program.service_eq_of_name h hs ht hname
    rw [List.inj_on_of_nodup_map (hnodup s hs) ha hb hparam, helem]

/-! ### Names that overlap -/

private theorem callbacks_of_serviceOf {name : String} {f : Function} {s : Service}
    (hfind : program.find? name = some f) (h : program.serviceOf config name = .ok s) :
    s.name = name ∧ s.callbacks = f.callbacks := by
  obtain ⟨g, hg, hservice⟩ := Program.exists_of_serviceOf_eq_ok h
  obtain rfl : f = g := Option.some.inj (hfind.symm.trans hg)
  obtain ⟨hname, -, -, hcallbacks⟩ := Program.service_interface hservice
  exact ⟨hname.trans (Program.name_of_find? hfind), hcallbacks⟩

private theorem exists_overlapping_services (h : overlapping.compile {} = .ok c) :
    ∃ s ∈ c.services, ∃ t ∈ c.services, s.name = "f" ∧ t.name = "f_b" ∧
      ⟨"f", "b_c", .named "int", "f_b_c"⟩ ∈ s.callbacks ∧
      ⟨"f_b", "c", .named "string", "f_b_c"⟩ ∈ t.callbacks := by
  obtain ⟨-, hservices, -⟩ := Program.exists_of_compile_eq_ok h
  have hcallees : overlapping.launches.callees = ["f", "f_b"] := rfl
  rw [hcallees] at hservices
  obtain ⟨s, _, hs, hrest, heq⟩ := List.forall₂_cons_left_iff.mp hservices
  obtain ⟨t, _, ht, -, rfl⟩ := List.forall₂_cons_left_iff.mp hrest
  obtain ⟨hsname, hscallbacks⟩ := callbacks_of_serviceOf rfl hs
  obtain ⟨htname, htcallbacks⟩ := callbacks_of_serviceOf rfl ht
  rw [heq]
  refine ⟨s, List.mem_cons_self, t, List.mem_cons_of_mem s List.mem_cons_self, hsname,
    htname, ?_, ?_⟩
  · rw [hscallbacks]
    exact List.mem_cons_self
  · rw [htcallbacks]
    exact List.mem_cons_self

/-- Endpoints identify the channels of one function, and do not where names overlap. -/
theorem overlapping_endpointsIdentify_iff :
    (∃ c, overlapping.compile {} = .ok c ∧ (c.EndpointsIdentify ↔ ¬c.NamesOverlap) ∧
      c.NamesOverlap) ∧
    ∃ c, (pairProgram "n").compile {} = .ok c ∧ c.services ≠ [] ∧ c.EndpointsIdentify ∧
      c.RoutesTyped := by
  constructor
  · obtain ⟨c, hc⟩ := exists_compile_overlapping
    obtain ⟨s, hs, t, ht, hsname, htname, ha, hb⟩ := exists_overlapping_services hc
    refine ⟨c, hc, (Program.endpointsIdentify_iff hc).1, s, hs, t, ht, _, ha, _, hb, "b", ?_, ?_⟩
    · rw [hsname, htname]
      decide
    · decide
  · obtain ⟨c, hc⟩ := exists_compile_pairs.2
    have hnames : c.services.map Service.name = ["f"] := Program.compile_services_name hc
    have hname : ∀ s ∈ c.services, s.name = "f" := fun s hs =>
      List.mem_singleton.mp (hnames ▸ List.mem_map_of_mem hs)
    obtain ⟨hiff, htyped⟩ := Program.endpointsIdentify_iff hc
    have hid : c.EndpointsIdentify := by
      refine hiff.mpr ?_
      rintro ⟨s, hs, t, ht, -, -, -, -, middle, hoverlap, -⟩
      rw [hname s hs, hname t ht] at hoverlap
      have hlength := congrArg String.length hoverlap
      simp only [String.length_append] at hlength
      have hmark : "_".length = 1 := rfl
      omega
    refine ⟨c, hc, fun hnil => ?_, hid, htyped hid fun s hs => ?_⟩
    · rw [hnil] at hnames
      cases hnames
    · obtain ⟨f, hf, hservice⟩ := Program.exists_of_mem_services hc hs
      rw [hname s hs] at hf
      cases hf
      rw [(Program.service_interface hservice).2.2.2]
      decide

/-- The channels of two functions come to one endpoint, which has the type of one of them only. -/
theorem overlapping_not_endpointsIdentify : ∃ c, overlapping.compile {} = .ok c ∧
    ¬c.EndpointsIdentify ∧ ¬c.RoutesTyped := by
  obtain ⟨c, hc⟩ := exists_compile_overlapping
  obtain ⟨s, hs, t, ht, hsname, htname, ha, hb⟩ := exists_overlapping_services hc
  refine ⟨c, hc, fun hid => ?_, fun htyped => ?_⟩
  · have hname := (hid s hs t ht _ ha _ hb rfl).1
    rw [hsname, htname] at hname
    exact absurd hname (by decide)
  · obtain ⟨r, hr, hendpoint⟩ := (Program.exists_route_iff hc).mpr ⟨s, hs, _, ha, rfl⟩
    have hint : TypeExpr.named "int" = r.elem := htyped r hr s hs _ ha hendpoint.symm
    have hstring : TypeExpr.named "string" = r.elem := htyped r hr t ht _ hb hendpoint.symm
    have heq := hint.trans hstring.symm
    simp [TypeExpr.named] at heq

end ServiceSplit
