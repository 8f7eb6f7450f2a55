import ServiceSplit.Controller.Basic
import ServiceSplit.Proofs.Editor.Keeping

/-!
# What the functions of a controller keep

A body in which launches are replaced is made of what was in it, of dispatches and of slots. A
property that holds everywhere in them holds everywhere in the body, if it does not get lost when a
statement is put together again or loses the channels that it allocates.
-/

namespace ServiceSplit

variable {R : NodeProp} {channels : List ChannelArg}

/-! ### Slots in place of channels -/

/-- The property holds everywhere in the type of the values of a slot. -/
def Slot.Has (R : NodeProp) (slot : Slot) : Prop :=
  slot.elem.Every R

/-- The property holds everywhere in the types of all slots that names stand for. -/
def Bindings.Have (R : NodeProp) (b : Bindings) : Prop :=
  ∀ frame ∈ b, ∀ entry ∈ frame, ∀ slot ∈ entry.2, slot.Has R

namespace Bindings

variable {b : Bindings}

theorem Have.resolve (h : b.Have R) {name : String} {slot : Slot}
    (hslot : b.resolve name = some slot) : slot.Has R := by
  rw [Bindings.resolve, Option.join_eq_some_iff, List.findSome?_eq_some_iff] at hslot
  obtain ⟨before, frame, after, rfl, hlookup, -⟩ := hslot
  obtain ⟨l, r, rfl, -⟩ := List.lookup_eq_some_iff.mp hlookup
  exact h (l ++ (name, some slot) :: r) (by simp) (name, some slot) (by simp) slot rfl

theorem Have.bind (h : b.Have R) {name : String} {slot : Option Slot}
    (hslot : ∀ s ∈ slot, s.Has R) : (b.bind name slot).Have R := by
  cases b with
  | nil => exact h
  | cons frame outer =>
    obtain ⟨hframe, houter⟩ := List.forall_mem_cons.mp h
    exact List.forall_mem_cons.mpr ⟨List.forall_mem_cons.mpr ⟨hslot, hframe⟩, houter⟩

theorem Have.hide (h : b.Have R) (names : List String) : (b.hide names).Have R := by
  induction names generalizing b with
  | nil => exact h
  | cons name names ih => exact ih (h.bind (fun _ hs => nomatch hs))

theorem Have.route (h : b.Have R) {slots : List (String × Slot)}
    (hslots : ∀ s ∈ slots, s.2.Has R) : (b.route slots).Have R := by
  induction slots generalizing b with
  | nil => exact h
  | cons s slots ih =>
    rw [List.forall_mem_cons] at hslots
    refine ih (h.bind fun slot hslot => ?_) hslots.2
    cases hslot
    exact hslots.1

theorem Have.enter (h : b.Have R) (names : List String) : (b.enter names).Have R :=
  Have.hide (List.forall_mem_cons.mpr ⟨List.forall_mem_nil _, h⟩) names

theorem Have.leave (h : b.Have R) : b.leave.Have R :=
  fun frame hframe => h frame (List.mem_of_mem_tail hframe)

/-- The channels that a statement allocates have slots with such types. -/
theorem Have.removedChannels (h : b.Have R) (hchannels : ∀ c ∈ channels, c.slot.Has R) (s : Stmt) :
    ∀ c ∈ ServiceSplit.removedChannels channels b s, c.2.Has R := by
  refine List.forall_mem_append.mpr ⟨fun c hc => ?_, fun c hc => ?_⟩
  · obtain ⟨arg, harg, rfl⟩ := List.mem_map.mp hc
    exact hchannels arg (List.mem_filter.mp harg).1
  · unfold reallocatedChannels at hc
    split at hc
    · split at hc
      · obtain ⟨⟨target, value⟩, -, hpair⟩ := List.mem_filterMap.mp hc
        dsimp only at hpair
        split at hpair
        · obtain ⟨name, -, hpair⟩ := Option.bind_eq_some_iff.mp hpair
          obtain ⟨slot, hslot, hpair⟩ := Option.bind_eq_some_iff.mp hpair
          cases hpair
          exact h.resolve hslot
        · cases hpair
      · cases hc
    · cases hc

end Bindings

/-! ### What is left of statements -/

theorem mem_of_mem_keepMarked {α : Type} {keep : List Bool} {xs : List α} {x : α}
    (h : x ∈ keepMarked keep xs) : x ∈ xs := by
  obtain ⟨pair, hpair, rfl⟩ := List.mem_map.mp h
  exact (List.of_mem_zip (List.mem_filter.mp hpair).1).2

theorem Spec.Every.without {gone : List String} {spec edited left : Spec}
    (h : edited.Every R) (hleft : spec.without gone edited = some left) : left.Every R := by
  unfold Spec.without at hleft
  split at hleft
  · rename_i names ty values span
    dsimp only at hleft
    split at hleft
    · cases hleft
    · cases hleft
      refine ⟨h.1, fun x hx => h.2 x ?_⟩
      split at hx
      · exact mem_of_mem_keepMarked hx
      · exact hx
  · cases hleft
    exact h

/-- The parts of what is left of a statement are parts of the statement. -/
theorem Stmt.EveryPart.without {gone : List String} {s edited left : Stmt} (h : edited.EveryPart R)
    (hleft : s.without gone edited = some left) : left.EveryPart R ∧ edited.Fits left := by
  unfold Stmt.without at hleft
  split at hleft
  · split at hleft
    · dsimp only at hleft
      split at hleft
      · cases hleft
      · cases hleft
        exact ⟨⟨fun x hx => h.1 x (mem_of_mem_keepMarked hx), fun x hx =>
          h.2 x (mem_of_mem_keepMarked hx)⟩,
          id, id⟩
    · cases hleft
      exact ⟨h, .refl _⟩
  · split at hleft
    · split at hleft
      · cases hleft
      · cases hleft
        refine ⟨fun left hleft => ?_, id, id⟩
        obtain ⟨⟨spec, edited⟩, hpair, hleft⟩ := List.mem_filterMap.mp hleft
        exact (h edited (List.of_mem_zip hpair).2).without hleft
    · cases hleft
      exact ⟨h, .refl _⟩
  · cases hleft
    exact ⟨h, .refl _⟩

/-- The property does not get lost where slots are put in place of channels either. -/
structure NodeProp.Rerouted (R : NodeProp) : Prop extends R.Rebuilt where
  without : ∀ {gone s t left}, (Change.keeping R).InStmt s t → R.stmt t →
    s.without gone t = some left →
    R.stmt left
  slot : ∀ {id : Ident} {slot : Slot}, R.expr (.ident id) → slot.Has R → (slot.expr id.span).Every R

theorem NodeProp.Rerouted.removing (hR : R.Rerouted) {gone : List (String × Slot)} {s edited : Stmt}
    (h : (Change.keeping R).InStmt s edited) (hs : s.Every R) :
    ∀ t ∈ s.removing gone edited, t.Every R ∧ s.Fits t := by
  have hedited := h.every hR.toRebuilt hR.covers hs ((Stmt.every_iff _ _).mp hs).1
  unfold Stmt.removing
  split
  · exact List.forall_mem_singleton.mpr ⟨hedited, h.fits⟩
  · intro t ht
    have hleft := Option.mem_toList.mp ht
    obtain ⟨hstmt, hparts⟩ := (Stmt.every_iff _ _).mp hedited
    obtain ⟨hparts, hfits⟩ := hparts.without hleft
    exact ⟨(Stmt.every_iff _ _).mpr ⟨hR.without h hstmt hleft, hparts⟩,
      fun hheader => hfits.header (h.fits.header hheader), fun hbranch =>
        hfits.branch (h.fits.branch hbranch)⟩

theorem slotEditor_makes (hR : R.Rerouted) (hchannels : ∀ c ∈ channels, c.slot.Has R) :
    (slotEditor channels).Makes (Outcomes.id.keeping (Bindings.Have R)) R (.keeping R) where
  onStmt := by
    intro s inside hs hinside
    refine Outcomes.keeping_get.bind fun b hb => ?_
    have hgone := hb.removedChannels hchannels s
    have hend : ∀ edited : Stmt, (Change.keeping R).InStmt s edited →
        (Outcomes.id.keeping (Bindings.Have R)).Gives
        (do
          modify fun b' => (b'.hide s.declaredNames).route (removedChannels channels b s)
          return s.removing (removedChannels channels b s) edited : StateM Bindings (List Stmt))
        ((Change.keeping R).stmt s) := fun edited hedited =>
      (Outcomes.keeping_modify fun b' hb' => (hb'.hide _).route hgone).returning fun _ _ =>
        hR.removing hedited hs
    by_cases hopens : s.opensScope = true
    · simp only [hopens, ↓reduceIte]
      exact (Outcomes.keeping_modify fun b' hb' => hb'.enter _).bind fun _ _ => hinside.bind
        fun edited hedited => (Outcomes.keeping_modify fun b' hb' => hb'.leave).bind fun _ _ =>
          hend edited hedited
    · simp only [hopens]
      exact hinside.bind hend
  onExpr := by
    intro role e inside he hinside
    simp only [slotEditor]
    split
    · exact Outcomes.pure _ ⟨he, id⟩
    · rename_i id _
      refine Outcomes.keeping_get.returning fun b hb => ?_
      cases hslot : b.resolve id.name with
      | none => exact ⟨he, fun h => h⟩
      | some slot => exact ⟨hR.slot (hR.covers.expr _ he) (hb.resolve hslot), nofun⟩
    · exact hinside.mono fun y hy => ⟨hy.every hR.toRebuilt hR.covers he, hy.fits⟩
  onLit := by
    intro sig body span inside _ hinside
    exact (Outcomes.keeping_modify fun b hb => hb.enter _).bind fun _ _ => hinside.bind
      fun body' hbody' => (Outcomes.keeping_modify fun b hb => hb.leave).returning fun _ _ =>
        hbody'.every
  pairs := hR.pairs

/-- A body with slots in place of channels keeps the property, if the types of the channels have
it. -/
theorem Block.Every.reroute (hR : R.Rerouted) {body : Block}
    (hchannels : ∀ c ∈ channels, c.slot.Has R)
    (h : body.Every R) : (reroute channels body).Every R := by
  unfold ServiceSplit.reroute
  split
  · exact h
  · exact ((slotEditor_makes hR hchannels).block h [[]]
      (List.forall_mem_singleton.mpr (List.forall_mem_nil _))).1.every

/-! ### Dispatches in place of launches -/

variable {launches : Launches} {services : List Service} {Q : NodeProp} {F : Failure → Prop}

/-- The span of a `go` statement. -/
def Stmt.goSpan? : Stmt → Option Span
  | .go _ span => some span
  | _ => none

/-- The property `R` holds of statements with the property `Q` that are no launches, and everywhere
in dispatches and slots; the errors of dispatches have the property `F`. -/
structure Launches.Puts (launches : Launches) (services : List Service) (Q R : NodeProp)
    (F : Failure → Prop) : Prop where
  kept : ∀ s : Stmt, s.Every Q → (∀ span ∈ s.goSpan?, launches.at? span = none) → R.stmt s
  dispatch : ∀ l ∈ launches.sites, ∀ hasResults, (Outcomes.orError F).Gives
    (l.dispatch services hasResults) fun stmts => ∀ t ∈ stmts, t.Every R
  slots : ∀ l ∈ launches.sites, ∀ c ∈ l.channels, c.slot.Has R

/-- The property holds everywhere in the types of the channels of the launches that are replaced. -/
def Progress.Has (R : NodeProp) (st : Progress) : Prop :=
  ∀ c ∈ st.channels, c.slot.Has R

/-- Launches are replaced on the way, unless there is no dispatch for one. -/
abbrev replacing (F : Failure → Prop) (R : NodeProp) : Outcomes Dispatching :=
  (Outcomes.orError F).keeping (Progress.Has R)

theorem gives_inFunction (hR : R.Rerouted) {inside : Dispatching Block} {b : Block}
    (sig : Signature)
    (h : (replacing F R).Gives inside ((Change.keeping R).InBlock b)) :
    (replacing F R).Gives (inFunction sig inside) (Block.Every R) := by
  refine Outcomes.keeping_get.bind fun around haround =>
    (Outcomes.keeping_set nofun).bind fun _ _ =>
    h.bind fun body hbody => Outcomes.keeping_get.bind fun found hfound => ?_
  have hset : Progress.Has R { around with dispatched := found.dispatched } := haround
  exact (Outcomes.keeping_set hset).returning fun _ _ => hbody.every.reroute hR hfound

theorem gives_replaceLaunch (h : launches.Puts services Q R F) {l : Launch}
    (hl : l ∈ launches.sites) :
    (replacing F R).Gives (replaceLaunch services l) fun ss => ∀ t ∈ ss, t.Every R := by
  refine Outcomes.keeping_get.bind fun here hhere =>
    (Outcomes.keeping_lift (h.dispatch l hl here.hasResults)).bind fun stmts hstmts => ?_
  have hset : Progress.Has R
      { here with
        channels := here.channels ++ l.channels, dispatched := here.dispatched ++ [l.callee] } :=
    List.forall_mem_append.mpr ⟨hhere, h.slots l hl⟩
  exact (Outcomes.keeping_set hset).returning fun _ _ => hstmts

theorem launchEditor_makes (hR : R.Rerouted) (hQ : Q.Covers R) (h : launches.Puts services Q R F) :
    (launchEditor launches services).Makes (replacing F R) Q (.keeping R) where
  onStmt := by
    intro s inside hs hinside
    have hother : (∀ span ∈ s.goSpan?, launches.at? span = none) →
        (replacing F R).Gives (do return [← inside]) ((Change.keeping R).stmt s) := fun hgo =>
      hinside.returning fun t ht => List.forall_mem_singleton.mpr
        ⟨ht.every hR.toRebuilt hQ hs (h.kept s hs hgo), ht.fits⟩
    cases s with
    | go call span =>
      simp only [launchEditor]
      cases hat : launches.at? span with
      | none =>
        refine hother ?_
        rintro _ ⟨⟩
        exact hat
      | some l =>
        exact (gives_replaceLaunch h (List.mem_of_find?_eq_some hat)).mono
          fun ss hss t ht => ⟨hss t ht, nofun, nofun⟩
    | _ => exact hother nofun
  onExpr _ _ _ he hinside := Outcomes.Gives.mono hinside fun y hy =>
    ⟨hy.every hR.toRebuilt hQ he, hy.fits⟩
  onLit sig _ _ _ _ hinside := gives_inFunction hR sig hinside
  pairs := hQ.pairs

/-- A function in which launches are replaced keeps the property. -/
theorem gives_launchEditor_func (hR : R.Rerouted) (hQ : Q.Covers R)
    (h : launches.Puts services Q R F)
    {f : FuncDecl} (hhead : (Decl.func { f with body := none }).Every R)
    (hbody : ∀ b ∈ f.body, b.Every Q) :
    (replacing F R).Gives ((launchEditor launches services).decl (.func f)) fun d =>
      ∃ body, d = .func { f with body } ∧ d.Every R := by
  obtain ⟨hrecv, hparams, hsig, -⟩ := (Decl.every_iff _ _).mp hhead
  cases hb : f.body with
  | none =>
    simp only [Editor.decl, hb]
    have hnone : { f with body := none } = f := by rw [← hb]
    exact Outcomes.pure _ ⟨none, by rw [hnone], hnone ▸ hhead⟩
  | some b =>
    simp only [Editor.decl, hb]
    refine (gives_inFunction hR f.sig ((launchEditor_makes hR hQ h).block (hbody b hb))).returning
      fun b' hb' => ⟨some b', rfl, (Decl.every_iff _ _).mpr ⟨hrecv, hparams, hsig, ?_⟩⟩
    rintro _ ⟨⟩
    exact hb'

end ServiceSplit
