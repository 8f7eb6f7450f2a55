import ServiceSplit.Proofs.Controller.Keeping
import ServiceSplit.Proofs.Except

/-!
# What stands in place of launches

In the body of a function every launch on the way becomes the statements of its dispatch, and all
else stays in its form. When the launches of a body have been replaced, names in it become slots,
and the allocations of channels that are not needed any more are taken out. Both steps are described
by the least relation between bodies that is closed under rules, one rule for each thing that may
become of a part.

## Main definitions

* `Block.Rerouted`: names have become slots in a body, and allocations of channels are taken out.
* `Launch.IsDispatch`: statements that send the arguments of a launch to its service.
* `Block.Replaced`: dispatches stand in a body where launches stood, and it is rerouted.

## Main results

* `Block.rerouted_reroute`: what rerouting does to a body.
* `replaced_of_decl_run`: what replacing the launches does to the body of a function.
-/

namespace ServiceSplit

/-! ### Bodies that are rerouted -/

/-- The elements of a list that are left, changed; those that are not left have the property. -/
inductive Thinned {α : Type} (R : α → α → Prop) (P : α → Prop) : List α → List α → Prop
  | nil : Thinned R P [] []
  | keep {a b as bs} : R a b → Thinned R P as bs → Thinned R P (a :: as) (b :: bs)
  | drop {a as bs} : P a → Thinned R P as bs → Thinned R P (a :: as) bs

namespace Change

/-- The lines of a `var` group that are left: a line that makes a channel may lose names and values,
and goes if all its names are those of channels. -/
inductive InLines (C : Change) : List Spec → List Spec → Prop
  | nil : InLines C [] []
  | line {spec spec' specs specs'} : C.InSpec spec spec' → InLines C specs specs' →
    InLines C (spec :: specs) (spec' :: specs')
  | thinned {names names' ty xs ys sp specs specs'} :
    Thinned C.expr (fun _ => ∃ name, (Spec.value names ty xs sp).declaresChannel name) xs ys →
    InLines C specs specs' →
    InLines C (.value names ty xs sp :: specs) (.value names' ty ys sp :: specs')
  | gone {names ty xs sp specs specs'} :
    (∀ id ∈ names, (Spec.value names ty xs sp).declaresChannel id.name) → InLines C specs specs' →
    InLines C (.value names ty xs sp :: specs) specs'

/-- What may become of the parts of a body that is rerouted. -/
structure Reroutes (C : Change) : Prop where
  same : (∀ x, C.expr x x) ∧ ∀ s, C.stmt s [s]
  expr : ∀ {x y}, C.InExpr x y → C.expr x y
  /-- A name may become a slot. -/
  slot : ∀ (id : Ident) (slot : Slot), C.expr (.ident id) (slot.expr id.span)
  stmt : ∀ {s t}, C.InStmt s t → C.stmt s [t]
  /-- An assignment may lose channels that it allocates, and goes if it does nothing else. -/
  assign : ∀ {lhs lhs' op rhs rhs' sp}, Thinned C.expr (·.asName.isSome) lhs lhs' →
    Thinned C.expr (·.isMakeChan) rhs rhs' →
    C.stmt (.assign lhs op rhs sp) [.assign lhs' op rhs' sp]
  assign_gone : ∀ {lhs op rhs sp}, (∀ x ∈ rhs, x.isMakeChan) → C.stmt (.assign lhs op rhs sp) []
  decl : ∀ {d specs}, C.InLines d.specs specs → C.stmt (.decl d) [.decl { d with specs }]
  decl_gone : ∀ {d}, C.InLines d.specs [] → C.stmt (.decl d) []
  lit : ∀ {b b'}, C.InBlock b b' → C.lit b b'

end Change

/-- Slots stand in a body where names stood, and allocations of channels are taken out. -/
def Block.Rerouted (b b' : Block) : Prop :=
  ∀ C : Change, C.Reroutes → C.InBlock b b'

variable {α : Type} {R : α → α → Prop} {P : α → Prop}

theorem Thinned.of_forall₂ {as bs : List α} (h : List.Forall₂ R as bs) : Thinned R P as bs := by
  induction h with
  | nil => exact .nil
  | cons hab _ ih => exact .keep hab ih

theorem thinned_keepMarked {as bs : List α} (h : List.Forall₂ R as bs) {keep : List Bool}
    (hlength : keep.length = as.length) (hP : ∀ p ∈ keep.zip as, p.1 = false → P p.2) :
    Thinned R P as (keepMarked keep bs) := by
  induction h generalizing keep with
  | nil =>
    rw [List.length_eq_zero_iff.mp hlength]
    exact .nil
  | cons hab _ ih =>
    cases keep with
    | nil => cases hlength
    | cons k keep =>
      rw [List.zip_cons_cons, List.forall_mem_cons] at hP
      have hrest := ih (Nat.succ.inj hlength) hP.2
      cases k with
      | true => exact .keep hab hrest
      | false => exact .drop (hP.1 rfl) hrest

/-- The elements that are not marked have the property. -/
theorem forall_of_keepMarked_eq_nil {as bs : List α} {keep : List Bool}
    (hlength : keep.length = as.length) (hP : ∀ p ∈ keep.zip as, p.1 = false → P p.2)
    (hbs : bs.length = as.length) (h : keepMarked keep bs = []) : ∀ a ∈ as, P a := by
  induction as generalizing keep bs with
  | nil => exact nofun
  | cons a as ih =>
    obtain ⟨k, keep, rfl⟩ := List.exists_cons_of_length_eq_add_one hlength
    obtain ⟨b, bs, rfl⟩ := List.exists_cons_of_length_eq_add_one hbs
    rw [List.zip_cons_cons, List.forall_mem_cons] at hP
    cases k with
    | true => cases h
    | false =>
      exact List.forall_mem_cons.mpr ⟨hP.1 rfl, ih (Nat.succ.inj hlength) hP.2 (Nat.succ.inj hbs) h⟩

variable {C : Change} {gone : List String}

theorem of_mem_zip_keptPairs (gone : List String) (lhs rhs : List Expr) :
    (∀ p ∈ (keptPairs gone lhs rhs).zip lhs, p.1 = false → p.2.asName.isSome = true) ∧
      ∀ p ∈ (keptPairs gone lhs rhs).zip rhs, p.1 = false → p.2.isMakeChan = true := by
  constructor
  all_goals
    intro p hp hfalse
    obtain ⟨i, hi, rfl⟩ := List.mem_iff_getElem.mp hp
    simp only [keptPairs, List.getElem_zip, List.getElem_map, Bool.not_eq_false',
      Bool.and_eq_true, Option.any_eq_true] at hfalse ⊢
    obtain ⟨⟨name, hname, -⟩, hmake⟩ := hfalse
  · rw [hname]
    rfl
  · exact hmake

/-- What is left of an assignment. -/
theorem Change.Reroutes.without_assign (hC : C.Reroutes) {lhs lhs' rhs rhs' : List Expr}
    {op : AssignOp} {sp : Span} (hl : C.InExprs lhs lhs') (hr : C.InExprs rhs rhs') :
    C.stmt (.assign lhs op rhs sp)
      ((Stmt.assign lhs op rhs sp).without gone (.assign lhs' op rhs' sp)).toList := by
  unfold Stmt.without
  dsimp only
  split
  · rename_i h
    have hkeep : (keptPairs gone lhs rhs).length = rhs.length := by simp [keptPairs, h.2]
    obtain ⟨htargets, hvalues⟩ := of_mem_zip_keptPairs gone lhs rhs
    split
    · rename_i hnil
      exact hC.assign_gone (forall_of_keepMarked_eq_nil hkeep hvalues
        (hl.length_eq.symm.trans h.2) hnil)
    · exact hC.assign (thinned_keepMarked hl (hkeep.trans h.2.symm) htargets)
        (thinned_keepMarked hr hkeep hvalues)
  · exact hC.stmt (.assign hl hr)

/-- What is left of a line of a `var` group, with what is left of the lines behind it. -/
theorem Change.inLines_cons_without {names : List Ident} {ty : Option TypeExpr} {xs ys : List Expr}
    {sp : Span} {specs specs' : List Spec} (hxs : C.InExprs xs ys) (h : C.InLines specs specs') :
    C.InLines (.value names ty xs sp :: specs)
      (((Spec.value names ty xs sp).without gone (.value names ty ys sp)).toList ++ specs') := by
  have hlength : (names.map fun id => !(gone.contains id.name &&
      (Spec.value names ty xs sp).declaresChannel id.name)).length = names.length :=
    List.length_map _
  have hdropped : ∀ (i : Nat) (hi : i < names.length), (!(gone.contains names[i].name &&
      (Spec.value names ty xs sp).declaresChannel names[i].name)) = false →
        (Spec.value names ty xs sp).declaresChannel names[i].name = true := by
    intro i hi hfalse
    simp only [Bool.not_eq_false', Bool.and_eq_true] at hfalse
    exact hfalse.2
  unfold Spec.without
  dsimp only
  split
  · rename_i hnil
    refine .gone (forall_of_keepMarked_eq_nil hlength (fun p hp hfalse => ?_) rfl hnil) h
    obtain ⟨i, hi, rfl⟩ := List.mem_iff_getElem.mp hp
    simp only [List.getElem_zip, List.getElem_map] at hfalse ⊢
    exact hdropped i _ hfalse
  · refine .thinned ?_ h
    split
    · rename_i hvalues
      refine thinned_keepMarked hxs ?_ fun p hp hfalse => ?_
      · rw [hlength, ← hvalues, hxs.length_eq]
      · obtain ⟨i, hi, rfl⟩ := List.mem_iff_getElem.mp hp
        simp only [List.getElem_zip, List.getElem_map] at hfalse
        exact ⟨_, hdropped i _ hfalse⟩
    · exact .of_forall₂ hxs

/-- What is left of the lines of a `var` group. -/
theorem Change.inLines_without (gone : List String) {specs specs' : List Spec}
    (h : List.Forall₂ C.InSpec specs specs') : C.InLines specs
      ((specs.zip specs').filterMap fun (spec, spec') => spec.without gone spec') := by
  induction h with
  | nil => exact .nil
  | cons hspec _ ih =>
    rw [List.filterMap_eq_flatMap_toList] at ih ⊢
    rw [List.zip_cons_cons, List.flatMap_cons]
    cases hspec with
    | type => exact .line .type ih
    | value hxs => exact inLines_cons_without hxs ih

/-- What is left of a statement that is put together again. -/
theorem Change.Reroutes.removing (hC : C.Reroutes) {gone : List (String × Slot)} {s t : Stmt}
    (h : C.InStmt s t) : C.stmt s (s.removing gone t) := by
  unfold Stmt.removing
  split
  · exact hC.stmt h
  · cases h with
    | assign hl hr => exact hC.without_assign hl hr
    | @decl d d' hd =>
      cases hd with
      | mk hspecs =>
        have hlines := inLines_without (gone.map Prod.fst) hspecs
        unfold Stmt.without
        dsimp only
        split
        · split
          · rename_i hnil
            exact hC.decl_gone (hnil ▸ hlines)
          · exact hC.decl hlines
        · exact hC.stmt (.decl (.mk hspecs))
    | labeled hs => exact hC.stmt (.labeled hs)
    | _ => exact hC.stmt (by constructor <;> assumption)

theorem slotEditor_makes_rerouted (hC : C.Reroutes) (channels : List ChannelArg) :
    (slotEditor channels).Makes (Outcomes.id.keeping fun _ => True) {} C where
  onStmt := by
    intro s inside _ hinside
    refine Outcomes.keeping_get.bind fun b _ => ?_
    by_cases hopens : s.opensScope = true
    · simp only [hopens, ↓reduceIte]
      exact (Outcomes.keeping_modify fun _ _ => trivial).bind fun _ _ => hinside.bind
        fun _ hedited => (Outcomes.keeping_modify fun _ _ => trivial).bind fun _ _ =>
          (Outcomes.keeping_modify fun _ _ => trivial).returning fun _ _ => hC.removing hedited
    · simp only [hopens]
      exact hinside.bind fun _ hedited =>
        (Outcomes.keeping_modify fun _ _ => trivial).returning fun _ _ => hC.removing hedited
  onExpr := by
    intro role x inside _ hinside
    simp only [slotEditor]
    split
    · exact Outcomes.pure _ (hC.same.1 x)
    · rename_i id _ _
      refine Outcomes.keeping_get.returning fun b _ => ?_
      cases b.resolve id.name with
      | none => exact hC.same.1 _
      | some slot => exact hC.slot id slot
    · exact hinside.mono fun _ hy => hC.expr hy
  onLit _ _ _ _ _ hinside :=
    (Outcomes.keeping_modify fun _ _ => trivial).bind fun _ _ => hinside.bind
      fun _ hbody => (Outcomes.keeping_modify fun _ _ => trivial).returning fun _ _ => hC.lit hbody
  pairs _ _ _ := trivial

theorem Block.every_default (b : Block) : b.Every {} := by
  intro s _ e _
  cases e with
  | openLit sig span => exact ⟨⟨[], span⟩, trivial⟩
  | _ => trivial

/-- What rerouting does to a body. -/
theorem Block.rerouted_reroute (channels : List ChannelArg) (b : Block) :
    b.Rerouted (reroute channels b) := by
  intro C hC
  unfold reroute
  split
  · obtain ⟨ss, sp⟩ := b
    refine .mk ?_
    induction ss with
    | nil => exact .nil
    | cons s ss ih => exact .cons (hC.same.2 s) ih
  · exact ((slotEditor_makes_rerouted hC channels).block b.every_default [[]] trivial).1

/-! ### Bodies whose launches are replaced -/

/-- The statements are read from the text of one request to the service of the launched function. -/
def Launch.IsDispatch (l : Launch) (stmts : List Stmt) : Prop :=
  ∃ helper ∈ ["kompileDispatch(", "kompileDispatchJSON("], ∃ arguments failure,
    Template.stmts l.callee ("if err := " ++ (helper ++ Text.quote l.callee ++ ", " ++ arguments) ++
      "; err != nil \x7b\n" ++ failure ++ "\n\x7d") = .ok stmts

/-- What may become of the parts of a body whose launches are replaced. -/
structure Change.Replaces (launches : Launches) (C : Change) : Prop where
  /-- Statements that send the arguments to the service stand in place of a launch. -/
  launch : ∀ l ∈ launches.sites, ∀ call stmts, l.IsDispatch stmts → C.stmt (.go call l.span) stmts
  /-- All else is put together again. -/
  stmt : ∀ {s t}, (∀ l ∈ launches.sites, s.goSpan? ≠ some l.span) → C.InStmt s t → C.stmt s [t]
  expr : ∀ {x y}, C.InExpr x y → C.expr x y
  /-- The body of a function or of a function literal is rerouted at its end. -/
  lit : ∀ {b b' b''}, C.InBlock b b' → b'.Rerouted b'' → C.lit b b''

/-- Dispatches stand in a body where launches stood, and it is rerouted. -/
def Block.Replaced (launches : Launches) (b b' : Block) : Prop :=
  ∀ C : Change, C.Replaces launches → C.lit b b'

variable {launches : Launches} {services : List Service}

/-- A call that sends the arguments of a launch names the launched function. -/
theorem Launch.exists_of_dispatchCall {l : Launch} {payload : Payload} {call : String}
    (h : l.dispatchCall payload = .ok call) :
    ∃ helper ∈ ["kompileDispatch(", "kompileDispatchJSON("], ∃ arguments,
      call = helper ++ Text.quote l.callee ++ ", " ++ arguments := by
  have hplain : ∀ reader, ∃ arguments, l.plainCall payload reader =
      "kompileDispatch(" ++ Text.quote l.callee ++ ", " ++ arguments := by
    intro reader
    refine ⟨Text.quote payload.contentType ++ ", " ++ reader ++ ")", ?_⟩
    unfold plainCall
    simp only [String.append_assoc]
  have hreader : ∀ package, l.plainCall payload <$> l.bodyReader package = .ok call →
      ∃ arguments, call = "kompileDispatch(" ++ Text.quote l.callee ++ ", " ++ arguments := by
    intro package h
    rw [map_eq_pure_bind] at h
    obtain ⟨reader, -, h⟩ := exists_of_bind_eq_ok h
    cases h
    exact hplain reader
  cases payload with
  | json fields =>
    obtain ⟨entries, -, h⟩ := exists_of_bind_eq_ok h
    cases h
    refine ⟨_, List.mem_cons_of_mem _ List.mem_cons_self,
      "map[string]any\x7b" ++ Text.joined ", " entries ++ "\x7d)", ?_⟩
    have hopen : ", map[string]any\x7b" = ", " ++ "map[string]any\x7b" := by decide
    simp only [hopen, String.append_assoc]
  | bytes => exact ⟨_, List.mem_cons_self, hreader _ h⟩
  | text => exact ⟨_, List.mem_cons_self, hreader _ h⟩
  | empty =>
    cases h
    exact ⟨_, List.mem_cons_self, hplain _⟩

theorem Launch.isDispatch {l : Launch} {hasResults : Bool} {stmts : List Stmt}
    (h : l.dispatch services hasResults = .ok stmts) : l.IsDispatch stmts := by
  unfold dispatch at h
  split at h
  · cases h
  · obtain ⟨call, hcall, h⟩ := exists_of_bind_eq_ok h
    obtain ⟨helper, hhelper, arguments, rfl⟩ := exists_of_dispatchCall hcall
    exact ⟨helper, hhelper, arguments, _, h⟩

/-- Launches are replaced on the way, unless there is no dispatch for one. -/
private abbrev replacingLaunches : Outcomes Dispatching :=
  (Outcomes.orError fun _ => True).keeping fun _ => True

private theorem gives_replaceLaunch_isDispatch (l : Launch) :
    replacingLaunches.Gives (replaceLaunch services l) l.IsDispatch := by
  refine Outcomes.keeping_get.bind fun here _ => ?_
  have hdispatch : (Outcomes.orError fun _ => True).Gives (l.dispatch services here.hasResults)
      l.IsDispatch := by
    cases h : l.dispatch services here.hasResults with
    | error e => trivial
    | ok stmts => exact Launch.isDispatch h
  exact (Outcomes.keeping_lift hdispatch).bind fun _ hstmts =>
    (Outcomes.keeping_set trivial).returning fun _ _ => hstmts

private theorem gives_inFunction_lit (hC : C.Replaces launches) (sig : Signature) {b : Block}
    {inside : Dispatching Block} (h : replacingLaunches.Gives inside (C.InBlock b)) :
    replacingLaunches.Gives (inFunction sig inside) (C.lit b) :=
  Outcomes.keeping_get.bind fun _ _ => (Outcomes.keeping_set trivial).bind fun _ _ =>
    h.bind fun body hbody => Outcomes.keeping_get.bind fun found _ =>
      (Outcomes.keeping_set trivial).returning fun _ _ =>
        hC.lit hbody (body.rerouted_reroute found.channels)

private theorem launchEditor_makes_replaced (services : List Service) (hC : C.Replaces launches) :
    (launchEditor launches services).Makes replacingLaunches {} C where
  onStmt := by
    intro s inside _ hinside
    have hother : (∀ l ∈ launches.sites, s.goSpan? ≠ some l.span) →
        replacingLaunches.Gives (do return [← inside]) (C.stmt s) := fun hgo =>
      hinside.returning fun _ ht => hC.stmt hgo ht
    cases s with
    | go call span =>
      simp only [launchEditor]
      cases hat : launches.at? span with
      | none =>
        refine hother fun l hl hspan => ?_
        have hne := List.find?_eq_none.mp hat l hl
        simp [Option.some.inj hspan] at hne
      | some l =>
        have hspan : l.span = span := by simpa using List.find?_some hat
        exact (gives_replaceLaunch_isDispatch l).mono fun stmts hstmts =>
          hspan ▸ hC.launch l (List.mem_of_find?_eq_some hat) call stmts hstmts
    | _ => exact hother (by simp [Stmt.goSpan?])
  onExpr _ _ _ _ hinside := Outcomes.Gives.mono hinside fun _ => hC.expr
  onLit sig _ _ _ _ hinside := gives_inFunction_lit hC sig hinside
  pairs _ _ _ := trivial

/-- What replacing the launches does to the body of a function. -/
theorem replaced_of_decl_run {f : FuncDecl} {b : Block} (hb : f.body = some b) {d : Decl}
    {st st' : Progress}
    (h : ((launchEditor launches services).decl (.func f)).run st = .ok (d, st')) :
    ∃ b', d = .func { f with body := some b' } ∧ b.Replaced launches b' := by
  simp only [Editor.decl, hb] at h
  obtain ⟨⟨b', st₁⟩, hrun, h⟩ := exists_of_bind_eq_ok
    (x := (inFunction f.sig ((launchEditor launches services).block b)).run st) h
  cases h
  refine ⟨b', rfl, fun C hC => ?_⟩
  have hgives := gives_inFunction_lit hC f.sig
    ((launchEditor_makes_replaced services hC).block b.every_default) st trivial
  rw [hrun] at hgives
  exact hgives.1

end ServiceSplit
