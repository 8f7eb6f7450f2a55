import Mathlib.Data.List.Nodup
import ServiceSplit.Proofs.Editor.MapParts
import ServiceSplit.Proofs.Service.Synthesis

/-!
# What a service makes of its function

The body of a function becomes that of its service at the statements that send on a callback or
close one, wherever they stand outside types: a send becomes a post, and a closing disappears. The
rest stays as it is. Since callbacks are used in no other way, none of their names is left.

Types are left alone, while a send inside of one is no misuse of a callback. Such a send stays in
the service, where its channel no longer exists.
-/

namespace ServiceSplit

/-- The channel that a statement sends on or closes. -/
def Stmt.channel? : Stmt → Option String
  | .send chan _ _ => chan.asName
  | .expr x => x.closeTarget
  | _ => none

/-! ### Statements and expressions -/

section Shapes

variable {stmt : Stmt → List Stmt} {expr : Expr → Expr}
  (hexpr : ∀ x, expr x = x.mapParts stmt expr)

include hexpr

theorem Expr.asIdent_mapParts (x : Expr) : (expr x).asIdent = x.asIdent := by
  induction x using Expr.asIdent.induct with
  | case1 id => rw [hexpr]; rfl
  | case2 x span ih => rw [hexpr]; exact ih
  | case3 x hident hparen =>
    rw [hexpr]
    cases x with
    | ident id => exact absurd rfl (hident id)
    | paren x span => exact absurd rfl (hparen x span)
    | _ => rfl

theorem Expr.asName_mapParts (x : Expr) : (expr x).asName = x.asName := by
  rw [Expr.asName, Expr.asIdent_mapParts hexpr, Expr.asName]

theorem Expr.closeTarget_mapParts (x : Expr) : (expr x).closeTarget = x.closeTarget := by
  unfold Expr.closeTarget
  rw [hexpr]
  cases x with
  | call fn args spread span =>
    match args with
    | [] => rfl
    | [arg] => simp only [Expr.mapParts, List.map_cons, List.map_nil, Expr.asName_mapParts hexpr]
    | _ :: _ :: _ => rfl
  | _ => rfl

end Shapes

namespace Callback

variable {config : Config} {callbacks : List Callback}

/-- What becomes of statements and expressions in a service, given what becomes of their parts: a
send on a callback is one post of the value, the closing of a callback is nothing, or the empty
statement under a label, and all else is kept. -/
structure Rewrites (config : Config) (callbacks : List Callback) (stmt : Stmt → List Stmt)
    (expr : Expr → Expr) : Prop where
  send : ∀ c ∈ callbacks, ∀ chan value span, chan.asName = some c.param →
    stmt (.send chan value span) = [.expr (.call
      (.ident ⟨if c.elem.isNamed "error" then "kompileCallbackError" else "kompileCallback", span⟩)
      [.lit .string (Text.quote (config.controllerUrl ++ "/" ++ c.endpoint)) .synthetic, expr value]
      false span)]
  close : ∀ c ∈ callbacks, ∀ x, x.closeTarget = some c.param → stmt (.expr x) = []
  label : ∀ c ∈ callbacks, ∀ l x span, x.closeTarget = some c.param →
    stmt (.labeled l (.expr x) span) = [.labeled l (.empty span) span]
  other : ∀ s, (∀ c ∈ callbacks, s.channel? ≠ some c.param) → stmt s = [s.mapParts stmt expr]
  expr : ∀ x, expr x = x.mapParts stmt expr

theorem find?_eq_some (hnodup : (callbacks.map param).Nodup) {c : Callback} (hc : c ∈ callbacks)
    {x : Expr} (hx : x.asName = some c.param) : find? callbacks x = some c := by
  have hsome : (callbacks.reverse.find? (·.param == c.param)).isSome = true :=
    List.find?_isSome.mpr ⟨c, List.mem_reverse.mpr hc, beq_self_eq_true _⟩
  obtain ⟨d, hd⟩ := Option.isSome_iff_exists.mp hsome
  have hparam : d.param = c.param := by simpa using List.find?_some hd
  have hmem : d ∈ callbacks := List.mem_reverse.mp (List.mem_of_find?_eq_some hd)
  obtain rfl := List.inj_on_of_nodup_map hnodup hmem hc hparam
  rw [find?, hx]
  exact hd

theorem find?_eq_none {x : Expr} (h : ∀ c ∈ callbacks, x.asName ≠ some c.param) :
    find? callbacks x = none := by
  unfold find?
  split
  · rename_i name hname
    refine List.find?_eq_none.mpr fun c hc => ?_
    have hne : c.param ≠ name := fun heq => h c (List.mem_reverse.mp hc) (heq ▸ hname)
    simpa using hne
  · rfl

section Editor

variable (config callbacks)

theorem exprOf_eq_mapParts (x : Expr) : (editor config callbacks).exprOf x =
    x.mapParts (editor config callbacks).stmtOf (editor config callbacks).exprOf :=
  Editor.exprOf_eq_mapParts (fun _ _ _ => rfl) (fun _ _ _ => rfl) x

theorem stmtOf_send (chan value : Expr) (span : Span) :
    (editor config callbacks).stmtOf (.send chan value span) =
      match find? callbacks chan with
      | some c => [c.post config ((editor config callbacks).exprOf value) span]
      | none => [(Stmt.send chan value span).mapParts (editor config callbacks).stmtOf
          (editor config callbacks).exprOf] := by
  have hname := Expr.asName_mapParts (exprOf_eq_mapParts config callbacks) chan
  have hfind : find? callbacks ((editor config callbacks).exprOf chan) = find? callbacks chan := by
    rw [find?, hname, find?]
  rw [Editor.stmtOf_eq_onStmt (fun _ _ _ => rfl), ← hfind]
  rfl

theorem stmtOf_expr (x : Expr) :
    (editor config callbacks).stmtOf (.expr x) =
      if x.closeTarget.any fun name => callbacks.any (·.param == name) then []
      else [(Stmt.expr x).mapParts (editor config callbacks).stmtOf
        (editor config callbacks).exprOf] := by
  rw [Editor.stmtOf_eq_onStmt (fun _ _ _ => rfl),
    ← Expr.closeTarget_mapParts (exprOf_eq_mapParts config callbacks) x]
  rfl

theorem stmtOf_other {s : Stmt} (hsend : ∀ chan value span, s ≠ .send chan value span)
    (hexpr : ∀ x, s ≠ .expr x) :
    (editor config callbacks).stmtOf s =
      [s.mapParts (editor config callbacks).stmtOf (editor config callbacks).exprOf] := by
  rw [Editor.stmtOf_eq_onStmt (fun _ _ _ => rfl)]
  cases s with
  | send chan value span => exact absurd rfl (hsend chan value span)
  | expr x => exact absurd rfl (hexpr x)
  | _ => rfl

end Editor

/-- What becomes of the statements and expressions of a function. -/
theorem editor_rewrites (hnodup : (callbacks.map param).Nodup) :
    Rewrites config callbacks (editor config callbacks).stmtOf
      (editor config callbacks).exprOf := by
  have hclose : ∀ c ∈ callbacks, ∀ x, x.closeTarget = some c.param →
      (editor config callbacks).stmtOf (.expr x) = [] := by
    intro c hc x hx
    rw [stmtOf_expr, hx, if_pos]
    exact List.any_eq_true.mpr ⟨c, hc, beq_self_eq_true _⟩
  refine ⟨?_, hclose, ?_, ?_, exprOf_eq_mapParts config callbacks⟩
  · intro c hc chan value span hchan
    rw [stmtOf_send, find?_eq_some hnodup hc hchan]
    rfl
  · intro c hc l x span hx
    have hlabeled := @stmtOf_other config callbacks (.labeled l (.expr x) span) (by simp) (by simp)
    rw [hlabeled, Stmt.mapParts, hclose c hc x hx]
    rfl
  · intro s hs
    cases s with
    | send chan value span => rw [stmtOf_send, find?_eq_none hs]
    | expr x =>
      rw [stmtOf_expr, if_neg]
      rw [Option.any_eq_true]
      rintro ⟨name, hname, hany⟩
      obtain ⟨c, hc, hparam⟩ := List.any_eq_true.mp hany
      exact hs c hc (by rw [Stmt.channel?, hname, beq_iff_eq.mp hparam])
    | _ => exact stmtOf_other _ _ (by simp) (by simp)

/-! ### No name of a callback is left -/

namespace Rewrites

variable {stmt : Stmt → List Stmt} {expr : Expr → Expr}

theorem exists_of_channel? {s : Stmt} (h : ¬∀ c ∈ callbacks, s.channel? ≠ some c.param) :
    ∃ c ∈ callbacks, s.channel? = some c.param := by
  simpa using h

/-- A statement becomes one statement at most. -/
theorem length_le_one (h : Rewrites config callbacks stmt expr) (s : Stmt) :
    (stmt s).length ≤ 1 := by
  by_cases hs : ∀ c ∈ callbacks, s.channel? ≠ some c.param
  · rw [h.other s hs]
    exact Nat.le_refl 1
  · obtain ⟨c, hc, hs⟩ := exists_of_channel? hs
    cases s with
    | send chan value span =>
      rw [h.send c hc chan value span hs]
      exact Nat.le_refl 1
    | expr x =>
      rw [h.close c hc x hs]
      exact Nat.zero_le 1
    | _ => cases hs

end Rewrites

/-- No use of a channel on the way through a part is a bad one. -/
def Clean (callbacks : List Callback) (p : Part) : Prop :=
  ∀ e ∈ p.events (BadChannelUse.traversal (callbacks.map param)),
    BadChannelUse.atEvent (callbacks.map param) e = none

theorem Clean.of_mem_parts {p q : Part} (h : Clean callbacks p) (hq : q ∈ p.parts)
    (hskip : p.isSkipped (BadChannelUse.traversal (callbacks.map param)) = false) :
    Clean callbacks q :=
  fun e he => h e (Part.events_subset_of_mem_parts hq hskip he)

/-- The parts of a body in which posts stand for sends: they are made of parts without bad uses of
channels, or belong to a post. -/
inductive Edited (config : Config) (callbacks : List Callback) (stmt : Stmt → List Stmt)
    (expr : Expr → Expr) : Part → Prop
  | stmt {s t : Stmt} (hs : Clean callbacks (.stmt s)) (ht : t ∈ stmt s) :
    Edited config callbacks stmt expr (.stmt t)
  | expr {role : Role} {x : Expr} (hx : Clean callbacks (.expr role x))
    (hskip : (Part.expr role x).isSkipped (BadChannelUse.traversal (callbacks.map param)) = false)
    (role' : Role) : Edited config callbacks stmt expr (.expr role' (expr x))
  | empty (span : Span) : Edited config callbacks stmt expr (.stmt (.empty span))
  | post {c : Callback} (hc : c ∈ callbacks) {value : Expr}
    (hvalue : Clean callbacks (.expr .use value)) (span : Span) :
    Edited config callbacks stmt expr (.expr .statement
      (.call (.ident ⟨c.helper, span⟩)
        [.lit .string (Text.quote (c.url config)) .synthetic, expr value] false span))
  | helper {c : Callback} (hc : c ∈ callbacks) (role : Role) (span : Span) :
    Edited config callbacks stmt expr (.expr role (.ident ⟨c.helper, span⟩))
  | url (role : Role) (raw : String) :
    Edited config callbacks stmt expr (.expr role (.lit .string raw .synthetic))

namespace Edited

variable {stmt : Stmt → List Stmt} {expr : Expr → Expr}

/-- Only the channel of a send and the closing of a channel are passed over. -/
theorem of_isSkipped {q : Part}
    (h : q.isSkipped (BadChannelUse.traversal (callbacks.map param)) = true) :
    ∃ c ∈ callbacks, (∃ x, q = .expr .sendTarget x ∧ x.asName = some c.param) ∨
      ∃ x, q = .expr .statement x ∧ x.closeTarget = some c.param := by
  cases q with
  | stmt => cases h
  | expr role x =>
    cases role with
    | sendTarget =>
      obtain ⟨name, hname, hmem⟩ := (Option.any_eq_true _ _).mp h
      obtain ⟨c, hc, rfl⟩ := List.mem_map.mp (List.contains_iff_mem.mp hmem)
      exact ⟨c, hc, .inl ⟨x, rfl, hname⟩⟩
    | statement =>
      obtain ⟨name, hname, hmem⟩ := (Option.any_eq_true _ _).mp h
      obtain ⟨c, hc, rfl⟩ := List.mem_map.mp (List.contains_iff_mem.mp hmem)
      exact ⟨c, hc, .inr ⟨x, rfl, hname⟩⟩
    | _ => cases h

theorem channel?_of_isSkipped {s : Stmt} {q : Part} (hq : q ∈ s.parts)
    (hskip : q.isSkipped (BadChannelUse.traversal (callbacks.map param)) = true) :
    ∃ c ∈ callbacks, s.channel? = some c.param := by
  obtain ⟨c, hc, ⟨x, rfl, hx⟩ | ⟨x, rfl, hx⟩⟩ := of_isSkipped hskip
  · obtain ⟨-, value, span, rfl⟩ | ⟨h, -⟩ | h | h := Stmt.role_of_mem_parts hq
    · exact ⟨c, hc, hx⟩
    all_goals cases h
  · obtain ⟨h, -⟩ | ⟨-, rfl⟩ | h | h := Stmt.role_of_mem_parts hq
    · cases h
    · exact ⟨c, hc, hx⟩
    all_goals cases h

theorem not_isSkipped_of_mem_exprParts {x : Expr} {q : Part} (hq : q ∈ x.parts) :
    q.isSkipped (BadChannelUse.traversal (callbacks.map param)) = false := by
  by_contra hskip
  rw [Bool.not_eq_false] at hskip
  obtain ⟨c, -, ⟨y, rfl, -⟩ | ⟨y, rfl, -⟩⟩ := of_isSkipped hskip
  · obtain h | ⟨_, h⟩ := Expr.role_of_mem_parts hq <;> cases h
  · obtain h | ⟨_, h⟩ := Expr.role_of_mem_parts hq <;> cases h

/-- What is made of the parts of a clean part is edited. -/
theorem of_madeOf {p q : Part} (hp : Clean callbacks p)
    (hskip : p.isSkipped (BadChannelUse.traversal (callbacks.map param)) = false)
    (hparts : ∀ r ∈ p.parts, r.isSkipped (BadChannelUse.traversal (callbacks.map param)) = false)
    (hq : q.MadeOf stmt expr p.parts) : Edited config callbacks stmt expr q := by
  cases hq with
  | expr hx role' => exact .expr (hp.of_mem_parts hx hskip) (hparts _ hx) role'
  | stmt hs ht => exact .stmt (hp.of_mem_parts hs hskip) ht
  | empty span => exact .empty span

/-- The parts of an edited part are edited. -/
theorem of_mem_parts (hrewrites : Rewrites config callbacks stmt expr) {p q : Part}
    (hp : Edited config callbacks stmt expr p) (hq : q ∈ p.parts) :
    Edited config callbacks stmt expr q := by
  cases hp with
  | @stmt s t hs ht =>
    by_cases hchannel : ∀ c ∈ callbacks, s.channel? ≠ some c.param
    · rw [hrewrites.other s hchannel] at ht
      obtain rfl := List.mem_singleton.mp ht
      refine of_madeOf hs rfl (fun r hr => ?_)
        (Stmt.allMadeOf hrewrites.length_le_one s q hq)
      by_contra hskip
      rw [Bool.not_eq_false] at hskip
      obtain ⟨c, hc, hchan⟩ := channel?_of_isSkipped hr hskip
      exact hchannel c hc hchan
    · obtain ⟨c, hc, hchan⟩ := Rewrites.exists_of_channel? hchannel
      cases s with
      | send chan value span =>
        rw [hrewrites.send c hc chan value span hchan] at ht
        obtain rfl := List.mem_singleton.mp ht
        obtain rfl := List.mem_singleton.mp hq
        have hvalue : Part.expr .use value ∈ (Stmt.send chan value span).parts :=
          List.mem_cons_of_mem _ (List.mem_singleton_self _)
        exact .post hc (hs.of_mem_parts hvalue rfl) span
      | expr x =>
        rw [hrewrites.close c hc x hchan] at ht
        cases ht
      | _ => cases hchan
  | @expr role x hx hskip role' =>
    change q ∈ (expr x).parts at hq
    rw [hrewrites.expr x] at hq
    exact of_madeOf hx hskip (fun r hr => not_isSkipped_of_mem_exprParts hr)
      (Expr.allMadeOf hrewrites.expr x q hq)
  | empty span => cases hq
  | post hc hvalue span =>
    rcases List.mem_cons.mp hq with rfl | hq
    · exact .helper hc _ _
    rcases List.mem_cons.mp hq with rfl | hq
    · exact .url _ _
    obtain rfl := List.mem_singleton.mp hq
    exact .expr hvalue rfl _
  | helper | url => cases hq

theorem of_contains (hrewrites : Rewrites config callbacks stmt expr) {p q : Part}
    (hp : Edited config callbacks stmt expr p) (hq : p.Contains q) :
    Edited config callbacks stmt expr q := by
  induction hq with
  | refl => exact hp
  | tail _ hstep ih => exact ih.of_mem_parts hrewrites hstep

/-- An identifier in an edited part names no callback, unless it is the function that posts. -/
theorem ident (hrewrites : Rewrites config callbacks stmt expr) {role : Role} {id : Ident}
    (h : Edited config callbacks stmt expr (.expr role (.ident id))) {c : Callback}
    (hc : c ∈ callbacks) (hid : id.name = c.param) : ∃ d ∈ callbacks, id.name = d.helper := by
  generalize hp : Part.expr role (.ident id) = p at h
  cases h with
  | stmt => cases hp
  | @expr role x hx hskip role' =>
    obtain ⟨-, hident⟩ := Part.expr.inj hp
    have hx' : x = .ident id := by
      rw [hrewrites.expr x] at hident
      cases x with
      | ident => exact hident.symm
      | _ => cases hident
    subst hx'
    have hevent : Event.expr role (.ident id) ∈
        (Expr.ident id).events (BadChannelUse.traversal (callbacks.map param)) role := by
      have hnot : ¬(BadChannelUse.traversal (callbacks.map param)).skip role (.ident id) = true :=
        Bool.not_eq_true _ ▸ hskip
      rw [Expr.events, if_neg hnot]
      exact List.mem_cons_self
    have hgood := hx _ hevent
    simp only [BadChannelUse.atEvent] at hgood
    rw [if_pos (List.contains_iff_mem.mpr (hid ▸ List.mem_map_of_mem hc))] at hgood
    cases hgood
  | empty | post => cases hp
  | @helper d hd =>
    cases hp
    exact ⟨d, hd, rfl⟩
  | url => cases hp

end Edited

end Callback

/-! ### Names of parameters and results -/

/-- The names that are not blank. -/
def Field.properNames (fields : List Field) : List String :=
  (Field.allNames fields).filter (· != "_")

theorem Field.properNames_append (fs gs : List Field) :
    properNames (fs ++ gs) = properNames fs ++ properNames gs := by
  simp only [properNames, allNames, List.flatMap_append, List.filter_append]

theorem Param.filterMap_name? (fields : List Field) :
    (fields.flatMap Param.ofField).filterMap Param.name? = Field.properNames fields := by
  induction fields with
  | nil => rfl
  | cons f fields ih =>
    have hone : (Param.ofField f).filterMap Param.name? = Field.properNames [f] := by
      unfold Param.ofField
      split
      · rename_i hnames
        simp [Field.properNames, Field.allNames, hnames]
      · simp only [Field.properNames, Field.allNames, List.flatMap_singleton]
        generalize f.names = names
        induction names with
        | nil => rfl
        | cons id names ihn =>
          rw [List.map_cons, List.map_cons, List.filterMap_cons, List.filter_cons, ← ihn]
          by_cases hblank : id.name = "_"
          · simp [Ident.isBlank, hblank]
          · simp [Ident.isBlank, hblank]
    rw [List.flatMap_cons, List.filterMap_append, ih, hone, ← Field.properNames_append,
      List.singleton_append]

/-- The callbacks of a function are parameters of it, in order. -/
theorem Function.map_param_callbacks_sublist (d : FuncDecl) :
    ((ofDecl d).callbacks.map Callback.param).Sublist (Field.properNames d.sig.params) := by
  rw [← Param.filterMap_name?, callbacks]
  change (List.map _ (List.filterMap _ (d.sig.params.flatMap Param.ofField))).Sublist _
  generalize d.sig.params.flatMap Param.ofField = params
  induction params with
  | nil => exact List.Sublist.refl _
  | cons p params ih =>
    rw [List.filterMap_cons, List.filterMap_cons]
    cases p.name? with
    | none => exact ih
    | some name =>
      cases p.elem? with
      | none => exact ih.cons name
      | some elem => exact ih.cons_cons name

/-! ### The body of a service -/

/-- The body of a function in its service, whose channels are used properly. -/
theorem Function.serviceBody_eq_ok {f : Function} {config : Config} {body entry : Block}
    (h : f.serviceBody config body = .ok entry) :
    badChannelUse? (f.callbacks.map Callback.param) (stripReturns f.decl.sig.arity body) = none ∧
      entry.stmts = f.decl.sig.resultDecls ++ (stripReturns f.decl.sig.arity body).stmts.flatMap
        (Callback.editor config f.callbacks).stmtOf := by
  unfold serviceBody at h
  obtain ⟨_, hcheck, h⟩ := exists_of_bind_eq_ok h
  obtain ⟨_, -, h⟩ := exists_of_bind_eq_ok h
  cases h
  refine ⟨?_, ?_⟩
  · unfold checkChannelUses at hcheck
    split at hcheck
    · cases hcheck
    · assumption
  · simp only [Callback.install, Editor.block_eq_mapStmts]
    rfl

/-- The declarations of results use no name but the blank one and those of results. -/
theorem Signature.name_of_mem_resultDecls {sig : Signature} {s : Stmt} (hs : s ∈ sig.resultDecls)
    {role : Role} {id : Ident} (h : (Part.stmt s).Contains (.expr role (.ident id))) :
    id.name = "_" ∨ id.name ∈ Field.properNames sig.results := by
  obtain hself | ⟨q, hq, hcontains⟩ := Relation.ReflTransGen.cases_head h
  · cases hself
  rcases List.mem_append.mp hs with hs | hs
  · obtain ⟨f, -, rfl⟩ := List.mem_map.mp hs
    cases hq
  obtain ⟨result, hresult, rfl⟩ := List.mem_map.mp hs
  have hname : ∀ n : Ident, q = .expr .use (.ident n) → id = n := by
    rintro n rfl
    obtain hself | ⟨r, hr, -⟩ := Relation.ReflTransGen.cases_head hcontains
    · cases hself
      rfl
    · cases hr
  rcases List.mem_cons.mp hq with hq | hq
  · exact .inl (congrArg Ident.name (hname _ hq))
  · obtain ⟨f, hf, hproper⟩ := List.mem_flatMap.mp hresult
    obtain ⟨hmem, hblank⟩ := List.mem_filter.mp hproper
    rw [hname _ (List.mem_singleton.mp hq)]
    have hall : result.name ∈ Field.allNames sig.results := List.mem_flatMap.mpr
      ⟨f, (List.mem_filter.mp hf).1, List.mem_map_of_mem hmem⟩
    exact .inr (List.mem_filter.mpr ⟨hall, by simpa [Ident.isBlank, Ident.made] using hblank⟩)

/-- The body of a function in its service: the named results are declared, the returns of the
function are gone, and sends on callbacks and closings of them are replaced, at any depth outside
types. No identifier there names a callback, though the function that posts may have the name of
one. -/
theorem Program.service_rewrites {program : Program} {config : Config} {d : FuncDecl}
    {service : Service} (h : program.service config (.ofDecl d) = .ok service)
    (hnames : (Field.properNames d.sig.fields).Nodup) :
    ∃ body entry needed rest, d.body = some body ∧
      service.file.decls = needed ++ [.func ((Function.ofDecl d).serviceDecl entry)] ++ rest ∧
      (∃ stmt expr, Callback.Rewrites config (Function.ofDecl d).callbacks stmt expr ∧
        entry.stmts = d.sig.resultDecls ++ (stripReturns d.sig.arity body).stmts.flatMap stmt) ∧
      ∀ s ∈ entry.stmts, ∀ role id, (Part.stmt s).Contains (.expr role (.ident id)) →
        ∀ c ∈ (Function.ofDecl d).callbacks, id.name = c.param →
          ∃ c' ∈ (Function.ofDecl d).callbacks, id.name = c'.helper := by
  obtain ⟨body, entry, needed, text, rest, hbody, hentry, -, -, -, hdecls⟩ :=
    Program.exists_of_service_eq_ok h
  obtain ⟨hgood, hstmts⟩ := Function.serviceBody_eq_ok hentry
  have hsplit : (Field.properNames d.sig.params ++ Field.properNames d.sig.results).Nodup := by
    rw [← Field.properNames_append]
    exact hnames
  have hsub := Function.map_param_callbacks_sublist d
  have hrewrites : Callback.Rewrites config (Function.ofDecl d).callbacks _ _ :=
    Callback.editor_rewrites ((List.nodup_append.mp hsplit).1.sublist hsub)
  refine ⟨body, entry, needed, rest, hbody, hdecls, ⟨_, _, hrewrites, hstmts⟩, ?_⟩
  intro s hs role id hcontains c hc hid
  rw [hstmts] at hs
  have hparam : id.name ∈ Field.properNames d.sig.params :=
    hid ▸ hsub.subset (List.mem_map_of_mem hc)
  rcases List.mem_append.mp hs with hs | hs
  · rcases Signature.name_of_mem_resultDecls hs hcontains with hblank | hresult
    · rw [hblank] at hparam
      simp [Field.properNames] at hparam
    · exact absurd rfl ((List.nodup_append.mp hsplit).2.2 _ hparam _ hresult)
  · obtain ⟨t, ht, hst⟩ := List.mem_flatMap.mp hs
    have hclean : Callback.Clean (Function.ofDecl d).callbacks (.stmt t) := by
      intro e he
      refine List.findSome?_eq_none_iff.mp hgood e ?_
      rw [Block.events_eq]
      exact List.mem_flatMap.mpr ⟨t, ht, he⟩
    exact ((Callback.Edited.stmt hclean hst).of_contains hrewrites hcontains).ident hrewrites hc hid

/-! ### Sends in literals and in types -/

/-- The function `func f(out chan int)` with a body. -/
def answering (body : List Stmt) : FuncDecl where
  recv := none
  name := .made "f"
  typeParams := []
  sig := ⟨[⟨[.made "out"], .chan .both (.named "int"), none, .synthetic⟩], []⟩
  body := some ⟨body, .synthetic⟩
  directives := []
  span := .synthetic

/-- The program of the function. -/
def answeringProgram (body : List Stmt) : Program :=
  ⟨⟨[], .made "main", [], [.func (answering body)]⟩, [.ofDecl (answering body)]⟩

/-- The literal `func() { body }`. -/
def thunk (body : Stmt) : Expr :=
  .funcLit ⟨[], []⟩ ⟨[body], .synthetic⟩ .synthetic

/-- The statement `out <- 1`. -/
def sendOut : Stmt :=
  .send (.ident (.made "out")) (.lit .int "1" .synthetic) (.range 0 1)

/-- The statements `emit := func() { body }; emit(); done: last`. -/
def emitting (body last : Stmt) : List Stmt :=
  [.assign [.ident (.made "emit")] .define [thunk body] .synthetic,
    .expr (.call (.ident (.made "emit")) [] false .synthetic),
    .labeled (.made "done") last .synthetic]

/-- The statements `emit := func() { out <- 1 }; emit(); done: close(out)`. -/
def literalSend : List Stmt :=
  emitting sendOut
    (.expr (.call (.ident (.made "close")) [.ident (.made "out")] false .synthetic))

/-- The callback of the function. -/
def outCallback : Callback :=
  ⟨"f", "out", .named "int", "f_out"⟩

/-- The statements of the service: a post stands in the literal, and nothing under the label. -/
def literalPost : List Stmt :=
  emitting (outCallback.post {} (.lit .int "1" .synthetic) (.range 0 1)) (.empty .synthetic)

theorem Callback.Rewrites.flatMap_literalSend {stmt : Stmt → List Stmt} {expr : Expr → Expr}
    (h : Rewrites {} [outCallback] stmt expr) : literalSend.flatMap stmt = literalPost := by
  have hout : outCallback ∈ [outCallback] := List.mem_singleton_self _
  have hlit : stmt sendOut = [outCallback.post {} (.lit .int "1" .synthetic) (.range 0 1)] := by
    rw [sendOut, h.send _ hout _ _ _ rfl, h.expr]
    rfl
  have hthunk : expr (thunk sendOut) =
      thunk (outCallback.post {} (.lit .int "1" .synthetic) (.range 0 1)) := by
    rw [h.expr, thunk, Expr.mapParts, Block.mapStmts, List.flatMap_singleton, hlit]
    rfl
  have hother (s : Stmt) (hs : s.channel? = none) : stmt s = [s.mapParts stmt expr] :=
    h.other s fun _ _ => by simp [hs]
  have hname : expr (.ident (.made "emit")) = .ident (.made "emit") := h.expr _
  have hcall : expr (.call (.ident (.made "emit")) [] false .synthetic) =
      .call (.ident (.made "emit")) [] false .synthetic := by
    rw [h.expr, Expr.mapParts, hname]
    rfl
  rw [literalSend, emitting, List.flatMap_cons, List.flatMap_cons,
    List.flatMap_singleton, hother _ rfl, hother _ rfl, h.label _ hout _ _ _ rfl]
  simp only [Stmt.mapParts, List.map_cons, List.map_nil, hname, hthunk, hcall]
  rfl

theorem literalSend_rewrites : ∃ service entry,
    (answeringProgram literalSend).service {} (.ofDecl (answering literalSend)) = .ok service ∧
      .func ((Function.ofDecl (answering literalSend)).serviceDecl entry) ∈ service.file.decls ∧
      entry.stmts = literalPost ∧
      ∀ s ∈ literalPost, ∀ role id,
        (Part.stmt s).Contains (.expr role (.ident id)) → id.name ≠ "out" := by
  obtain ⟨service, hservice⟩ : ∃ service,
      (answeringProgram literalSend).service {} (.ofDecl (answering literalSend)) =
        .ok service := by
    have hsingle : checkSingleSend literalSend ["out"] = .ok () := by
      with_unfolding_all rfl
    have hentry : (Function.ofDecl (answering literalSend)).serviceBody {}
        ⟨literalSend, .synthetic⟩ = .ok ⟨literalPost, .synthetic⟩ := by
      change ((checkSingleSend literalSend ["out"]).mapError _ >>= _) = _
      rw [hsingle]
      rfl
    refine Program.exists_service_of_f [] rfl rfl rfl hentry rfl (List.forall_mem_nil _) ?_
    exact List.forall_mem_singleton.mpr rfl
  obtain ⟨body, entry, needed, rest, hbody, hdecls, ⟨stmt, expr, hrewrites, hstmts⟩, hident⟩ :=
    Program.service_rewrites hservice (by decide)
  cases hbody
  replace hstmts : entry.stmts = literalPost := hstmts.trans hrewrites.flatMap_literalSend
  rw [hstmts] at hident
  refine ⟨service, entry, hservice, ?_, hstmts, ?_⟩
  · rw [hdecls]
    simp
  · rintro s hs role id hcontains hid
    obtain ⟨c, hc, hhelper⟩ :=
      hident s hs role id hcontains outCallback (List.mem_singleton_self _) hid
    obtain rfl := List.mem_singleton.mp hc
    exact absurd (hid.symm.trans hhelper) (by decide)

/-- The statements `var x [len([1]func(){func() { out <- 1 }})]int; println(len(x))`. The length
counts the literal without calling it. -/
def typeSend : List Stmt :=
  let call (fn : String) (arg : Expr) := Expr.call (.ident (.made fn)) [arg] false .synthetic
  let literals := Expr.composite
    (some (.type (.array (some (.lit .int "1" .synthetic)) (.func ⟨[], []⟩)) .synthetic))
    [thunk sendOut] .synthetic
  [.decl ⟨.var, [.value [.made "x"] (some (.array (some (call "len" literals)) (.named "int"))) []
      .synthetic], false, [], .synthetic⟩,
    .expr (call "println" (call "len" (.ident (.made "x"))))]

/-- A send in a type remains in the service, where its channel is no longer a parameter. -/
theorem typeSend_remains : ∃ service,
    (answeringProgram typeSend).service {} (.ofDecl (answering typeSend)) = .ok service ∧
      (Function.ofDecl (answering typeSend)).callbacks.map Callback.param = ["out"] ∧
      .func ((Function.ofDecl (answering typeSend)).serviceDecl ⟨typeSend, .synthetic⟩) ∈
        service.file.decls := by
  obtain ⟨service, hservice⟩ : ∃ service,
      (answeringProgram typeSend).service {} (.ofDecl (answering typeSend)) = .ok service := by
    refine Program.exists_service_of_f [] rfl rfl rfl rfl rfl (List.forall_mem_nil _) ?_
    exact List.forall_mem_singleton.mpr rfl
  obtain ⟨body, entry, copied, text, rest, hbody, hentry, -, -, -, hdecls⟩ :=
    Program.exists_of_service_eq_ok hservice
  cases hbody
  obtain rfl := Except.ok.inj hentry
  refine ⟨service, hservice, rfl, ?_⟩
  rw [hdecls]
  exact List.mem_append_left _ (List.mem_append_right _ (List.mem_singleton_self _))

end ServiceSplit
