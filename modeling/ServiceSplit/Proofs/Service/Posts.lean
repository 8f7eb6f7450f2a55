import ServiceSplit.Proofs.Editor.Paths
import ServiceSplit.Proofs.Service.Synthesis
import ServiceSplit.Proofs.Text.Quoted

/-!
# Posts of a service

A service posts along its paths what the launched function sends along its own, with one difference:
the returns of the function are removed. A path of the function that returns early goes on in the
service behind the `return`.
-/

namespace ServiceSplit

/-- A value that is sent on the channel of an endpoint, or posted to the endpoint. -/
abbrev Delivery :=
  String × Expr

/-- What an expression posts as a statement: a call of one of the two functions that post, with the
address of a callback. -/
def Callback.posted (config : Config) (callbacks : List Callback) : Expr → List Delivery
  | .call (.ident fn) [.lit .string raw _, value] false _ =>
    if fn.name = "kompileCallback" ∨ fn.name = "kompileCallbackError" then
      ((callbacks.find? fun c => Text.quote (c.url config) == raw).map fun c =>
        (c.endpoint, value)).toList
    else []
  | _ => []

/-- What a path of a launched function delivers: it sends on the channels of the callbacks, and may
call the functions that post itself. Calls that never return end a path, and `return` does if
`returnEnds` is set; otherwise it is passed over. -/
def deliveryView (config : Config) (callbacks : List Callback) (returnEnds : Bool) :
    View Delivery where
  shows
    | .send chan value _ =>
      ((Callback.find? callbacks chan).map fun c => (c.endpoint, value)).toList
    | .expr x => Callback.posted config callbacks x
    | _ => []
  ends
    | .expr x => x.isTerminatingCall
    | .returns .. => returnEnds
    | _ => false

/-- What a path of a service posts. -/
def postView (config : Config) (callbacks : List Callback) : View Delivery where
  shows
    | .expr x => Callback.posted config callbacks x
    | _ => []
  ends
    | .expr x => x.isTerminatingCall
    | .returns .. => true
    | _ => false

variable {config : Config} {callbacks : List Callback}

/-! ### Removing the returns -/

private theorem literalFree_filter {xs : List Expr} {role : Role}
    (h : LiteralFree (exprsEvents {} role xs)) (p : Expr → Bool) :
    LiteralFree (exprsEvents {} role (xs.filter p)) := by
  induction xs with
  | nil => exact h
  | cons x xs ih =>
    simp only [exprsEvents, literalFree_append] at h
    rw [List.filter_cons]
    split
    · exact (literalFree_append _ _).mpr ⟨h.1, ih h.2⟩
    · exact ih h.2

private theorem literalFree_blanks (n : Nat) (role : Role) :
    LiteralFree (exprsEvents {} role (List.replicate n Expr.blank)) := by
  induction n with
  | zero => exact literalFree_nil
  | succ n ih => exact (literalFree_append _ _).mpr ⟨List.forall_mem_singleton.mpr rfl, ih⟩

private theorem discardResults_cases (arity : Nat) {xs : List Expr} (sp : Span)
    (hlit : LiteralFree (exprsEvents {} .use xs)) :
    discardResults arity xs sp = [] ∨ ∃ lhs rhs, discardResults arity xs sp =
      [.assign lhs .assign rhs sp] ∧ LiteralFree ((Stmt.assign lhs .assign rhs sp).events {}) := by
  unfold discardResults
  extract_lets kept width
  split
  · exact Or.inl rfl
  · refine Or.inr ⟨_, _, rfl, ?_⟩
    simp only [Stmt.events, literalFree_cons, literalFree_append]
    exact ⟨⟨rfl, literalFree_blanks width _, literalFree_filter hlit _⟩, rfl, literalFree_nil⟩

/-- Without returns, the paths are those that pass over them. -/
theorem returnEditor_keepsPaths (arity : Nat) :
    (returnEditor arity).KeepsPaths (deliveryView config callbacks false)
      (deliveryView config callbacks true) where
  exprs := fun _ _ _ => rfl
  atomic := by
    intro s hs hlit
    cases s with
    | returns xs sp =>
      simp only [Stmt.events, literalFree_cons, literalFree_append] at hlit
      rcases discardResults_cases arity sp hlit.1.2 with h | ⟨lhs, rhs, h, hassign⟩
      · exact ⟨none, h, literalFree_nil, fun _ => rfl⟩
      · exact ⟨some (.assign lhs .assign rhs sp), h, hassign, fun _ => rfl⟩
    | decl | expr | send | incDec | assign | go | defer | empty =>
      exact ⟨some _, rfl, hlit, fun _ => rfl⟩
    | _ => cases hs
  compound := by
    intro s s' hs _
    cases s with
    | returns => cases hs
    | _ => rfl
  empty := fun _ => rfl

/-! ### Posting instead of sending -/

private theorem endpoint_eq_of_url_eq {c d : Callback} (h : c.url config = d.url config) :
    c.endpoint = d.endpoint := by
  unfold Callback.url at h
  exact (String.append_right_inj _).mp h

/-- A post posts the value of the send it stands for. -/
theorem Callback.posted_post {c : Callback} (hc : c ∈ callbacks) (value : Expr) (span : Span) :
    posted config callbacks (.call (.ident ⟨c.helper, span⟩)
      [.lit .string (Text.quote (c.url config)) .synthetic, value] false span) =
        [(c.endpoint, value)] := by
  have hhelper : c.helper = "kompileCallback" ∨ c.helper = "kompileCallbackError" := by
    unfold helper
    split
    · exact Or.inr rfl
    · exact Or.inl rfl
  have hfind : ∃ d, (callbacks.find? fun d =>
      Text.quote (d.url config) == Text.quote (c.url config)) = some d ∧
        d.endpoint = c.endpoint := by
    cases hd : callbacks.find? fun d => Text.quote (d.url config) == Text.quote (c.url config) with
    | none => exact absurd BEq.rfl (List.find?_eq_none.mp hd c hc)
    | some d =>
      have hquote := List.find?_some hd
      exact ⟨d, rfl, endpoint_eq_of_url_eq (Text.quote_injective (beq_iff_eq.mp hquote))⟩
  obtain ⟨d, hd, hendpoint⟩ := hfind
  rw [posted, if_pos hhelper, hd, Option.map_some, hendpoint, Option.toList_some]

private theorem post_returns (c : Callback) (args : List Expr) (span : Span) :
    (Expr.call (.ident ⟨c.helper, span⟩) args false span).isTerminatingCall = false := by
  simp only [Expr.isTerminatingCall, Expr.asName, Expr.asIdent, Option.map_some, Callback.helper]
  split <;> decide

private theorem mem_of_find? {e : Expr} {c : Callback} (h : Callback.find? callbacks e = some c) :
    c ∈ callbacks := by
  unfold Callback.find? at h
  split at h
  · exact List.mem_reverse.mp (List.mem_of_find?_eq_some h)
  · cases h

private theorem literalFree_post {c : Callback} {value : Expr} {span : Span}
    (h : LiteralFree (value.events {} .use)) :
    LiteralFree ((c.post config value span).events {}) := by
  have hargs : LiteralFree (exprsEvents {} .use
      [.lit .string (Text.quote (c.url config)) .synthetic, value]) := by
    simp only [exprsEvents, literalFree_append]
    exact ⟨List.forall_mem_singleton.mpr rfl, h, literalFree_nil⟩
  rw [Callback.post, Stmt.events, Expr.events]
  simp only [Bool.false_eq_true, ↓reduceIte, literalFree_cons, literalFree_append]
  exact ⟨⟨rfl, rfl, List.forall_mem_singleton.mpr rfl, hargs⟩, rfl, literalFree_nil⟩

/-- The name that a call closes is that of a call of `close` with one argument. -/
private theorem exists_of_closeTarget {x : Expr} {name : String}
    (h : x.closeTarget = some name) :
    ∃ fn arg spread sp, x = .call fn [arg] spread sp ∧ fn.asName = some "close" := by
  unfold Expr.closeTarget at h
  split at h
  · split at h
    · rename_i fn arg spread sp hfn
      exact ⟨fn, arg, spread, sp, rfl, beq_iff_eq.mp hfn⟩
    · cases h
  · cases h

private theorem close_runs {x : Expr} {name : String} (h : x.closeTarget = some name) :
    (deliveryView config callbacks true).simple (.expr x) = .skip := by
  obtain ⟨fn, arg, spread, sp, rfl, hfn⟩ := exists_of_closeTarget h
  have hposted : Callback.posted config callbacks (.call fn [arg] spread sp) = [] := by
    unfold Callback.posted
    split
    · rename_i heq
      cases heq
    · rfl
  have hreturns : (Expr.call fn [arg] spread sp).isTerminatingCall = false := by
    rw [Expr.isTerminatingCall, hfn]
    rfl
  simp only [View.simple, deliveryView, hposted, hreturns]
  rfl

/-- With posts instead of sends, the paths post what they sent. -/
theorem callbackEditor_keepsPaths :
    (Callback.editor config callbacks).KeepsPaths (deliveryView config callbacks true)
      (postView config callbacks) where
  exprs := fun _ _ _ => rfl
  atomic := by
    intro s hs hlit
    cases s with
    | send chan value sp =>
      simp only [Stmt.events, literalFree_cons, literalFree_append] at hlit
      cases hfind : Callback.find? callbacks chan with
      | none =>
        refine ⟨some (.send chan value sp), ?_, ?_, fun label => ?_⟩
        · simp only [Callback.editor, Id.run_pure, hfind]
          rfl
        · simp only [stmtEvents?, Stmt.events, literalFree_cons, literalFree_append]
          exact hlit
        · simp only [labeledRuns?, Stmt.runs, View.simple, deliveryView, hfind]
          rfl
      | some c =>
        refine ⟨some (c.post config value sp), ?_, ?_, fun label => ?_⟩
        · simp only [Callback.editor, Id.run_pure, hfind]
          rfl
        · exact literalFree_post hlit.1.2.2
        · simp only [labeledRuns?, Callback.post, Stmt.runs, View.simple, deliveryView,
            postView, hfind,
            Callback.posted_post (mem_of_find? hfind), post_returns]
          rfl
    | expr x =>
      by_cases hclose : (x.closeTarget.any fun name => callbacks.any (·.param == name)) = true
      · obtain ⟨name, hname⟩ : ∃ name, x.closeTarget = some name := by
          cases hname : x.closeTarget with
          | none => simp [hname] at hclose
          | some name => exact ⟨name, rfl⟩
        refine ⟨none, ?_, literalFree_nil, fun label => (close_runs hname).symm⟩
        simp only [Callback.editor, Id.run_pure, hclose, ↓reduceIte]
        rfl
      · refine ⟨some (.expr x), ?_, hlit, fun _ => rfl⟩
        simp only [Callback.editor, Id.run_pure, hclose]
        rfl
    | decl | returns | incDec | assign | go | defer | empty =>
      exact ⟨some _, rfl, hlit, fun _ => rfl⟩
    | _ => cases hs
  compound := by
    intro s s' _ hs
    cases s' with
    | send | expr => cases hs
    | _ => rfl
  empty := fun _ => rfl

/-! ### The body of a service -/

private theorem stmtsRuns_append_of_skip {V : View Delivery} {ss : List Stmt}
    (h : ∀ s ∈ ss, s.runs V none = .skip) (rs : List Stmt) :
    stmtsRuns V (ss ++ rs) = stmtsRuns V rs := by
  induction ss with
  | nil => rfl
  | cons s ss ih =>
    rw [List.cons_append, stmtsRuns, h s List.mem_cons_self,
      Runs.skip_andThen (stmtsRuns_cut V _), ih fun r hr => h r (List.mem_cons_of_mem s hr)]

private theorem resultDecls_runs (sig : Signature) : ∀ s ∈ sig.resultDecls,
    s.runs (postView config callbacks) none = .skip := by
  intro s hs
  rcases List.mem_append.mp hs with hs | hs
  · obtain ⟨field, -, rfl⟩ := List.mem_map.mp hs
    rfl
  · obtain ⟨id, -, rfl⟩ := List.mem_map.mp hs
    rfl

/-- The body of a service posts what the body of the function sends, where `return` is passed
over. -/
theorem Function.serviceBody_runs {f : Function} {body entry : Block}
    (hentry : f.serviceBody config body = .ok entry) (hlit : LiteralFree (body.events {})) :
    stmtsRuns (postView config f.callbacks) entry.stmts =
      stmtsRuns (deliveryView config f.callbacks false) body.stmts := by
  obtain ⟨-, -, hentry⟩ := exists_of_bind_eq_ok hentry
  obtain ⟨-, -, hentry⟩ := exists_of_bind_eq_ok hentry
  cases hentry
  have hreturn : (returnEditor f.decl.sig.arity).KeepsPaths
      (deliveryView config f.callbacks false) (deliveryView config f.callbacks true) :=
    returnEditor_keepsPaths f.decl.sig.arity
  have hcallback : (Callback.editor config f.callbacks).KeepsPaths
      (deliveryView config f.callbacks true) (postView config f.callbacks) :=
    callbackEditor_keepsPaths
  obtain ⟨hstripped, hreturns⟩ := hreturn.block_runs hlit
  obtain ⟨-, hposts⟩ := hcallback.block_runs hstripped
  rw [stmtsRuns_append_of_skip (resultDecls_runs _), ← Block.runs_eq, ← Block.runs_eq]
  exact hposts.trans hreturns

/-- The entry function of a service posts along its paths what the launched function sends along
its own, where `return` is passed over. -/
theorem Program.service_posts {program : Program} {f : Function} {service : Service}
    (hservice : program.service config f = .ok service)
    (hlit : ∀ body, f.decl.body = some body → LiteralFree (body.events {})) :
    ∃ body entry, f.decl.body = some body ∧ .func (f.serviceDecl entry) ∈ service.file.decls ∧
      ∀ t x, stmtsRuns (postView config f.callbacks) entry.stmts t x ↔
        stmtsRuns (deliveryView config f.callbacks false) body.stmts t x := by
  obtain ⟨body, entry, needed, text, rest, hbody, hentry, -, -, -, hdecls⟩ :=
    Program.exists_of_service_eq_ok hservice
  refine ⟨body, entry, hbody, ?_, fun t x => ?_⟩
  · rw [hdecls]
    simp
  · rw [Function.serviceBody_runs hentry (hlit body hbody)]

/-! ### Returning early -/

/-- A function that returns early:
`func f(failed, out chan int) { if time.Now().IsZero() { failed <- 0; return }; out <- 1 }`. -/
def earlyReturn : FuncDecl :=
  let name (n : String) := Expr.ident (.made n)
  let call (fn : Expr) := Expr.call fn [] false .synthetic
  let now := call (.selector (name "time") (.made "Now") .synthetic)
  let send (chan value : String) (span : Span) :=
    Stmt.send (name chan) (.lit .int value .synthetic) span
  { recv := none
    name := .made "f"
    typeParams := []
    sig := ⟨[⟨[.made "failed", .made "out"], .chan .both (.named "int"), none, .synthetic⟩], []⟩
    body := some ⟨[
      .ifElse none (call (.selector now (.made "IsZero") .synthetic))
        ⟨[send "failed" "0" (.range 0 1), .returns [] .synthetic], .synthetic⟩ none .synthetic,
      send "out" "1" (.range 2 3)], .synthetic⟩
    directives := []
    span := .synthetic }

/-- The program of the function that returns early. -/
def earlyReturnProgram : Program :=
  ⟨⟨[], .made "main", [.made "time"], [.func earlyReturn]⟩, [.ofDecl earlyReturn]⟩

private theorem exists_earlyReturn_service :
    ∃ service, earlyReturnProgram.service {} (.ofDecl earlyReturn) = .ok service := by
  refine Program.exists_service_of_f [] rfl rfl rfl rfl rfl ?_ ?_
  · decide
  · intro d hd
    rw [List.mem_singleton.mp hd]
    rfl

/-- The posts of a function that returns early. -/
theorem earlyReturn_service_posts : ∃ service body entry,
    earlyReturnProgram.service {} (.ofDecl earlyReturn) = .ok service ∧
      earlyReturn.body = some body ∧
      .func ((Function.ofDecl earlyReturn).serviceDecl entry) ∈ service.file.decls ∧
      ∀ t x, stmtsRuns (postView {} (Function.ofDecl earlyReturn).callbacks) entry.stmts t x ↔
        stmtsRuns (deliveryView {} (Function.ofDecl earlyReturn).callbacks false) body.stmts
        t x := by
  obtain ⟨service, hservice⟩ := exists_earlyReturn_service
  have hlit : ∀ body, (Function.ofDecl earlyReturn).decl.body = some body →
      LiteralFree (body.events {}) := by
    rintro _ ⟨⟩
    decide
  obtain ⟨body, entry, hbody, hmem, hposts⟩ := Program.service_posts hservice hlit
  exact ⟨service, body, entry, hservice, hbody, hmem, hposts⟩

private theorem step_length {α : Type} {shown t : List α} {x y : Exit}
    (h : Runs.step shown x t y) : t.length ≤ shown.length := by
  rcases h with ⟨rfl, -⟩ | ⟨rfl, -⟩
  · exact Nat.zero_le _
  · exact Nat.le_refl _

/-- Where `return` ends a path, a branch that returns keeps what it shows apart from what
follows. -/
private theorem length_le_of_early_return {α : Type} {V : View α} {s s' : Stmt} {cond : Expr}
    {sp sp' sp'' : Span} (hs : s.isAtomic = true) (hs' : s'.isAtomic = true)
    (hshows : (V.shows s).length ≤ 1) (hshows' : (V.shows s').length ≤ 1)
    (hends : V.ends (.returns [] sp) = true) (hnone : V.shows (.returns [] sp) = [])
    {t : List α} {x : Exit}
    (h : stmtsRuns V [.ifElse none cond ⟨[s, .returns [] sp], sp'⟩ none sp'', s'] t x) :
    t.length ≤ 1 := by
  have hreturn : ∀ u y, stmtsRuns V [.returns [] sp] u y → u = [] ∧ y ≠ .next := by
    rintro u y (⟨hu | hu, hy⟩ | ⟨a, b, ha | ha, -⟩)
    · exact ⟨hu.1, hy⟩
    · exact ⟨hu.1.trans hnone, hy⟩
    · cases ha.2
    · rw [hends] at ha
      cases ha.2
  have hbranch : ∀ u y, stmtsRuns V [s, .returns [] sp] u y → u.length ≤ 1 ∧ y ≠ .next := by
    rintro u y (⟨hu, hy⟩ | ⟨a, b, ha, hb, rfl⟩)
    · rw [Stmt.runs_of_isAtomic hs] at hu
      exact ⟨Nat.le_trans (step_length hu) hshows, hy⟩
    · rw [Stmt.runs_of_isAtomic hs] at ha
      obtain ⟨rfl, hy⟩ := hreturn b y hb
      rw [List.append_nil]
      exact ⟨Nat.le_trans (step_length ha) hshows, hy⟩
  have hif : ∀ u y, (Stmt.ifElse none cond ⟨[s, .returns [] sp], sp'⟩ none sp'').runs V none u y →
      u.length ≤ 1 ∧ (y = .next → u = []) := by
    rintro u y (⟨hu, hy⟩ | ⟨a, b, ha, hb, rfl⟩)
    · exact ⟨Nat.le_trans (step_length hu) (Nat.zero_le 1), fun h => absurd h hy⟩
    · obtain rfl := List.eq_nil_of_length_eq_zero (Nat.le_zero.mp (step_length ha))
      rcases hb with hb | hb
      · obtain ⟨hlength, hy⟩ := hbranch b y hb
        exact ⟨hlength, fun h => absurd h hy⟩
      · obtain rfl := List.eq_nil_of_length_eq_zero (Nat.le_zero.mp (step_length hb))
        exact ⟨Nat.zero_le 1, fun _ => rfl⟩
  rcases h with ⟨h, -⟩ | ⟨a, b, ha, hb, rfl⟩
  · exact (hif t x h).1
  · obtain rfl := (hif a .next ha).2 rfl
    rcases hb with ⟨hb, -⟩ | ⟨c, d, hc, hd, rfl⟩
    · rw [Stmt.runs_of_isAtomic hs'] at hb
      exact Nat.le_trans (step_length hb) hshows'
    · rw [Stmt.runs_of_isAtomic hs'] at hc
      obtain rfl := List.eq_nil_of_length_eq_zero (Nat.le_zero.mp (step_length hd))
      rw [List.nil_append, List.append_nil]
      exact Nat.le_trans (step_length hc) hshows'

/-- A function that returns early sends on one of its channels, and its service posts for both. -/
theorem earlyReturn_posts_more : ∃ service body entry,
    earlyReturnProgram.service {} (.ofDecl earlyReturn) = .ok service ∧
      earlyReturn.body = some body ∧ LiteralFree (body.events {}) ∧
      .func ((Function.ofDecl earlyReturn).serviceDecl entry) ∈ service.file.decls ∧
      ∃ t x, stmtsRuns (postView {} (Function.ofDecl earlyReturn).callbacks) entry.stmts t x ∧
        ∀ y, ¬stmtsRuns (deliveryView {} (Function.ofDecl earlyReturn).callbacks true)
          body.stmts t y := by
  obtain ⟨service, hservice⟩ := exists_earlyReturn_service
  obtain ⟨body, entry, needed, text, rest, hbody, hentry, -, -, -, hdecls⟩ :=
    Program.exists_of_service_eq_ok hservice
  cases hbody
  have hlit : LiteralFree (Block.events {} (earlyReturn.body.getD default)) := by decide
  refine ⟨service, _, entry, hservice, rfl, hlit, ?_,
    [("f_failed", .lit .int "0" .synthetic), ("f_out", .lit .int "1" .synthetic)], .next, ?_,
    fun y hy => ?_⟩
  · rw [hdecls]
    simp
  · rw [Function.serviceBody_runs hentry hlit]
    -- The path goes through the branch, passes the `return` and goes on with the send behind it.
    refine Or.inr ⟨[_], [_], Or.inr ⟨[], [_], Or.inr ⟨rfl, rfl⟩, Or.inl ?_, rfl⟩, ?_, rfl⟩
    · refine Or.inr ⟨[_], [], Or.inr ⟨rfl, rfl⟩, ?_, rfl⟩
      exact Or.inr ⟨[], [], Or.inr ⟨rfl, rfl⟩, Or.inr ⟨rfl, rfl⟩, rfl⟩
    · exact Or.inr ⟨[_], [], Or.inr ⟨rfl, rfl⟩, Or.inr ⟨rfl, rfl⟩, rfl⟩
  · have hlength := length_le_of_early_return rfl rfl (by decide) (by decide) rfl rfl hy
    exact absurd hlength (by decide)

end ServiceSplit
