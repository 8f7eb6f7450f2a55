import ServiceSplit.Proofs.Dependency.Reachable
import ServiceSplit.Proofs.Outcomes
import ServiceSplit.Proofs.Sends.Literals
import ServiceSplit.Proofs.Tree.Shape
import ServiceSplit.Service.Callback

/-!
# Where a function is refused

What keeps a function from becoming a service stands at a place of the program: a use of a channel,
a second send on it, or a reference to a variable of the package.
-/

namespace ServiceSplit

variable {K : Known}

theorem Expr.Every.span_asIdent {x : Expr} (h : x.Every (.intact K)) {id : Ident}
    (hid : x.asIdent = some id) : K.span id.span := by
  have hparts := (Expr.every_iff _ (fun _ _ _ => trivial) x).mp h
  fun_induction Expr.asIdent x with
  | case1 => exact Option.some.inj hid ▸ hparts.1.2
  | case2 x sp ih => exact ih hparts.2 hid ((Expr.every_iff _ (fun _ _ _ => trivial) x).mp hparts.2)
  | case3 => cases hid

/-! ### Uses of channels -/

namespace BadChannelUse

variable {channels : List String} {bad : BadChannelUse}

theorem of_shadowing {names : List String} {span : Span}
    (h : shadowing channels names span = some bad) :
    names ≠ [] ∧ bad.span = span := by
  obtain ⟨name, hname, rfl⟩ := Option.map_eq_some_iff.mp h
  exact ⟨List.ne_nil_of_mem (List.mem_of_find?_eq_some hname), rfl⟩

theorem span_inStmt {s : Stmt} (hs : s.Every (.intact K)) (h : inStmt channels s = some bad) :
    K.span bad.span := by
  obtain ⟨hstmt, hparts⟩ := (Stmt.every_iff _ _).mp hs
  rcases Option.or_eq_some_iff.mp h with h | ⟨-, h⟩
  · obtain ⟨hne, hspan⟩ := of_shadowing h
    rw [hspan]
    cases s with
    | decl d => exact hstmt.span
    | assign lhs op rhs sp => exact hstmt.2.2
    | labeled l s sp => exact hstmt.2
    | _ => exact absurd rfl hne
  · split at h
    · exact (of_shadowing h).2 ▸ hstmt
    · exact (of_shadowing h).2 ▸ (hstmt.2.2 _ rfl).2
    · obtain ⟨c, hc, h⟩ := List.exists_of_findSome?_eq_some h
      unfold inClause at h
      split at h
      · rename_i hcomm
        split at h
        · rename_i hid
          split at h
          · cases h
            have hsend := (hparts c hc).1 _ hcomm
            exact ((Stmt.every_iff _ _).mp hsend).2.1.span_asIdent hid
          · cases h
        · cases h
      · cases h
    · cases h

end BadChannelUse

/-- A use of a channel that a callback cannot have stands at a place of the body. -/
theorem span_badChannelUse? {channels : List String} {body : Block} {bad : BadChannelUse}
    (hbody : body.Every (.intact K)) (h : badChannelUse? channels body = some bad) :
    K.span bad.span := by
  have hthins := body.thins_events (BadChannelUse.traversal channels)
  have hall := Block.allHave_events.mpr hbody
  obtain ⟨e, he, h⟩ := List.exists_of_findSome?_eq_some h
  have hhas := hall e (hthins.sublist.subset he)
  unfold BadChannelUse.atEvent at h
  split at h
  · exact BadChannelUse.span_inStmt (fun e' he' => hall e' (hthins.inside _ he he')) h
  · split at h
    · cases h
      exact hhas.2
    · cases h
  · obtain ⟨_, hlit⟩ := hhas
    exact (BadChannelUse.of_shadowing h).2 ▸ hlit.2
  · cases h

/-! ### Second sends -/

namespace Sends

variable {channels : List String} {α β : Type}

/-- Second sends, and the sends met so far, stand at known places. -/
def Walks (K : Known) (m : Walk α) : Prop :=
  ((Outcomes.orError fun e : ExtraSend => K.span e.span).keeping fun log : Log =>
    ∀ s ∈ log.seen, K.span s.2).Gives m fun _ => True

theorem Walks.pure {a : α} : Walks K (Pure.pure a : Walk α) :=
  Outcomes.pure _ trivial

theorem Walks.bind {m : Walk α} {f : α → Walk β} (h : Walks K m) (hf : ∀ a, Walks K (f a)) :
    Walks K (m >>= f) :=
  Outcomes.Gives.bind h fun a _ => hf a

theorem Walks.chained : Chained fun _ m => Walks K m :=
  ⟨fun _ => .pure, .bind⟩

theorem Walks.get : Walks K (get : Walk Log) :=
  Outcomes.Gives.mono Outcomes.keeping_get fun _ _ => trivial

theorem Walks.modify {f : Log → Log}
    (h : ∀ log, (∀ s ∈ log.seen, K.span s.2) → ∀ s ∈ (f log).seen, K.span s.2) :
    Walks K (modify f : Walk PUnit) :=
  Outcomes.keeping_modify h

theorem walks_record {channel : String} {span : Span} (h : K.span span) (p : Path) :
    Walks K (record channel span p) := by
  unfold record
  split
  · exact fun _ _ => h
  · refine (Walks.modify fun log hlog => ?_).bind fun _ => .pure
    exact List.forall_mem_append.mpr ⟨hlog, List.forall_mem_singleton.mpr h⟩

theorem walks_jump (isContinue : Bool) (label : Option Ident) (p : Path) :
    Walks K (jump isContinue label p) :=
  .bind (.modify fun _ hlog => hlog) fun _ => .pure

theorem walks_leaving {t : Target} {part : Walk Path} (h : Walks K part) :
    Walks K (leaving t part) :=
  .bind .get fun _ => .bind (.modify fun _ hlog => hlog) fun _ => .bind h fun _ =>
    .bind .get fun _ =>
    .bind (.modify fun _ hlog => hlog) fun _ => .pure

theorem walks_choice {label : Option String} {part : Walk Path} (h : Walks K part) :
    Walks K (choice label part) :=
  (walks_leaving h).bind fun _ => .pure

theorem walks_loop {label : Option String} {mayStop : Bool} {body post : Path → Walk Path}
    (hbody : ∀ p, Walks K (body p)) (hpost : ∀ p, Walks K (post p)) (p : Path) :
    Walks K (loop label mayStop body post p) := by
  have hround : ∀ p, Walks K (round label body post p) := fun p => by
    refine (walks_leaving (hbody p)).bind fun _ => ?_
    dsimp only
    split
    · exact .pure
    · exact (hpost _).bind fun _ => .pure
  have hrounds : ∀ n p, Walks K (rounds mayStop (round label body post) n p) := by
    intro n
    induction n with
    | zero => exact fun _ => .pure
    | succ n ih =>
      intro p
      rw [rounds]
      split
      · exact .pure
      · exact (hround p).bind fun _ => (ih _).bind fun _ => .pure
  exact (hrounds 2 p).bind fun _ => .pure

/-- The sends of a literal stand where they were met. -/
theorem walks_literal {body : Walk Path} (h : Walks K body) (p : Path) :
    Walks K (literal body p) := by
  refine Outcomes.keeping_get.bind fun outer houter =>
    (Outcomes.keeping_set (List.forall_mem_nil _)).bind fun _ _ => Outcomes.Gives.bind h fun _ _ =>
    Outcomes.keeping_get.bind fun inner hinner => (Outcomes.keeping_set houter).bind fun _ _ => ?_
  refine Walks.chained.list
    (f := fun sends p => sends.foldlM (fun p (channel, span) => record channel span p) p)
    (fun s p => record s.1 s.2 p) (fun _ => rfl) (fun _ _ _ => List.foldlM_cons) (fun s hs => ?_) p
  obtain ⟨c, -, hc⟩ := List.mem_filterMap.mp hs
  obtain ⟨span, hspan, rfl⟩ := Option.map_eq_some_iff.mp hc
  obtain ⟨l, r, heq, -⟩ := List.lookup_eq_some_iff.mp hspan
  exact walks_record (hinner (c, span) (by simp [heq]))

private def StmtWalks (K : Known) (channels : List String) (s : Stmt) : Prop :=
  s.Every (.intact K) → ∀ label p, Walks K (stmt channels label s p)

private abbrev ExprWalks (K : Known) (channels : List String) : Expr → Prop :=
  WalksExpr (fun _ m => Walks K m) (Event.Has (.intact K)) channels

private theorem walks_in {xs : List Expr} (ih : ∀ x ∈ xs, ExprWalks K channels x)
    (h : ∀ x ∈ xs, x.Every (.intact K)) : ∀ p, Walks K (exprs channels xs p) :=
  walks_exprs Walks.chained fun x hx => ih x hx .use (h x hx)

private theorem walks_in? {o : Option Expr} (ih : ∀ x ∈ o, ExprWalks K channels x)
    (h : ∀ x ∈ o, x.Every (.intact K)) : ∀ p, Walks K (expr? channels o p) :=
  walks_expr? Walks.chained fun x hx => ih x hx .use (h x hx)

private theorem walks_stmt? {o : Option Stmt} (ih : ∀ s ∈ o, StmtWalks K channels s)
    (h : ∀ s ∈ o, s.Every (.intact K)) : ∀ p, Walks K (stmt? channels o p) :=
  Walks.chained.option (fun _ => rfl) fun s hs => ih s hs (h s hs) none

private theorem walks_stmts {ss : List Stmt} (ih : ∀ s ∈ ss, StmtWalks K channels s)
    (h : ∀ s ∈ ss, s.Every (.intact K)) (p : Path) : Walks K (stmts channels ss p) := by
  induction ss generalizing p with
  | nil => exact .pure
  | cons s ss ihss =>
    rw [List.forall_mem_cons] at ih h
    rw [stmts]
    split
    · exact .pure
    · exact (ih.1 h.1 none p).bind fun q => ihss ih.2 h.2 q

private theorem walks_block {b : Block} (ih : ∀ s ∈ b.stmts, StmtWalks K channels s)
    (h : b.Every (.intact K)) (p : Path) : Walks K (block channels b p) := by
  obtain ⟨ss, sp⟩ := b
  rw [block]
  exact walks_stmts ih h p

private theorem walks_cases {cs : List CaseClause}
    (ih : ∀ c ∈ cs, (∀ x ∈ c.exprs, ExprWalks K channels x) ∧ ∀ s ∈ c.body, StmtWalks K channels s)
    (h : ∀ c ∈ cs, c.Every (.intact K)) (entry : Path) (carried : Option Path) :
    Walks K (cases channels entry cs carried) := by
  induction cs generalizing carried with
  | nil => exact .pure
  | cons c cs ihcs =>
    rw [List.forall_mem_cons] at ih h
    have hrest : ∀ (body : List Stmt) (exit : Path), Walks K (if fallsThrough body then
        cases channels entry cs (some exit) else do return exit ::
          (← cases channels entry cs none)) := by
      intro body exit
      split
      · exact ihcs ih.2 h.2 _
      · exact (ihcs ih.2 h.2 _).bind fun _ => .pure
    cases c with
    | case list body sp =>
      simp only [cases]
      exact (walks_in ih.1.1 h.1.1 _).bind fun _ => (walks_stmts ih.1.2 h.1.2 _).bind (hrest body)
    | default body sp =>
      simp only [cases]
      exact (walks_stmts ih.1.2 h.1.2 _).bind (hrest body)

private theorem walks_comms {cs : List CommClause}
    (ih : ∀ c ∈ cs, (∀ s ∈ c.comm, StmtWalks K channels s) ∧ ∀ s ∈ c.body, StmtWalks K channels s)
    (h : ∀ c ∈ cs, c.Every (.intact K)) (entry : Path) : Walks K (comms channels entry cs) := by
  induction cs with
  | nil => exact .pure
  | cons c cs ihcs =>
    rw [List.forall_mem_cons] at ih h
    obtain ⟨comm, body, sp⟩ := c
    rw [comms]
    exact (walks_stmt? ih.1.1 h.1.1 _).bind fun _ => (walks_stmts ih.1.2 h.1.2 _).bind fun _ =>
      (ihcs ih.2 h.2).bind fun _ => .pure

private theorem walks_everywhere :
    TreeSteps (WalksType (fun _ m => Walks K m) (Event.Has (.intact K)) channels)
    (ExprWalks K channels)
      (StmtWalks K channels) := by
  constructor
  case toExprSteps =>
    refine walks_steps Walks.chained fun sig body sp role ih h =>
      walks_literal (walks_block ih ?_ _)
    have hlit := (Expr.allHave_events (Q := .intact K)).mp h
    exact ((Expr.every_iff _ (fun _ _ _ => trivial) _).mp hlit).2.2
  case decl =>
    intro d ihv _ h label p
    obtain ⟨kind, ss, grouped, directives, sp⟩ := d
    have hspecs := ((Stmt.every_iff _ _).mp h).2
    rw [stmt, genDecl]
    refine Walks.chained.list (fun s p => specs channels [s] p) (fun _ => rfl) (fun s ss p => ?_)
      (fun s hs p => ?_) p
    · cases s <;> simp [specs]
    · cases s with
      | value names ty values sp =>
        simp only [specs, bind_pure]
        exact walks_in (ihv _ _ _ _ hs).2 (hspecs _ hs).2 p
      | type => exact .pure
  case labeled =>
    intro l s sp ih h label p
    rw [stmt]
    exact ih ((Stmt.every_iff _ _).mp h).2 _ p
  case exprStmt =>
    intro x ih h label p
    rw [stmt]
    exact (ih .use ((Stmt.every_iff _ _).mp h).2 p).bind fun _ => .pure
  case send =>
    intro c v sp ihc ihv h label p
    obtain ⟨hspan, hc, hv⟩ := (Stmt.every_iff _ _).mp h
    rw [stmt]
    refine (ihc .use hc p).bind fun _ => (ihv .use hv _).bind fun _ => ?_
    split
    · split
      · exact walks_record hspan _
      · exact .pure
    · exact .pure
  case incDec | go | defer =>
    intros
    rename_i ih
    intro h label p
    rw [stmt]
    exact ih .use ((Stmt.every_iff _ _).mp h).2 p
  case assign =>
    intro lhs op rhs sp ihl ihr h label p
    obtain ⟨-, hlhs, hrhs⟩ := (Stmt.every_iff _ _).mp h
    rw [stmt]
    exact (walks_in ihl hlhs p).bind (walks_in ihr hrhs)
  case returns =>
    intro xs sp ih h label p
    rw [stmt]
    exact (walks_in ih ((Stmt.every_iff _ _).mp h).2 p).bind fun _ => .pure
  case branch =>
    intro kind l sp h label p
    cases kind with
    | breakTo | continueTo => exact walks_jump _ l p
    | _ => exact .pure
  case empty =>
    intro sp h label p
    exact .pure
  case block =>
    intro b ih h label p
    rw [stmt]
    exact walks_block ih ((Stmt.every_iff _ _).mp h).2 p
  case ifElse =>
    intro init cond b els sp ihi ihc ihb ihe h label p
    obtain ⟨-, hinit, hcond, hb, hels⟩ := (Stmt.every_iff _ _).mp h
    rw [stmt]
    exact (walks_stmt? ihi hinit p).bind fun _ => (ihc .use hcond _).bind fun _ =>
      (walks_block ihb hb _).bind fun _ => (walks_stmt? ihe hels _).bind fun _ => .pure
  case switch =>
    intro init tag cs sp ihi iht ihcs h label p
    obtain ⟨-, hinit, htag, hcs⟩ := (Stmt.every_iff _ _).mp h
    rw [stmt]
    exact (walks_stmt? ihi hinit p).bind fun _ => (walks_in? iht htag _).bind fun _ =>
      walks_choice ((walks_cases ihcs hcs _ _).bind fun _ => .pure)
  case typeSwitch =>
    intro init id x cs sp ihi ihx ihcs h label p
    obtain ⟨-, hinit, hx, hcs⟩ := (Stmt.every_iff _ _).mp h
    rw [stmt]
    exact (walks_stmt? ihi hinit p).bind fun _ => (ihx .use hx _).bind fun _ =>
      walks_choice ((walks_cases ihcs hcs _ _).bind fun _ => .pure)
  case select =>
    intro cs sp ih h label p
    have hcs := ((Stmt.every_iff _ _).mp h).2
    rw [stmt]
    refine walks_choice (Walks.bind (walks_comms ih hcs p) fun _ => .pure)
  case loop =>
    intro init cond post b sp ihi ihc ihp ihb h label p
    obtain ⟨-, hinit, hcond, hpost, hb⟩ := (Stmt.every_iff _ _).mp h
    rw [stmt]
    exact (walks_stmt? ihi hinit p).bind fun _ => (walks_in? ihc hcond _).bind fun _ =>
      walks_loop (walks_block ihb hb) (walks_stmt? ihp hpost) _
  case range =>
    intro k v d x b sp _ _ ihx ihb h label p
    obtain ⟨-, -, -, hx, hb⟩ := (Stmt.every_iff _ _).mp h
    rw [stmt]
    exact (ihx .use hx p).bind fun _ => walks_loop (walks_block ihb hb) (fun _ => .pure) _

/-- A second send is found at a send. -/
theorem span_checkSingleSend {body : List Stmt} (hbody : ∀ s ∈ body, s.Every (.intact K))
    {e : ExtraSend}
    (h : checkSingleSend body channels = .error e) : K.span e.span := by
  have hwalks : Walks K (stmts channels body {}) :=
    walks_stmts (fun s _ => walks_everywhere.stmt s) hbody {}
  have hwalks := hwalks {} (List.forall_mem_nil _)
  cases hrun : (stmts channels body {}).run {} with
  | error e' =>
    rw [hrun] at hwalks
    have heq : checkSingleSend body channels = .error e' := by rw [checkSingleSend, hrun]; rfl
    cases heq.symm.trans h
    exact hwalks
  | ok r =>
    have heq : checkSingleSend body channels = .ok () := by rw [checkSingleSend, hrun]; rfl
    cases heq.symm.trans h

end Sends

/-! ### References -/

namespace Reference.Search

theorem span_step {st : Search} {e : Event} (h0 : K.span .synthetic) (he : e.Has (.intact K))
    (h : ∀ r ∈ st.found, K.span r.span) : ∀ r ∈ (st.step e).found, K.span r.span := by
  have hnote : ∀ r : Reference, K.span r.span → ∀ r' ∈ (st.note r).found, K.span r'.span := by
    intro r hr
    unfold note
    split
    · exact h
    · exact List.forall_mem_cons.mpr ⟨hr, h⟩
  unfold step
  split
  · split <;> exact h
  · exact h
  · exact hnote _ he.2
  · exact hnote _ he.2
  · exact h
  · exact hnote _ h0
  all_goals exact h

theorem span_run {st : Search} {es : List Event} (h0 : K.span .synthetic)
    (hes : Event.AllHave (.intact K) es) (h : ∀ r ∈ st.found, K.span r.span) :
    ∀ r ∈ (st.run es).found, K.span r.span := by
  induction es generalizing st with
  | nil => exact h
  | cons e es ih =>
    rw [Event.allHave_cons] at hes
    exact ih hes.2 (span_step h0 hes.1 h)

end Reference.Search

theorem Reference.span_inEvents {scopes : Scopes} {es : List Event} (h0 : K.span .synthetic)
    (hes : Event.AllHave (.intact K) es) : ∀ r ∈ inEvents scopes es, K.span r.span :=
  fun r hr => Search.span_run h0 hes (List.forall_mem_nil _) r (List.mem_reverse.mp hr)

/-- A declaration refers to other ones at its names. -/
theorem Decl.span_references {d : Decl} (h0 : K.span .synthetic) (h : d.Every (.intact K)) :
    ∀ r ∈ d.references, K.span r.span := by
  have hall : Event.AllHave (.intact K) (d.events Reference.traversal) :=
    fun e he => h e ((d.thins_events _).sublist.subset he)
  cases d with
  | func f =>
    simp only [Decl.events, Event.allHave_append] at hall
    obtain ⟨⟨⟨hrecv, hparams⟩, hsig⟩, hbody⟩ := hall
    intro r hr
    refine Reference.Search.span_run h0 (Event.allHave_append.mpr ⟨hsig, hbody⟩) ?_ r
      (List.mem_reverse.mp hr)
    exact Reference.Search.span_run h0 (Event.allHave_append.mpr ⟨hrecv, hparams⟩)
      (List.forall_mem_nil _)
  | gen g =>
    rw [Decl.events, GenDecl.events_eq, Event.allHave_flatMap] at hall
    refine List.forall_mem_append.mpr ⟨?_, ?_⟩ <;> intro r hr <;>
      obtain ⟨spec, hspec, hr⟩ := List.mem_flatMap.mp hr <;> have hspec := hall spec hspec <;>
      cases spec
    · cases hr
    · exact Reference.span_inEvents h0 hspec r hr
    · exact Reference.span_inEvents h0 hspec r hr
    · cases hr

/-- A reference to a variable of the package is found in the function or in what it needs. -/
theorem File.span_dependencies {file : File} {root : FuncDecl} {r : Reference}
    (h0 : K.span .synthetic)
    (hfile : ∀ d ∈ file.decls, d.Every (.intact K)) (hroot : (Decl.func root).Every (.intact K))
    (h : file.dependencies root = .error r) : K.span r.span := by
  obtain ⟨o, hends, heq⟩ := exists_ends_dependencies file root
  have hsettles := Needed.Ends.settles (PackageIndex.inRange_ofFile file) hends (.initial _ _ _ _)
  cases o with
  | ok included => cases heq.symm.trans h
  | error e =>
    cases heq.symm.trans h
    rcases hsettles.1 with hr | ⟨p, -, hr⟩
    · exact Decl.span_references h0 hroot r hr
    · obtain ⟨d, hd, hr⟩ := exists_of_mem_referencesAt hr
      exact Decl.span_references h0 (hfile d (List.mem_of_getElem? hd)) r hr

end ServiceSplit
