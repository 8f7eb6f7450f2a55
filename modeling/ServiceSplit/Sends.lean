import ServiceSplit.Tree.Query

/-!
# Sends on a path

Each dispatch of a service delivers one value per channel, so no path through a launched function
may send twice on a channel. A path is described by the channels it has sent on. Branches are
followed separately and joined again, and the body of a loop is followed twice, which shows a send
that is repeated from one round to the next. A function literal counts as sending where it stands,
on every channel that one of its paths sends on.
-/

namespace ServiceSplit

/-- A second send on a path. -/
structure ExtraSend where
  /-- The channel. -/
  channel : String
  /-- The place of the second send. -/
  span : Span
deriving DecidableEq, Repr, Inhabited

namespace Sends

/-- What is known of a path. -/
structure Path where
  /-- The channels it has sent on. -/
  sent : List String := []
  /-- Whether it is over. -/
  ended : Bool := false
deriving DecidableEq, Repr, Inhabited

namespace Path

/-- A path that is over. -/
def closed : Path :=
  { ended := true }

/-- The channels that a path or another one has sent on. -/
def add (p q : Path) : Path :=
  { p with sent := p.sent ++ q.sent.filter (!p.sent.contains ·) }

/-- What is known where several paths meet. Paths that are over do not count. -/
def join (ps : List Path) : Path :=
  match ps.filter (!·.ended) with
  | [] => closed
  | p :: live => live.foldl add p

/-- The path ends here. -/
def finish (p : Path) : Path :=
  { p with ended := true }

end Path

/-- A path that leaves a statement by `break` or `continue`. -/
structure Jump where
  /-- Whether the next round of a loop follows. -/
  isContinue : Bool
  /-- The label of the statement that is left. -/
  label : Option String
  /-- The path. -/
  path : Path
deriving DecidableEq, Repr, Inhabited

/-- A statement that jumps can leave. -/
structure Target where
  /-- Its label. -/
  label : Option String
  /-- Whether it is a loop. -/
  isLoop : Bool
deriving DecidableEq, Repr, Inhabited

/-- Whether a jump leaves the target. -/
def Target.catches (t : Target) (j : Jump) : Bool :=
  match j.label with
  | some l => t.label == some l
  | none => t.isLoop || !j.isContinue

/-- What has been met so far. -/
structure Log where
  /-- Jumps that have not reached the statement they leave. -/
  jumps : List Jump := []
  /-- The sends, in the order they were met. -/
  seen : List (String × Span) := []
deriving Repr, Inhabited

/-- Following a part of a function, which fails at a second send. -/
abbrev Walk := StateT Log (Except ExtraSend)

/-- A send on a channel. -/
def record (channel : String) (span : Span) (p : Path) : Walk Path :=
  if p.sent.contains channel then
    throw ⟨channel, span⟩
  else do
    modify fun log => { log with seen := log.seen ++ [(channel, span)] }
    return { p with sent := channel :: p.sent }

/-- A jump; the path is over here. -/
def jump (isContinue : Bool) (label : Option Ident) (p : Path) : Walk Path := do
  modify fun log =>
    { log with jumps := ⟨isContinue, label.map Ident.name, p⟩ :: log.jumps }
  return p.finish

/-- Follows a part that jumps can leave, and gives the paths of those that do: the breaks and the
continues. -/
def leaving (t : Target) (part : Walk Path) : Walk (Path × List Path × List Path) := do
  let outer := (← get).jumps
  modify fun log => { log with jumps := [] }
  let p ← part
  let inner := (← get).jumps
  let (caught, passing) := inner.partition t.catches
  modify fun log => { log with jumps := passing ++ outer }
  let (continues, breaks) := caught.partition Jump.isContinue
  return (p, breaks.map Jump.path, continues.map Jump.path)

/-- Follows a switch or select, which is left at its end or by a break. -/
def choice (label : Option String) (part : Walk Path) : Walk Path := do
  let (p, breaks, _) ← leaving ⟨label, false⟩ part
  return .join (p :: breaks)

/-- One round of a loop: the path into the next round, and the paths that leave the loop. -/
def round (label : Option String) (body post : Path → Walk Path) (p : Path) :
    Walk (Path × List Path) := do
  let (p, breaks, continues) ← leaving ⟨label, true⟩ (body p)
  let next := Path.join (p :: continues)
  let next ← if next.ended then pure next else post next
  return (next, breaks)

/-- The paths that leave a loop in the next `rounds` rounds; `mayStop` tells that it can be left
between rounds. -/
def rounds (mayStop : Bool) (once : Path → Walk (Path × List Path)) :
    (rounds : Nat) → Path → Walk (List Path)
  | 0, _ => return []
  | n + 1, p => do
    if p.ended then
      return []
    else
      let (next, breaks) ← once p
      let rest ← rounds mayStop once n next
      return breaks ++ (if mayStop then [next] else []) ++ rest

/-- Follows a loop for two rounds. -/
def loop (label : Option String) (mayStop : Bool) (body post : Path → Walk Path) (p : Path) :
    Walk Path := do
  let exits ← rounds mayStop (round label body post) 2 p
  return .join (if mayStop then p :: exits else exits)

/-- Whether a clause goes on with the next one. -/
def fallsThrough (body : List Stmt) : Bool :=
  match body.getLast? with
  | some (.branch .fallthrough _ _) => true
  | _ => false

/-- The sends of a function literal: its channels in order, each with the first send on it. -/
def literalSends (seen : List (String × Span)) : List (String × Span) :=
  let channels := ((seen.map Prod.fst).eraseDups).mergeSort fun a b => a ≤ b
  channels.filterMap fun c => (seen.lookup c).map (c, ·)

/-- A function literal, whose body is followed on its own. -/
def literal (body : Walk Path) (p : Path) : Walk Path := do
  let outer ← get
  set ({} : Log)
  let _ ← body
  let inner ← get
  set outer
  (literalSends inner.seen).foldlM (fun p (channel, span) => record channel span p) p

mutual

/-- The function literals in a type. -/
def type (channels : List String) : TypeExpr → Path → Walk Path
  | .name _ _ args, p => types channels args p
  | .pointer e, p | .slice e, p | .chan _ e, p | .ellipsis e, p | .paren e, p => type channels e p
  | .array len e, p => do
    let p ← expr? channels len p
    type channels e p
  | .map k v, p => do
    let p ← type channels k p
    type channels v p
  | .func sig, p => signature channels sig p
  | .struct fs, p => fields channels fs p
  | .interface es, p => elems channels es p
  | .union ts, p => terms channels ts p

/-- The function literals in several types. -/
def types (channels : List String) : List TypeExpr → Path → Walk Path
  | [], p => return p
  | t :: ts, p => do
    let p ← type channels t p
    types channels ts p

/-- The function literals in an optional type. -/
def type? (channels : List String) : Option TypeExpr → Path → Walk Path
  | none, p => return p
  | some t, p => type channels t p

/-- The function literals in several fields. -/
def fields (channels : List String) : List Field → Path → Walk Path
  | [], p => return p
  | ⟨_, ty, _, _⟩ :: fs, p => do
    let p ← type channels ty p
    fields channels fs p

/-- The function literals in a signature. -/
def signature (channels : List String) : Signature → Path → Walk Path
  | ⟨params, results⟩, p => do
    let p ← fields channels params p
    fields channels results p

/-- The function literals in the lines of an interface type. -/
def elems (channels : List String) : List InterfaceElem → Path → Walk Path
  | [], p => return p
  | .method _ sig :: es, p => do
    let p ← signature channels sig p
    elems channels es p
  | .embedded t :: es, p => do
    let p ← type channels t p
    elems channels es p

/-- The function literals in the terms of a union. -/
def terms (channels : List String) : List UnionTerm → Path → Walk Path
  | [], p => return p
  | ⟨_, ty⟩ :: ts, p => do
    let p ← type channels ty p
    terms channels ts p

/-- The function literals in an expression. -/
def expr (channels : List String) : Expr → Path → Walk Path
  | .ident _, p | .lit .., p => return p
  | .composite ty elts _, p => do
    let p ← expr? channels ty p
    exprs channels elts p
  | .funcLit _ body _, p => literal (block channels body {}) p
  | .paren x _, p | .selector x _ _, p | .star x _, p | .unary _ x _, p => expr channels x p
  | .index x indices _, p => do
    let p ← expr channels x p
    exprs channels indices p
  | .slice x low high max _ _, p => do
    let p ← expr channels x p
    let p ← expr? channels low p
    let p ← expr? channels high p
    expr? channels max p
  | .typeAssert x ty _, p => do
    let p ← expr channels x p
    type? channels ty p
  | .call fn args _ _, p => do
    let p ← expr channels fn p
    exprs channels args p
  | .binary _ x y _, p => do
    let p ← expr channels x p
    expr channels y p
  | .keyValue k v _, p => do
    let p ← expr channels k p
    expr channels v p
  | .type ty _, p => type channels ty p

/-- The function literals in several expressions. -/
def exprs (channels : List String) : List Expr → Path → Walk Path
  | [], p => return p
  | x :: xs, p => do
    let p ← expr channels x p
    exprs channels xs p

/-- The function literals in an optional expression. -/
def expr? (channels : List String) : Option Expr → Path → Walk Path
  | none, p => return p
  | some x, p => expr channels x p

/-- Follows the statements of a block. -/
def block (channels : List String) : Block → Path → Walk Path
  | ⟨ss, _⟩, p => stmts channels ss p

/-- Follows statements as long as the path is not over. -/
def stmts (channels : List String) : List Stmt → Path → Walk Path
  | [], p => return p
  | s :: ss, p => do
    if p.ended then
      return p
    else
      let p ← stmt channels none s p
      stmts channels ss p

/-- Follows an optional statement. -/
def stmt? (channels : List String) : Option Stmt → Path → Walk Path
  | none, p => return p
  | some s, p => stmt channels none s p

/-- The function literals in the values of declarations. -/
def specs (channels : List String) : List Spec → Path → Walk Path
  | [], p => return p
  | .value _ _ values _ :: ss, p => do
    let p ← exprs channels values p
    specs channels ss p
  | .type .. :: ss, p => specs channels ss p

/-- The function literals in a declaration group. -/
def genDecl (channels : List String) : GenDecl → Path → Walk Path
  | ⟨_, ss, _, _, _⟩, p => specs channels ss p

/-- Follows the clauses of a switch that is entered with the path `entry`; `carried` is the path
that falls through from the clause before. Gives the paths at the ends of clauses. -/
def cases (channels : List String) (entry : Path) :
    List CaseClause → (carried : Option Path) → Walk (List Path)
  | [], carried => return carried.toList
  | .case list body _ :: cs, carried => do
    let start ← exprs channels list entry
    let start := match carried with
      | some before => Path.join [start, before]
      | none => start
    let exit ← stmts channels body start
    if fallsThrough body then
      cases channels entry cs (some exit)
    else
      return exit :: (← cases channels entry cs none)
  | .default body _ :: cs, carried => do
    let start := match carried with
      | some before => Path.join [entry, before]
      | none => entry
    let exit ← stmts channels body start
    if fallsThrough body then
      cases channels entry cs (some exit)
    else
      return exit :: (← cases channels entry cs none)

/-- Follows the clauses of a select that is entered with the path `entry`. -/
def comms (channels : List String) (entry : Path) : List CommClause → Walk (List Path)
  | [] => return []
  | ⟨comm, body, _⟩ :: cs => do
    let start ← stmt? channels comm entry
    let exit ← stmts channels body start
    return exit :: (← comms channels entry cs)

/-- Follows a statement with a label. -/
def stmt (channels : List String) (label : Option String) : Stmt → Path → Walk Path
  | .send chan value span, p => do
    let p ← expr channels chan p
    let p ← expr channels value p
    match chan.asName with
    | some name => if channels.contains name then record name span p else return p
    | none => return p
  | .expr x, p => do
    let p ← expr channels x p
    return if x.isTerminatingCall then p.finish else p
  | .returns results _, p => do
    let p ← exprs channels results p
    return p.finish
  | .decl d, p => genDecl channels d p
  | .assign lhs _ rhs _, p => do
    let p ← exprs channels lhs p
    exprs channels rhs p
  | .incDec x _ _, p => expr channels x p
  | .go call _, p | .defer call _, p => expr channels call p
  | .labeled l s _, p => stmt channels (some l.name) s p
  | .block b, p => block channels b p
  | .branch .breakTo l _, p => jump false l p
  | .branch .continueTo l _, p => jump true l p
  | .branch .goto _ _, p | .branch .fallthrough _ _, p | .empty _, p => return p
  | .ifElse init cond body els _, p => do
    let p ← stmt? channels init p
    let p ← expr channels cond p
    let yes ← block channels body p
    let no ← stmt? channels els p
    return .join [yes, no]
  | .switch init tag clauses _, p => do
    let p ← stmt? channels init p
    let p ← expr? channels tag p
    choice label do
      let exits ← cases channels p clauses none
      return .join (if clauses.any CaseClause.isDefault then exits else exits ++ [p])
  | .typeSwitch init _ subject clauses _, p => do
    let p ← stmt? channels init p
    let p ← expr channels subject p
    choice label do
      let exits ← cases channels p clauses none
      return .join (if clauses.any CaseClause.isDefault then exits else exits ++ [p])
  | .select clauses _, p =>
    choice label do
      return .join (← comms channels p clauses)
  | .loop init cond post body _, p => do
    let p ← stmt? channels init p
    let p ← expr? channels cond p
    loop label cond.isSome (block channels body) (stmt? channels post) p
  | .range _ _ _ x body _, p => do
    let p ← expr channels x p
    loop label true (block channels body) pure p

end

end Sends

/-- Whether no path of a body sends twice on a channel; otherwise the first second send. -/
def checkSingleSend (body : List Stmt) (channels : List String) : Except ExtraSend Unit := do
  let _ ← (Sends.stmts channels body {}).run {}
  return ()

end ServiceSplit
