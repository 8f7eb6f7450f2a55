import ServiceSplit.Tree.Query

/-!
# What statements declare

The names that a statement declares, the scopes it opens, and whether it makes a channel.
-/

namespace ServiceSplit

/-- The names that a line of a declaration group declares. -/
def Spec.names : Spec → List String
  | value names _ _ _ => names.map Ident.name
  | type name _ _ _ _ => [name.name]

/-- The names that a declaration group declares. -/
def GenDecl.names (d : GenDecl) : List String :=
  d.specs.flatMap Spec.names

/-- The names of a declaration at the level of the package; methods have none. -/
def Decl.packageNames : Decl → List String
  | func f => if f.isMethod then [] else [f.name.name]
  | gen d => d.names

/-- The names of the expressions that are identifiers. -/
def Expr.namesOf (xs : List Expr) : List String :=
  xs.filterMap Expr.asName

/-- The names that a statement declares in the scope it stands in. -/
def Stmt.declaredNames : Stmt → List String
  | decl d => d.names
  | assign lhs .define _ _ => Expr.namesOf lhs
  | labeled _ s _ => s.declaredNames
  | _ => []

/-- The names that a statement declares in the scope it opens. -/
def Stmt.implicitNames : Stmt → List String
  | range key value true _ _ _ => Expr.namesOf (key.toList ++ value.toList)
  | typeSwitch _ (some binding) _ _ _ => [binding.name]
  | _ => []

/-- Whether the parts of a statement have a scope of their own. -/
def Stmt.opensScope : Stmt → Bool
  | block _ | ifElse .. | switch .. | typeSwitch .. | select .. | loop .. | range .. => true
  | _ => false

/-- Whether an expression is a channel type, or one in a pair of parentheses. -/
def Expr.isChanType : Expr → Bool
  | type ty _ | paren (type ty _) _ => ty.chanElem.isSome
  | _ => false

/-- Whether an expression allocates a channel. -/
def Expr.isMakeChan : Expr → Bool
  | call fn (arg :: _) _ _ => fn.asName == some "make" && arg.isChanType
  | _ => false

/-- Whether an assignment of `values` to `targets` makes `name` a channel. -/
def assignsChannel (targets values : List Expr) (name : String) : Bool :=
  targets.length == values.length &&
    (targets.zip values).any fun (target, value) =>
      target.asName == some name && value.isMakeChan

/-- Whether a line of a declaration group makes `name` a channel: by its type if there are no
values, and otherwise by its value. -/
def Spec.declaresChannel (name : String) : Spec → Bool
  | value names ty values _ =>
    match names.findIdx? (·.name == name) with
    | none => false
    | some i =>
      if values.isEmpty then ty.any (·.chanElem.isSome)
      else values.length == names.length && (values[i]?).any Expr.isMakeChan
  | type .. => false

/-- Whether a statement makes `name` a channel. -/
def Stmt.isChannelDecl (name : String) : Stmt → Bool
  | assign lhs .define rhs _ | assign lhs .assign rhs _ => assignsChannel lhs rhs name
  | decl d => d.kind == .var && d.specs.any (Spec.declaresChannel name)
  | _ => false

end ServiceSplit
