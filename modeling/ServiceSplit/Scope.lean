import ServiceSplit.Tree.Declaration

/-!
# Lexical scopes

The local names that are visible at a place inside a function. A name that is not local belongs to
the package or is predeclared. A name that was declared as a channel keeps the span of that
declaration.
-/

namespace ServiceSplit

/-- The names of one scope, the last one declared first. -/
structure Frame where
  /-- The names, with the span of the declaration for channels. -/
  names : List (String × Option Span) := []
  /-- Whether the scope is that of a function literal. -/
  isFunction : Bool := false
deriving DecidableEq, Repr, Inhabited

namespace Frame

/-- What is known of `name` in the scope. -/
def find? (f : Frame) (name : String) : Option (Option Span) :=
  f.names.lookup name

/-- Whether `name` is declared in the scope. -/
def declares (f : Frame) (name : String) : Bool :=
  (f.find? name).isSome

/-- Declares `name`; the blank identifier declares nothing. -/
def bind (f : Frame) (name : String) (channel : Option Span) : Frame :=
  if name = "_" then f else { f with names := (name, channel) :: f.names }

end Frame

/-- The open scopes. -/
structure Scopes where
  /-- The innermost scope. -/
  inner : Frame := {}
  /-- The scopes around it, from inside out. -/
  outer : List Frame := []
deriving DecidableEq, Repr, Inhabited

namespace Scopes

/-- The open scopes, from inside out. -/
def frames (s : Scopes) : List Frame :=
  s.inner :: s.outer

/-- Opens a scope. -/
def push (s : Scopes) : Scopes :=
  ⟨{}, s.frames⟩

/-- Opens the scope of a function literal. -/
def pushFunction (s : Scopes) : Scopes :=
  ⟨{ isFunction := true }, s.frames⟩

/-- Closes the innermost scope, unless it is the only one. -/
def pop (s : Scopes) : Scopes :=
  match s.outer with
  | f :: fs => ⟨f, fs⟩
  | [] => s

/-- Declares `name` in the innermost scope. -/
def bindAs (s : Scopes) (name : String) (channel : Option Span) : Scopes :=
  { s with inner := s.inner.bind name channel }

/-- Declares `name`, which is not known to be a channel. -/
def bind (s : Scopes) (name : String) : Scopes :=
  s.bindAs name none

/-- Declares several names. -/
def bindAll (s : Scopes) (names : List String) : Scopes :=
  names.foldl bind s

/-- Declares the names of some fields. -/
def bindFields (s : Scopes) (fields : List Field) : Scopes :=
  s.bindAll (Field.allNames fields)

/-- Declares the parameters and results of a function. -/
def bindSignature (s : Scopes) (sig : Signature) : Scopes :=
  s.bindFields sig.fields

/-- Declares the names that a statement declares in the scope it stands in. -/
def bindDeclared (s : Scopes) (stmt : Stmt) : Scopes :=
  stmt.declaredNames.foldl
    (fun s name => s.bindAs name (if stmt.isChannelDecl name then some stmt.span else none)) s

/-- Declares the names that a statement declares in the scope it opens. -/
def bindImplicit (s : Scopes) (stmt : Stmt) : Scopes :=
  s.bindAll stmt.implicitNames

/-- Whether `name` is local. -/
def isLocal (s : Scopes) (name : String) : Bool :=
  s.frames.any (·.declares name)

/-- The declaration of the channel that `name` is, if it was made in the same function. -/
def channelDecl? (s : Scopes) (name : String) : Option Span :=
  go s.frames
where
  /-- Looks from inside out, up to the scope of a function literal. -/
  go : List Frame → Option Span
    | [] => none
    | f :: fs =>
      match f.find? name with
      | some channel => channel
      | none => if f.isFunction then none else go fs

end Scopes

end ServiceSplit
