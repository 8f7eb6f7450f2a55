import ServiceSplit.Proofs.Controller.Keeping

/-!
# Where `go` statements stand in a controller

The `go` statements of a body in which launches are replaced stand where they stood in it, in types,
or in what is put in.
-/

namespace ServiceSplit

variable (P : Span → Prop)

/-- All `go` statements have spans with the property, outside of the signatures of literals. -/
def NodeProp.goIn : NodeProp where
  stmt s := ∀ span ∈ s.goSpan?, P span
  signatures := false

/-- All `go` statements in types have spans with the property. -/
def NodeProp.typesGoIn : NodeProp where
  type t := t.Every (.goIn P)
  signatures := false

variable {P}

theorem NodeProp.covers_goIn : (NodeProp.typesGoIn P).Covers (.goIn P) where
  type t ht := ((TypeExpr.every_iff _ t).mp ht).1
  expr _ _ := trivial
  signatures := nofun
  pairs _ _ _ := trivial

/-- What is left of a statement is no other `go` statement. -/
theorem Stmt.goSpan?_without {gone : List String} {s t left : Stmt}
    (h : s.without gone t = some left) :
    left.goSpan? = t.goSpan? := by
  unfold Stmt.without at h
  grind [Stmt.goSpan?]

theorem NodeProp.rerouted_goIn : (NodeProp.goIn P).Rerouted where
  expr _ _ := trivial
  stmt h hs := by cases h <;> exact hs
  pairs _ _ _ := trivial
  block _ := nofun
  empty _ := nofun
  without _ ht hleft span hspan := ht span (Stmt.goSpan?_without hleft ▸ hspan)
  slot _ hslot := by
    have hparts := fun x : Expr => (Expr.every_iff (.goIn P) (fun _ _ _ => trivial) x).mpr
    refine hparts _ ⟨trivial, hparts _ ⟨trivial, hparts _ ⟨trivial, trivial⟩, ?_⟩, ?_⟩
    · exact List.forall_mem_singleton.mpr (hparts _ ⟨trivial, trivial⟩)
    · rintro _ ⟨⟩
      exact (TypeExpr.every_iff _ _).mpr ⟨trivial, hslot⟩

end ServiceSplit
