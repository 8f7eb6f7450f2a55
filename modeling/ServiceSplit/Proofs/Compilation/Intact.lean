import ServiceSplit.Proofs.Controller.Keeping
import ServiceSplit.Proofs.Printer.Intact
import ServiceSplit.Proofs.Text.Quoted

/-!
# Edited trees are intact

A tree stays intact when it is put together again from edited parts, when slots are put in place of
channels, when returns are removed and when posts are put in place of sends.
-/

namespace ServiceSplit

/-! ### Putting trees together again -/

namespace Change

variable {α β : Type} {P : α → β → Prop} {R : NodeProp}

theorem ne_nil_of_forall₂ {as : List α} {bs : List β} (h : List.Forall₂ P as bs) (has : as ≠ []) :
    bs ≠ [] := by
  rintro rfl
  cases h
  exact has rfl

/-- A statement that is put where one can stand is a block, or can stand where the former one
could. -/
theorem InStmt?.exists_of_mem {s t : Option Stmt} (h : (keeping R).InStmt? s t) {u : Stmt}
    (hu : u ∈ t) :
    (∃ b, u = .block b) ∨ ∃ v ∈ s, v.Fits u := by
  obtain ⟨ts, hts, rfl⟩ := h
  rcases single_cases hu with rfl | rfl
  · obtain ⟨-, v, hv, hfits⟩ := hts.exists_of_mem (List.mem_singleton_self u)
    exact .inr ⟨v, Option.mem_toList.mp hv, hfits⟩
  · exact .inl ⟨_, rfl⟩

theorem InStmt?.fitsHeader {s t : Option Stmt} (h : (keeping R).InStmt? s t)
    (hs : ∀ u ∈ s, u.fitsHeader = true) : ∀ u ∈ t, u.fitsHeader = true := by
  intro u hu
  obtain ⟨b, rfl⟩ | ⟨v, hv, hfits⟩ := h.exists_of_mem hu
  · rfl
  · exact hfits.header (hs v hv)

theorem InStmt?.isElseBranch {s t : Option Stmt} (h : (keeping R).InStmt? s t)
    (hs : ∀ u ∈ s, u.isElseBranch = true) : ∀ u ∈ t, u.isElseBranch = true := by
  intro u hu
  obtain ⟨b, rfl⟩ | ⟨v, hv, hfits⟩ := h.exists_of_mem hu
  · rfl
  · exact hfits.branch (hs v hv)

theorem InCase.intact {cs cs' : List CaseClause} (h : List.Forall₂ (keeping R).InCase cs cs')
    (hcs : ∀ c ∈ cs, c.Intact) : ∀ c ∈ cs', c.Intact := by
  intro c' hc'
  obtain ⟨c, hc, hcase⟩ := exists_of_mem_right h hc'
  have hintact := hcs c hc
  cases hcase with
  | case hxs _ => exact ne_nil_of_forall₂ hxs hintact
  | default _ => trivial

theorem InGenDecl.intact {K : Known} {d d' : GenDecl} (h : (keeping R).InGenDecl d d')
    (hd : d.Intact K) : d'.Intact K := by
  obtain ⟨hspecs⟩ := h
  refine ⟨fun spec' hspec' => ?_, hd.span⟩
  obtain ⟨spec, hmem, hspec⟩ := exists_of_mem_right hspecs hspec'
  have hintact := hd.specs spec hmem
  cases hspec <;> exact hintact

end Change

open Change in
theorem NodeProp.rebuilt_intact (K : Known) : (NodeProp.intact K).Rebuilt where
  expr h hx := by
    cases h with
    | index _ hxs => exact ne_nil_of_forall₂ hxs hx
    | @slice _ _ _ _ _ _ max max' _ _ _ _ _ hmax =>
      intro hthree hnone
      subst hnone
      have hold := hx hthree
      cases max with
      | none => exact hold rfl
      | some x => cases hmax
    | call _ hxs => exact fun hspread => ne_nil_of_forall₂ hxs (hx hspread)
    | _ => exact hx
  stmt h hs := by
    cases h with
    | decl hd => exact hd.intact hs
    | assign hxs hys => exact ⟨ne_nil_of_forall₂ hxs hs.1, ne_nil_of_forall₂ hys hs.2.1, hs.2.2⟩
    | go hx | defer hx => exact hx.2 hs
    | ifElse hinit _ _ hels => exact ⟨hinit.fitsHeader hs.1, hels.isElseBranch hs.2⟩
    | switch hinit _ hcs => exact ⟨hinit.fitsHeader hs.1, InCase.intact hcs hs.2⟩
    | typeSwitch hinit _ hcs => exact ⟨hinit.fitsHeader hs.1, InCase.intact hcs hs.2.1, hs.2.2⟩
    | select hcs =>
      intro c' hc'
      obtain ⟨c, hc, hcomm⟩ := exists_of_mem_right hcs hc'
      have hfits := hs c hc
      obtain ⟨hcomm, -⟩ := hcomm
      exact hcomm.fitsHeader hfits
    | loop hinit _ hpost _ => exact ⟨hinit.fitsHeader hs.1, hpost.fitsHeader hs.2⟩
    | _ => exact hs
  pairs _ _ _ := trivial
  block _ := trivial
  empty _ := trivial

variable {σ : Span → Prop}

private theorem every_expr {K : Known} {x : Expr} :
    x.Every (.intact K) ↔ x.Intact K ∧ x.EveryPart (.intact K) :=
  Expr.every_iff _ (fun _ _ _ => trivial) x

/-! ### Slots -/

theorem Text.isEmpty_quote (text : String) : (Text.quote text).isEmpty = false := by
  rw [← Bool.not_eq_true, String.isEmpty_iff, ← String.toList_inj, toList_quote]
  simp

theorem length_keepMarked {α : Type} {keep : List Bool} {xs : List α}
    (h : keep.length = xs.length) :
    (keepMarked keep xs).length = (keep.filter id).length := by
  have hkeep : keep = (keep.zip xs).map Prod.fst := (List.map_fst_zip (Nat.le_of_eq h)).symm
  rw [keepMarked, List.length_map]
  conv_rhs => rw [hkeep, List.filter_map, List.length_map]
  rfl

theorem Spec.Intact.without {K : Known} {gone : List String} {spec edited left : Spec}
    (h : edited.Intact K) (hleft : spec.without gone edited = some left) : left.Intact K := by
  unfold Spec.without at hleft
  split at hleft
  · dsimp only at hleft
    split at hleft
    · cases hleft
    · rename_i hne
      cases hleft
      exact ⟨hne, fun id hid => h.2 id (mem_of_mem_keepMarked hid)⟩
  · cases hleft
    exact h

theorem NodeProp.rerouted_intact : (NodeProp.written σ).Rerouted where
  toRebuilt := rebuilt_intact _
  without := by
    intro gone s t left h ht hleft
    unfold Stmt.without at hleft
    split at hleft
    · split at hleft
      · rename_i lhs op rhs _ lhs' op' rhs' span hcond
        dsimp only at hleft
        split at hleft
        · cases hleft
        · rename_i hne
          cases hleft
          cases h with
          | assign hxs hys =>
            refine ⟨hne, fun hnil => hne ?_, ht.2.2⟩
            have hlength : (keptPairs gone lhs rhs).length = lhs.length := by
              simp [keptPairs, hcond.2]
            rw [← List.length_eq_zero_iff] at hnil ⊢
            rw [length_keepMarked (hlength.trans hxs.length_eq)]
            rwa [length_keepMarked (hlength.trans (hcond.2.trans hys.length_eq))] at hnil
      · cases hleft
        exact ht
    · split at hleft
      · split at hleft
        · cases hleft
        · cases hleft
          refine ⟨fun left hleft => ?_, ht.span⟩
          obtain ⟨⟨spec, edited⟩, hpair, hleft⟩ := List.mem_filterMap.mp hleft
          exact (ht.specs edited (List.of_mem_zip hpair).2).without hleft
      · cases hleft
        exact ht
    · cases hleft
      exact ht
  slot {id slot} hid hslot := by
    have hkey : (Expr.lit .string (Text.quote slot.endpoint) .synthetic).Every (.written σ) :=
      every_expr.mpr ⟨Text.isEmpty_quote slot.endpoint, trivial⟩
    have htable : (Expr.ident ⟨routesName, id.span⟩).Every (.written σ) :=
      every_expr.mpr ⟨⟨rfl, hid.2⟩, trivial⟩
    refine every_expr.mpr ⟨trivial, every_expr.mpr ⟨List.cons_ne_nil _ _, htable,
      List.forall_mem_singleton.mpr hkey⟩, ?_⟩
    rintro _ ⟨⟩
    exact (TypeExpr.every_iff _ _).mpr ⟨trivial, hslot⟩

/-! ### The body of a service -/

theorem Callback.every_post {config : Config} {c : Callback} {value : Expr} {span : Span}
    (hvalue : value.Every (.written σ)) (hspan : σ span) :
    (c.post config value span).Every (.written σ) := by
  have hhelper : c.helper.isEmpty = false := by
    unfold Callback.helper
    split <;> rfl
  refine (Stmt.every_iff _ _).mpr
    ⟨trivial, every_expr.mpr ⟨nofun, every_expr.mpr ⟨⟨hhelper, hspan⟩, trivial⟩,
    List.forall_mem_cons.mpr ⟨?_, List.forall_mem_singleton.mpr hvalue⟩⟩⟩
  exact every_expr.mpr ⟨Text.isEmpty_quote _, trivial⟩

theorem Callback.editor_makes (config : Config) (callbacks : List Callback) :
    (Callback.editor config callbacks).Makes Outcomes.id (.written σ)
      (.keeping (.written σ)) where
  onStmt s inside hs hinside := by
    have hinside : (Change.keeping (.written σ)).InStmt s inside := hinside
    have hevery := hinside.every (NodeProp.rebuilt_intact _) (NodeProp.rebuilt_intact _).covers hs
      ((Stmt.every_iff _ _).mp hs).1
    have hfits := hinside.fits
    simp only [Callback.editor, Id.run]
    split
    · obtain ⟨hspan, -, hvalue⟩ := (Stmt.every_iff _ _).mp hevery
      split
      · exact List.forall_mem_singleton.mpr ⟨Callback.every_post hvalue hspan, hfits.header,
          hfits.branch⟩
      · exact List.forall_mem_singleton.mpr ⟨hevery, hfits⟩
    · split
      · exact List.forall_mem_nil _
      · exact List.forall_mem_singleton.mpr ⟨hevery, hfits⟩
    · exact List.forall_mem_singleton.mpr ⟨hevery, hfits⟩
  onExpr _ _ _ hx hinside :=
    ⟨Change.InExpr.every (NodeProp.rebuilt_intact _) (NodeProp.rebuilt_intact _).covers hinside hx,
      Change.InExpr.fits hinside⟩
  onLit _ _ _ _ _ hinside := Change.InBlock.every hinside
  pairs _ _ _ := trivial

section

variable (hσ : σ .synthetic)

include hσ

theorem Expr.every_blank : Expr.blank.Every (.written σ) :=
  every_expr.mpr ⟨⟨rfl, hσ⟩, trivial⟩

theorem every_discardResults {arity : Nat} {results : List Expr} {span : Span}
    (hresults : ∀ x ∈ results, x.Every (.written σ)) (hspan : σ span) :
    ∀ t ∈ discardResults arity results span, t.Every (.written σ) := by
  unfold discardResults
  dsimp only
  split
  · exact List.forall_mem_nil _
  · rename_i hkept
    rw [List.isEmpty_iff] at hkept
    refine List.forall_mem_singleton.mpr ((Stmt.every_iff _ _).mpr ⟨⟨?_, hkept, hspan⟩, ?_, ?_⟩)
    · rw [Ne, List.replicate_eq_nil_iff]
      have := List.length_pos_iff.mpr hkept
      grind
    · exact fun x hx => List.eq_of_mem_replicate hx ▸ Expr.every_blank hσ
    · exact fun x hx => hresults x (List.mem_filter.mp hx).1

theorem returnEditor_makes (arity : Nat) :
    (returnEditor arity).Makes Outcomes.id (.written σ) (.keeping (.written σ)) where
  onStmt s inside hs hinside := by
    obtain ⟨hstmt, hparts⟩ := (Stmt.every_iff _ _).mp hs
    have hother : ∀ t ∈ [inside], t.Every (.written σ) ∧ s.Fits t :=
      List.forall_mem_singleton.mpr ⟨Change.InStmt.every (NodeProp.rebuilt_intact _)
        (NodeProp.rebuilt_intact _).covers hinside hs hstmt, Change.InStmt.fits hinside⟩
    cases s with
    | returns results span =>
      exact fun t ht => ⟨every_discardResults hσ hparts hstmt t ht, nofun, nofun⟩
    | _ => exact hother
  onExpr _ _ _ hx hinside :=
    ⟨Change.InExpr.every (NodeProp.rebuilt_intact _) (NodeProp.rebuilt_intact _).covers hinside hx,
      Change.InExpr.fits hinside⟩
  onLit _ _ _ _ hx _ := (every_expr.mp hx).2.2
  pairs _ _ _ := trivial

theorem Signature.every_resultDecls {sig : Signature} (h : sig.Every (.written σ))
    (hnames : sig.Named TokenKind.HasText) :
    ∀ s ∈ sig.resultDecls, s.Every (.written σ) := by
  have hnamed : ∀ f ∈ sig.results, Ident.AllKnown TokenKind.HasText f.names :=
    (List.forall_mem_append.mp hnames).2
  refine List.forall_mem_append.mpr ⟨fun s hs => ?_, fun s hs => ?_⟩
  · obtain ⟨f, hf, rfl⟩ := List.mem_map.mp hs
    obtain ⟨hf, hany⟩ := List.mem_filter.mp hf
    have hne : f.names ≠ [] := by
      rintro hnil
      simp [hnil] at hany
    refine (Stmt.every_iff _ _).mpr ⟨⟨List.forall_mem_singleton.mpr ⟨hne, hnamed f hf⟩, hσ⟩,
      List.forall_mem_singleton.mpr ⟨?_, List.forall_mem_nil _⟩⟩
    rintro _ ⟨⟩
    exact h.2 f hf
  · obtain ⟨id, hid, rfl⟩ := List.mem_map.mp hs
    obtain ⟨f, hf, hid⟩ := List.mem_flatMap.mp hid
    have hmade : (Expr.ident (.made id.name)).Every (.written σ) :=
      every_expr.mpr ⟨⟨hnamed f (List.mem_filter.mp hf).1 id (List.mem_filter.mp hid).1, hσ⟩,
        trivial⟩
    exact (Stmt.every_iff _ _).mpr ⟨⟨List.cons_ne_nil _ _, List.cons_ne_nil _ _, hσ⟩,
      List.forall_mem_singleton.mpr (Expr.every_blank hσ), List.forall_mem_singleton.mpr hmade⟩

end

end ServiceSplit
