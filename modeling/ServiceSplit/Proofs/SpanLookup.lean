import ServiceSplit.Proofs.LaunchSearch

/-!
# Statements by their spans

Launches and the declarations of channels are remembered by the spans of statements. In a file that
is read from a text, `go` statements, assignments and declarations start at different tokens, so
that a span belongs to one of them only, and what is looked up by it is found at one statement.
-/

namespace ServiceSplit

/-- Whether a statement is an assignment or a declaration. -/
def Stmt.isBinding : Stmt → Bool
  | assign .. | decl _ => true
  | _ => false

/-- The statement is entered as event number `i` on the way through the file. -/
def File.EntersAt (file : File) (i : Nat) (s : Stmt) : Prop :=
  (file.events {})[i]? = some (.enter s)

/-- Different `go` statements have different spans, and so have different assignments and
declarations. -/
structure File.SpansIdentify (file : File) : Prop where
  go : ∀ i j x y span, file.EntersAt i (.go x span) → file.EntersAt j (.go y span) → i = j
  binding : ∀ i j s t, s.isBinding = true → t.isBinding = true → file.EntersAt i s →
    file.EntersAt j t → s.span = t.span → i = j

/-- What is looked up by span belongs to one statement of the program. -/
structure Program.FindsBySpan (program : Program) : Prop where
  /-- A launch is found under its span, and the only `go` statement there is the one it is read
  off. -/
  launch : ∀ l ∈ program.launches.sites, program.launches.at? l.span = some l ∧
    ∃ i call, program.file.EntersAt i (.go call l.span) ∧
      (∃ ctx : Launch.Context, ctx.program = program ∧ ctx.classify l.span call = .ok l) ∧
      ∀ j call', program.file.EntersAt j (.go call' l.span) → j = i
  /-- A claimed declaration is that of one statement. -/
  claimed : ∀ span ∈ program.launches.claimed,
    ∃! i, ∃ s, program.file.EntersAt i s ∧ s.isBinding = true ∧ s.span = span
  /-- A slot takes the place of a channel at one statement. -/
  declared : ∀ l ∈ program.launches.sites, ∀ c ∈ l.channels,
    ∃! i, ∃ s, program.file.EntersAt i s ∧ (c.arg, c.slot) ∈ declaredChannels [c] s

/-! ### Statements that start at different places -/

theorem Stmt.isBinding_of_isChannelDecl {s : Stmt} {name : String}
    (h : s.isChannelDecl name = true) :
    s.isBinding = true := by
  cases s <;> first | rfl | cases h

theorem Stmt.keyStart?_of_isBinding {s : Stmt} (h : s.isBinding = true) :
    Event.keyStart? (.enter s) = some s.span.start := by
  cases s <;> first | rfl | cases h

namespace File

variable {file : File}

theorem eq_of_keyStart? (h : (keys file.decls).Pairwise (· < ·)) {i j start : Nat} {s t : Stmt}
    (hs : file.EntersAt i s) (ht : file.EntersAt j t)
    (hstart : Event.keyStart? (.enter s) = some start)
    (hstart' : Event.keyStart? (.enter t) = some start) : i = j := by
  have hkeys : keys file.decls = (file.events {}).flatMap fun e => e.keyStart?.toList := by
    rw [← List.filterMap_eq_flatMap_toList]
    exact (keyStarts_flatMap file.decls (Decl.events {})).symm
  rw [hkeys] at h
  exact eq_of_mem_flatMap_of_pairwise h hs ht (Option.mem_toList.mpr hstart)
    (Option.mem_toList.mpr hstart')

theorem spansIdentify (h : (keys file.decls).Pairwise (· < ·)) : file.SpansIdentify where
  go _ _ _ _ _ hi hj := eq_of_keyStart? h hi hj rfl rfl
  binding _ _ _ _ hs ht hi hj hspan := eq_of_keyStart? h hi hj (Stmt.keyStart?_of_isBinding hs)
    (hspan ▸ Stmt.keyStart?_of_isBinding ht)

theorem exists_entersAt {f : FuncDecl} (hf : f ∈ file.functions) {s : Stmt}
    (hs : .enter s ∈ (Decl.func f).events {}) : ∃ i, file.EntersAt i s :=
  List.mem_iff_getElem?.mp (List.mem_flatMap.mpr ⟨_, mem_functions hf, hs⟩)

end File

/-! ### Looking up -/

theorem mem_declaredChannels {c : ChannelArg} {s : Stmt} :
    (c.arg, c.slot) ∈ declaredChannels [c] s ↔ c.decl = s.span ∧ s.isChannelDecl c.arg = true := by
  by_cases h : c.decl = s.span ∧ s.isChannelDecl c.arg = true <;> simp [declaredChannels, h]

namespace Program

variable {program : Program}

theorem findsBySpan (hkeys : (keys program.file.decls).Pairwise (· < ·)) : program.FindsBySpan := by
  have hid := File.spansIdentify hkeys
  have hextends := Launches.Search.extends_foldl program program.file.functions {}
  have hnodup : (program.launches.sites.map Launch.span).Nodup :=
    (bodyEvents_nodup hkeys).sublist program.sites_sublist
  -- A channel is declared by a statement that the search has left, and so has entered.
  have hchannel : ∀ l ∈ program.launches.sites, ∀ c ∈ l.channels, ∃ i s, program.file.EntersAt i s ∧
      s.isChannelDecl c.arg = true ∧ s.span = c.decl := by
    intro l hl c hc
    obtain ⟨f, hf, -, hdeclared⟩ := (hextends.sites l hl).resolve_left (by simp)
    obtain ⟨s, hleave, hs⟩ := hdeclared c hc
    have hthins := (Decl.func f).thins_events Launches.traversal
    obtain ⟨i, hi⟩ := File.exists_entersAt hf
      (hthins.sublist.subset (hthins.entered s (List.mem_append_right _ hleave)))
    exact ⟨i, s, hi, hs⟩
  refine ⟨fun l hl => ⟨?_, ?_⟩, fun span hspan => ?_, fun l hl c hc => ?_⟩
  · cases hat : program.launches.at? l.span with
    | none => exact absurd (List.find?_eq_none.mp hat l hl) (by simp)
    | some l' =>
      rw [List.inj_on_of_nodup_map hnodup (List.mem_of_find?_eq_some hat) hl
        (Launches.span_of_at? hat)]
  · obtain ⟨f, hf, ⟨ctx, call, hcall, hclass⟩, -⟩ := (hextends.sites l hl).resolve_left (by simp)
    have hthins := (Decl.func f).thins_events Launches.traversal
    obtain ⟨i, hi⟩ :=
      File.exists_entersAt hf (hthins.sublist.subset (List.mem_append_right _ hcall))
    exact ⟨i, call, hi, ⟨ctx, hclass⟩, fun j call' hj => hid.go j i call' call l.span hj hi⟩
  · obtain ⟨l, hl, hspan⟩ := List.mem_flatMap.mp hspan
    obtain ⟨c, hc, rfl⟩ := List.mem_map.mp hspan
    obtain ⟨i, s, hi, hs, hspan⟩ := hchannel l hl c hc
    have hbinding := Stmt.isBinding_of_isChannelDecl hs
    refine ⟨i, ⟨s, hi, hbinding, hspan⟩, ?_⟩
    rintro j ⟨t, hj, ht, hspan'⟩
    exact hid.binding j i t s ht hbinding hj hi (hspan'.trans hspan.symm)
  · obtain ⟨i, s, hi, hs, hspan⟩ := hchannel l hl c hc
    refine ⟨i, ⟨s, hi, mem_declaredChannels.mpr ⟨hspan.symm, hs⟩⟩, ?_⟩
    rintro j ⟨t, hj, ht⟩
    obtain ⟨hspan', ht⟩ := mem_declaredChannels.mp ht
    exact hid.binding j i t s (Stmt.isBinding_of_isChannelDecl ht)
      (Stmt.isBinding_of_isChannelDecl hs)
      hj hi (hspan'.symm.trans hspan.symm)

end Program

/-- In a file that is read, the spans of `go` statements and those of assignments and declarations
tell them apart, and what is looked up by span in a program with this file belongs to one
statement. -/
theorem parseFile_spansIdentify {source : String} {file : File} (h : parseFile source = .ok file) :
    file.SpansIdentify ∧ ∀ program : Program, program.file = file → program.FindsBySpan := by
  have hkeys := keys_of_parseFile h
  refine ⟨File.spansIdentify hkeys, ?_⟩
  rintro program rfl
  exact Program.findsBySpan hkeys

theorem nestedLaunches_spansIdentify : ∃ program :
    Program, parseFile nestedLaunches = .ok program.file ∧
    program.file.SpansIdentify ∧ program.FindsBySpan ∧
      program.launches.sites.map Launch.span = [.range 97 175, .range 140 151] := by
  obtain ⟨program, hload, hfound⟩ := Program.exists_load "main.go" nestedLaunchesFound.2
  rw [Bool.and_eq_true, decide_eq_true_eq] at hfound
  have hparse : parseFile nestedLaunches = .ok program.file := Program.parseFile_of_load hload
  have hspans := parseFile_spansIdentify hparse
  refine ⟨program, hparse, hspans.1, hspans.2 program rfl, ?_⟩
  simpa [Function.comp_def] using congrArg (List.map Prod.fst) hfound.1

end ServiceSplit
