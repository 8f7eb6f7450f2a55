import ServiceSplit.Diagnostic
import ServiceSplit.Proofs.Compilation.Failures

/-!
# What diagnostics mark

When a source text is refused, or the program of it cannot be split, all that is said to be wrong
has a place in the text, and so diagnostics mark parts of the text.

## Main definitions

* `Failure.StandsIn`: all places of a failure are in the text.

## Main results

* `failures_stand_in_source`: this is so of every failure.
-/

namespace ServiceSplit

/-- A span is that of no text, or of a part of the text: it ends behind its start and inside the
text, and no character is cut. -/
def Span.IsIn (source : List Char) : Span → Prop
  | synthetic => True
  | range start stop => start ≤ stop ∧ stop ≤ Text.byteSize source ∧
      Text.IsBoundary source start ∧ Text.IsBoundary source stop

/-- There are errors, and they have places in the text. -/
def SyntaxError.AllIn (source : List Char) (errors : List SyntaxError) : Prop :=
  errors ≠ [] ∧ ∀ e ∈ errors, e.span.IsIn source

/-- A diagnostic marks a part of the text. -/
def Diagnostic.Marks (source : List Char) (d : Diagnostic) : Prop :=
  (Span.range d.offset (d.offset + d.length)).IsIn source

/-- A failure is about places in the text, and what is shown of it marks parts of the text. -/
structure Failure.StandsIn (source : List Char) (f : Failure) : Prop where
  errors : ∀ path errors, f = .badSyntax path errors → SyntaxError.AllIn source errors
  span : ∀ sp ∈ f.span?, sp.IsIn source
  marks : ∀ loaded ds, f.report loaded = .marked ds → ∀ d ∈ ds, d.Marks source

section

variable {source : List Char}

theorem Text.IsBoundary.le {n : Nat} (h : Text.IsBoundary source n) : n ≤ Text.byteSize source := by
  obtain ⟨front, back, rfl, rfl⟩ := h
  rw [Text.byteSize_append]
  exact Nat.le_add_right _ _

theorem Span.On.isIn {sp : Span} (h : sp.On (Text.IsBoundary source)) : sp.IsIn source := by
  cases sp with
  | synthetic => trivial
  | range start stop => exact ⟨h.le, h.stop.le, h.start, h.stop⟩

theorem SyntaxError.AllIn.of_on {errors : List SyntaxError}
    (h : errors ≠ [] ∧ ∀ e ∈ errors, e.span.On (Text.IsBoundary source)) : AllIn source errors :=
  h.imp_right fun h e he => (h e he).isIn

theorem Span.On.marks {sp : Span} (h : sp.On (Text.IsBoundary source)) {d : Diagnostic}
    (hoffset : d.offset = sp.start) (hlength : d.length = sp.length) : d.Marks source := by
  have hle := h.le
  have hstop : d.offset + d.length = sp.stop := by
    rw [hoffset, hlength, Span.length]
    omega
  rw [Diagnostic.Marks, hstop, hoffset]
  exact ⟨h.le, h.stop.le, h.start, h.stop⟩

theorem Failure.Accounted.on_span {f : Failure} (h : f.Accounted (Span.On (Text.IsBoundary source)))
    {sp : Span} (hsp : f.span? = some sp) : sp.On (Text.IsBoundary source) := by
  cases f <;> cases hsp <;> exact h

theorem Failure.Accounted.standsIn {f : Failure}
    (h : f.Accounted (Span.On (Text.IsBoundary source))) :
    f.StandsIn source where
  errors := by
    rintro path errors rfl
    exact .of_on h
  span sp hsp := (h.on_span hsp).isIn
  marks loaded ds hreport := by
    unfold Failure.report at hreport
    split at hreport
    · cases hreport
      exact List.forall_mem_map.mpr fun e he => (h.2 e he).marks rfl rfl
    · split at hreport
      · rename_i d hd
        unfold Failure.diagnostic? at hd
        split at hd
        · rename_i hsp
          cases hd
          split at hreport <;> cases hreport
          exact List.forall_mem_singleton.mpr ((h.on_span hsp).marks rfl rfl)
        · cases hd
      · cases hreport

end

/-- Functions that are declared again are reported at their names. -/
theorem Function.span_of_mem_errors {ds : List FuncDecl} {known : List Function} {e : SyntaxError}
    (h : e ∈ (collect ds known).2) : ∃ d ∈ ds, e.span = d.name.span := by
  fun_induction collect ds known with
  | case1 => cases h
  | case2 d ds known first hfind functions errors hcollect ih =>
    rcases List.mem_cons.mp h with rfl | h
    · exact ⟨d, List.mem_cons_self, rfl⟩
    · obtain ⟨d', hd', hspan⟩ := ih (hcollect ▸ h)
      exact ⟨d', List.mem_cons_of_mem _ hd', hspan⟩
  | case3 d ds known hfind f functions errors hcollect ih =>
    obtain ⟨d', hd', hspan⟩ := ih (hcollect ▸ h)
    exact ⟨d', List.mem_cons_of_mem _ hd', hspan⟩

/-- A program that is not loaded has syntax errors in its text. -/
theorem Program.accounted_of_load {path source : String} {f : Failure}
    (h : Program.load path source = .error f) :
    f.Accounted (Span.On (Text.IsBoundary source.toList)) := by
  unfold Program.load at h
  split at h
  · rename_i errors hparse
    cases h
    exact errors_of_parseFile hparse
  · rename_i file hparse
    have hfile := intact_of_parseFile (K := TokenKind.IsRead) (fun _ h => h) (fun _ h => h) hparse
    split at h
    · cases h
      exact ⟨List.cons_ne_nil _ _, List.forall_mem_singleton.mpr hfile.package.2⟩
    · split at h
      · cases h
      · rename_i functions errors hne hcollect
        cases h
        refine ⟨hne, fun e he => ?_⟩
        have he : e ∈ (Function.collect (file.functions.filter FuncDecl.isLaunchable) []).2 := by
          rwa [hcollect]
        obtain ⟨d, hd, hspan⟩ := Function.span_of_mem_errors he
        rw [hspan]
        exact (hfile.decls _ (File.mem_functions (List.mem_filter.mp hd).1)).head.1.2

/-- Whatever is wrong with a text or with the program of it has a place in the text. -/
theorem failures_stand_in_source (path source : String) :
    (∀ errors, scan source.toList = .error errors → SyntaxError.AllIn source.toList errors) ∧
    (∀ errors, parseFile source = .error errors → SyntaxError.AllIn source.toList errors) ∧
    (∀ f, Program.load path source = .error f → f.StandsIn source.toList) ∧
    ∀ program, Program.load path source = .ok program → ∀ config f,
      program.compile config = .error f → f.StandsIn source.toList := by
  refine ⟨fun _ h => .of_on (errors_of_scan h), fun _ h => .of_on (errors_of_parseFile h),
    fun _ h => (Program.accounted_of_load h).standsIn, fun program hload config f hf => ?_⟩
  have haccounted : (accounted _).Gives (program.compile config) _ := Program.gives_compile hload
  rw [hf] at haccounted
  exact Failure.Accounted.standsIn haccounted

/-- A program whose launched function sends twice. -/
def secondSend : String :=
  "package main

func f(out chan int) \x7b
\tout <- 1
\tout <- 2
\x7d

func main() \x7b
\tch := make(chan int)
\tgo f(ch)
\t<-ch
\x7d
"

/-- A text with a character that starts no token is refused at every stage, and a second send is
refused when the program is split. -/
theorem secondSend_stands_in_source :
    (∃ errors f, scan "@".toList = .error errors ∧ parseFile "@" = .error errors ∧
      SyntaxError.AllIn "@".toList errors ∧ Program.load "main.go" "@" = .error f ∧
      f.StandsIn "@".toList) ∧
    ∃ program f, Program.load "main.go" secondSend = .ok program ∧ program.compile {} = .error f ∧
      f.span? = some (.range 48 56) ∧ f.StandsIn secondSend.toList := by
  constructor
  · obtain ⟨hscan, hparse, hload, -⟩ := failures_stand_in_source "main.go" "@"
    exact ⟨_, _, rfl, rfl, hparse _ rfl, rfl, hload _ rfl⟩
  · obtain ⟨program, hload, hcompile⟩ : ∃ program, Program.load "main.go" secondSend = .ok program ∧
        (match program.compile {} with
          | .error f => f.span? == some (.range 48 56)
          | .ok _ => false) = true := by
      refine Program.exists_load "main.go" ?_
      rw [secondSend]
      simp only [String.reduceToList]
      decide +kernel
    split at hcompile
    · rename_i f hf
      obtain ⟨-, -, -, hstands⟩ := failures_stand_in_source "main.go" secondSend
      exact ⟨program, f, hload, hf, beq_iff_eq.mp hcompile, hstands program hload {} f hf⟩
    · cases hcompile

end ServiceSplit
