import ServiceSplit.Proofs.Artifact.Names
import ServiceSplit.Proofs.Compilation.Replacement

/-!
# Artifacts that are told apart

A registry knows an artifact by its image, a platform by its workload, and the controller a service
by the variable that holds its address. All three are made from the artifact's name, and none keeps
all of it: letters lose their case, and other characters than ASCII letters and digits lose
themselves.

The workload keeps the least. It is the artifact's label: the runs of ASCII letters and digits of
its name, in lower case, with hyphens between them. So artifacts are told apart exactly if no two
have the same label. Only the names themselves are looked at when a program is compiled, and a
function `Controller` becomes a service that has the image and the workload of the controller.
-/

namespace ServiceSplit

/-! ### Letters and digits -/

namespace Text

theorem isAsciiWord_iff {c : Char} : isAsciiWord c = true ↔
    ('A' ≤ c ∧ c ≤ 'Z' ∨ 'a' ≤ c ∧ c ≤ 'z') ∨ '0' ≤ c ∧ c ≤ '9' := by
  have heq : isAsciiWord c = (decide ('A' ≤ c ∧ c ≤ 'Z') ||
    decide ('a' ≤ c) && decide (c ≤ 'z') || decide ('0' ≤ c) && decide (c ≤ '9')) := rfl
  simp [heq]

/-- What holds of each ASCII character holds of all characters, if it holds of those that have no
case and stand in no word. -/
theorem charCases {P : Char → Prop} (ascii : ∀ n < 128, P (Char.ofNat n))
    (other : ∀ c : Char, isAsciiWord c = false → c.toLower = c → c.toUpper = c → P c)
    (c : Char) : P c := by
  by_cases hc : c.toNat < 128
  · simpa using ascii c.toNat hc
  · have hval : 128 ≤ c.val := UInt32.le_iff_toNat_le.mpr (Nat.le_of_not_lt hc)
    refine other c ?_ ?_ ?_
    · rw [Bool.eq_false_iff, Ne, isAsciiWord_iff]
      grind [Char.le_def]
    · unfold Char.toLower; grind
    · unfold Char.toUpper; grind

@[simp] theorem isAsciiWord_toLower (c : Char) : isAsciiWord c.toLower = isAsciiWord c := by
  induction c using charCases with
  | ascii => decide +revert
  | other c hword hlower hupper => rw [hlower]

end Text

/-- A character of a name, as a label has it. -/
def labelChar (c : Char) : Char :=
  if Text.isAsciiWord c then c.toLower else '-'

theorem labelChar_eq_hyphen_iff {c : Char} : labelChar c = '-' ↔ Text.isAsciiWord c = false := by
  unfold labelChar
  split
  · rename_i hc
    refine ⟨fun h => ?_, fun h => absurd hc (by simp [h])⟩
    rw [← Text.isAsciiWord_toLower, h] at hc
    exact absurd hc (by decide)
  · rename_i hc
    simpa using hc

@[simp] theorem labelChar_toLower (c : Char) : labelChar c.toLower = labelChar c := by
  induction c using Text.charCases with
  | ascii => decide +revert
  | other c hword hlower hupper => rw [hlower]

/-- A character of a name, as the variable of an address has it. -/
def keyChar (c : Char) : Char :=
  if Text.isAsciiWord c then c.toUpper else '_'

theorem serviceVariable_eq (service : String) :
    serviceVariable service = "KOMPILE_SERVICE_" ++ service.map keyChar :=
  rfl

@[simp] theorem labelChar_keyChar (c : Char) : labelChar (keyChar c) = labelChar c := by
  induction c using Text.charCases with
  | ascii => decide +revert
  | other c hword hlower hupper => rw [keyChar, labelChar, labelChar, hword]; rfl

/-! ### Labels -/

/-- The runs of ASCII letters and digits, in lower case. -/
def labelWords (cs : List Char) : List (List Char) :=
  ((cs.splitOnP fun c => !Text.isAsciiWord c).filter fun word => !word.isEmpty).map
    (List.map Char.toLower)

/-- The label of a name: its letters and digits in lower case, one hyphen for what stands between
them, and no more than a label may have. -/
def label (name : String) : String :=
  match labelWords name.toList with
  | [] => "kompile"
  | words => String.ofList ((['-'].intercalate words).take maxLabelLength)

/-- Whether a text starts with a letter or digit. -/
def startsWord (cs : List Char) : Bool :=
  cs.head?.any Text.isAsciiWord

@[simp] theorem labelWords_nil : labelWords [] = [] :=
  rfl

theorem labelWords_cons_of_not_word {c : Char} (hc : Text.isAsciiWord c = false) (cs : List Char) :
    labelWords (c :: cs) = labelWords cs := by
  simp [labelWords, List.splitOnP_cons_eq_if_modifyHead, hc]

/-- A letter or digit continues the first word, or is a word by itself. -/
theorem labelWords_cons_of_word {c : Char} (hc : Text.isAsciiWord c = true) (cs : List Char) :
    (startsWord cs = false ∧ labelWords (c :: cs) = [c.toLower] :: labelWords cs) ∨
      ∃ word words, startsWord cs = true ∧ labelWords cs = word :: words ∧
        labelWords (c :: cs) = (c.toLower :: word) :: words := by
  have hcons : ∀ d ds, Text.isAsciiWord d = true → ∃ word words,
      (ds.splitOnP fun c => !Text.isAsciiWord c) = word :: words ∧
        ((d :: ds).splitOnP fun c => !Text.isAsciiWord c) = (d :: word) :: words := by
    intro d ds hd
    obtain ⟨word, words, hsplit⟩ := List.exists_cons_of_ne_nil
      (List.splitOnP_ne_nil (fun c => !Text.isAsciiWord c) ds)
    refine ⟨word, words, hsplit, ?_⟩
    simp [List.splitOnP_cons_eq_if_modifyHead, hd, hsplit]
  obtain ⟨word, words, hsplit, hsplit'⟩ := hcons c cs hc
  cases cs with
  | nil =>
    refine .inl ⟨rfl, ?_⟩
    rw [List.splitOnP_nil] at hsplit
    cases hsplit
    simp [labelWords, hsplit']
  | cons d ds =>
    cases hd : Text.isAsciiWord d with
    | false =>
      refine .inl ⟨by simp [startsWord, hd], ?_⟩
      rw [List.splitOnP_cons_eq_if_modifyHead, if_pos (by simp [hd])] at hsplit
      cases hsplit
      rw [labelWords_cons_of_not_word hd]
      simp [labelWords, hsplit']
    | true =>
      obtain ⟨word', words', -, hsplit''⟩ := hcons d ds hd
      cases hsplit.symm.trans hsplit''
      refine .inr ⟨(d :: word').map Char.toLower,
        (words.filter fun word => !word.isEmpty).map (List.map Char.toLower),
        by simp [startsWord, hd], ?_, ?_⟩
      · simp only [labelWords, hsplit'']
        rfl
      · simp [labelWords, hsplit']

theorem hyphenated_cons (c : Char) (cs : List Char) : hyphenated (c :: cs) =
    if labelChar c = '-' ∧ (hyphenated cs).head? = some '-' then hyphenated cs
    else labelChar c :: hyphenated cs := by
  rw [hyphenated]
  cases hc : Text.isAsciiWord c with
  | false => simp [labelChar, hc]
  | true =>
    have hne : labelChar c ≠ '-' := fun h => by simp [labelChar_eq_hyphen_iff.mp h] at hc
    simp only [hne, false_and, if_false]
    simp [labelChar, hc]

/-- Characters that are the same in a label are hyphenated in the same way. -/
theorem hyphenated_congr {cs ds : List Char} (h : cs.map labelChar = ds.map labelChar) :
    hyphenated cs = hyphenated ds := by
  induction cs generalizing ds with
  | nil =>
    cases ds with
    | nil => rfl
    | cons d ds => cases h
  | cons c cs ih =>
    cases ds with
    | nil => cases h
    | cons d ds =>
      simp only [List.map_cons, List.cons.injEq] at h
      rw [hyphenated_cons, hyphenated_cons, h.1, ih h.2]

theorem workloadName_congr {a b : String} (h : a.toList.map labelChar = b.toList.map labelChar) :
    workloadName a = workloadName b := by
  rw [workloadName, workloadName, hyphenated_congr h]

/-- A workload depends on what `f` keeps of a name, if labels do. -/
theorem workloadName_of_map {f : Char → Char} (hf : ∀ c, labelChar (f c) = labelChar c)
    {a b : String}
    (h : a.map f = b.map f) : workloadName a = workloadName b := by
  have hmap : ∀ s : String, (s.map f).toList.map labelChar = s.toList.map labelChar := by
    intro s
    rw [String.toList_map, List.map_map]
    exact List.map_congr_left fun c _ => hf c
  refine workloadName_congr ?_
  rw [← hmap a, h, hmap b]

/-- Names with the same image have the same workload. -/
theorem workloadName_of_imageName {location a b : String}
    (h : imageName location a = imageName location b) : workloadName a = workloadName b := by
  refine workloadName_of_map labelChar_toLower (String.toList_inj.mp ?_)
  simpa [imageName] using congrArg String.toList h

/-- Names with the same variable have the same workload. -/
theorem workloadName_of_serviceVariable {a b : String} (h : serviceVariable a = serviceVariable b) :
    workloadName a = workloadName b := by
  rw [serviceVariable_eq, serviceVariable_eq] at h
  refine workloadName_of_map labelChar_keyChar (String.toList_inj.mp ?_)
  simpa using congrArg String.toList h

/-! ### Workloads are called by labels -/

theorem head?_hyphenated (cs : List Char) :
    (hyphenated cs).head? = some '-' ↔ cs ≠ [] ∧ startsWord cs = false := by
  cases cs with
  | nil => simp [hyphenated]
  | cons c cs =>
    rw [hyphenated_cons, startsWord, List.head?_cons, Option.any_some, ← labelChar_eq_hyphen_iff]
    split
    · rename_i h
      simp [h]
    · simp

/-- Hyphenating a text puts a hyphen before its words if there is something before them, and perhaps
some behind. -/
theorem exists_hyphenated_eq (cs : List Char) : ∃ trail, (∀ c ∈ trail, c = '-') ∧
    hyphenated cs = (if cs = [] ∨ startsWord cs = true then [] else ['-']) ++
      (['-'].intercalate (labelWords cs) ++ trail) := by
  induction cs with
  | nil => exact ⟨[], List.forall_mem_nil _, rfl⟩
  | cons c cs ih =>
    obtain ⟨trail, htrail, ih⟩ := ih
    cases hc : Text.isAsciiWord c with
    | false =>
      refine ⟨trail, htrail, ?_⟩
      have hstarts : ¬(c :: cs = [] ∨ startsWord (c :: cs) = true) := by simp [startsWord, hc]
      rw [hyphenated_cons, labelChar_eq_hyphen_iff.mpr hc, if_neg hstarts,
        labelWords_cons_of_not_word hc]
      by_cases hcs : cs = [] ∨ startsWord cs = true
      · have hhead : ¬(hyphenated cs).head? = some '-' := by
          simpa [head?_hyphenated, or_iff_not_imp_left] using hcs
        rw [if_pos hcs] at ih
        rw [if_neg fun h => hhead h.2, ih]
        rfl
      · have hhead : (hyphenated cs).head? = some '-' := by
          simpa [head?_hyphenated] using hcs
        rw [if_neg hcs] at ih
        rw [if_pos ⟨rfl, hhead⟩, ih]
    | true =>
      have hne : labelChar c ≠ '-' := fun h => by simp [labelChar_eq_hyphen_iff.mp h] at hc
      have hstarts : startsWord (c :: cs) = true := by simp [startsWord, hc]
      have hlower : labelChar c = c.toLower := by simp [labelChar, hc]
      rw [hyphenated_cons, if_neg fun h => hne h.1, if_pos (.inr hstarts), hlower]
      rcases labelWords_cons_of_word hc cs with ⟨hcs, hwords⟩ | ⟨word, words, hcs, hword, hwords⟩
      · by_cases hnil : cs = []
        · subst hnil
          exact ⟨[], List.forall_mem_nil _, by simp [hwords, hyphenated, List.intercalate]⟩
        · rw [if_neg (by simp [hnil, hcs])] at ih
          rw [ih, hwords]
          -- What follows is a hyphen before the next word, or behind the last one.
          cases labelWords cs with
          | nil =>
            refine ⟨'-' :: trail, List.forall_mem_cons.mpr ⟨rfl, htrail⟩, ?_⟩
            simp [List.intercalate]
          | cons w ws => exact ⟨trail, htrail, by simp⟩
      · refine ⟨trail, htrail, ?_⟩
        rw [ih, if_pos (.inr hcs), hword, hwords]
        cases words <;> simp [List.intercalate]

/-- Words are not empty and hold no hyphens. -/
theorem of_mem_labelWords {cs word : List Char} (h : word ∈ labelWords cs) :
    word ≠ [] ∧ '-' ∉ word := by
  induction cs generalizing word with
  | nil => cases h
  | cons c cs ih =>
    cases hc : Text.isAsciiWord c with
    | false => exact ih (labelWords_cons_of_not_word hc cs ▸ h)
    | true =>
      have hne : '-' ≠ c.toLower := by
        intro heq
        rw [← Text.isAsciiWord_toLower, ← heq] at hc
        exact absurd hc (by decide)
      rcases labelWords_cons_of_word hc cs with ⟨-, hwords⟩ | ⟨w, ws, -, hword, hwords⟩
      · rw [hwords] at h
        rcases List.mem_cons.mp h with rfl | h
        · simp [hne]
        · exact ih h
      · rw [hwords] at h
        rcases List.mem_cons.mp h with rfl | h
        · have hw := ih (hword ▸ List.mem_cons_self)
          simp [hne, hw.2]
        · exact ih (hword ▸ List.mem_cons_of_mem w h)

/-- Words that are joined neither start nor end with a hyphen. -/
theorem ends_intercalate {words : List (List Char)} (h : ∀ w ∈ words, w ≠ [] ∧ '-' ∉ w) :
    (['-'].intercalate words).head? ≠ some '-' ∧
      (['-'].intercalate words).getLast? ≠ some '-' ∧
      (['-'].intercalate words = [] ↔ words = []) := by
  have hhead : ∀ {w : List Char}, '-' ∉ w → w.head? ≠ some '-' := fun hw heq =>
    hw (List.mem_of_mem_head? heq)
  have hlast : ∀ {w : List Char}, '-' ∉ w → w.getLast? ≠ some '-' := fun hw heq =>
    hw (List.mem_of_getLast? heq)
  induction words with
  | nil => simp
  | cons w ws ih =>
    obtain ⟨⟨hne, hw⟩, hws⟩ := List.forall_mem_cons.mp h
    cases ws with
    | nil => simp [List.intercalate, hhead hw, hlast hw, hne]
    | cons v vs =>
      obtain ⟨-, hlast', hnil⟩ := ih hws
      have hne' : ['-'].intercalate (v :: vs) ≠ [] := fun h => by simpa using hnil.mp h
      rw [List.intercalate_cons_cons]
      refine ⟨?_, ?_, by simp [hne]⟩
      · rw [List.append_assoc, List.head?_append_of_ne_nil _ hne]
        exact hhead hw
      · rwa [List.getLast?_append_of_ne_nil _ hne']

/-- Trimming removes the hyphens around a text that neither starts nor ends with one. -/
theorem trimHyphens_append {lead core trail : List Char} (hlead : ∀ c ∈ lead, c = '-')
    (htrail : ∀ c ∈ trail, c = '-') (hhead : core.head? ≠ some '-')
    (hlast : core.getLast? ≠ some '-') : trimHyphens (lead ++ (core ++ trail)) = core := by
  have hdrop : ∀ {hyphens rest : List Char}, (∀ c ∈ hyphens, c = '-') →
      (hyphens ++ rest).dropWhile (· == '-') = rest.dropWhile (· == '-') := by
    intro hyphens rest hall
    rw [List.dropWhile_append, List.dropWhile_eq_nil_iff.mpr (by simpa using hall)]
    rfl
  have hkeep : ∀ {cs : List Char}, cs.head? ≠ some '-' → cs.dropWhile (· == '-') = cs := by
    intro cs hcs
    cases cs with
    | nil => rfl
    | cons c cs => exact List.dropWhile_cons_of_neg (by simpa using hcs)
  rw [trimHyphens, hdrop hlead]
  cases core with
  | nil =>
    rw [List.nil_append, ← List.append_nil trail, hdrop htrail]
    rfl
  | cons c cs =>
    have hfront : (c :: cs ++ trail).dropWhile (· == '-') = c :: cs ++ trail :=
      hkeep (by simpa using hhead)
    rw [hfront, List.reverse_append, hdrop (by simpa using htrail),
      hkeep (by rwa [List.head?_reverse]), List.reverse_reverse]

/-- What is left of a name without the hyphens at its ends are its words. -/
theorem trimHyphens_hyphenated (cs : List Char) :
    trimHyphens (hyphenated cs) = ['-'].intercalate (labelWords cs) := by
  obtain ⟨trail, htrail, heq⟩ := exists_hyphenated_eq cs
  obtain ⟨hhead, hlast, -⟩ := ends_intercalate fun _ => @of_mem_labelWords cs _
  have hlead : ∀ c ∈ (if cs = [] ∨ startsWord cs = true then [] else ['-']), c = '-' := by
    split <;> simp
  rw [heq, trimHyphens_append hlead htrail hhead hlast]

/-- A workload is called by the label of its artifact. -/
theorem workloadName_eq_label (artifact : String) : workloadName artifact = label artifact := by
  obtain ⟨-, -, hnil⟩ := ends_intercalate fun _ => @of_mem_labelWords artifact.toList _
  rw [workloadName, trimHyphens_hyphenated, label]
  cases hsome : labelWords artifact.toList with
  | nil => rfl
  | cons w ws =>
    split
    · rename_i hjoined
      rw [hsome] at hnil
      cases hnil.mp hjoined
    · rfl

/-! ### The address of a service -/

/-- The variable in which the controller looks for the address of a service. -/
def addressKey (service : String) : String :=
  "KOMPILE_SERVICE_" ++ service.map fun r =>
    if 'a' ≤ r ∧ r ≤ 'z' then .ofNat (r.toNat - 'a'.toNat + 'A'.toNat)
    else if 'A' ≤ r ∧ r ≤ 'Z' ∨ '0' ≤ r ∧ r ≤ '9' then r
    else '_'

/-- The controller looks where the address is. -/
theorem addressKey_eq_serviceVariable (service : String) :
    addressKey service = serviceVariable service := by
  delta addressKey
  rw [serviceVariable_eq]
  congr 2
  funext r
  induction r using Text.charCases with
  | ascii => decide +revert
  | other c hword hlower hupper =>
    rw [keyChar, hword]
    rw [Bool.eq_false_iff, Ne, Text.isAsciiWord_iff] at hword
    grind

/-- The artifacts of a compilation are told apart: no two have the same image at a location, the
same workload or the same variable, and where the controller looks for the address of a service that
it dispatches to, it finds that one and no other. -/
structure Compilation.Identifies (c : Compilation) (config : Config) (location : String) :
    Prop where
  images : (c.artifactNames.map (imageName location)).Nodup
  workloads : (c.artifactNames.map workloadName).Nodup
  keys : (c.services.map (serviceVariable ∘ Service.name)).Nodup
  lookup : ∀ (address : String → String), ∀ service ∈ c.controller.services, ∀ value,
    (addressKey service, value) ∈ config.controllerVariables c.controller.services address ↔
      value = address service

namespace Program

variable {path source : String} {program : Program} {config : Config} {c : Compilation}

/-- The controller dispatches to services. -/
theorem mem_services_of_dispatched (hload : Program.load path source = .ok program)
    (h : program.compile config = .ok c) {name : String} (hname : name ∈ c.controller.services) :
    name ∈ c.services.map Service.name := by
  obtain ⟨edited, added, hreplaces⟩ := Program.exists_replaces hload h
  rw [hreplaces.services, List.mem_eraseDups] at hname
  rw [(Program.compile_services h).mem_iff]
  obtain ⟨l, hl, rfl⟩ := List.mem_map.mp hname
  exact List.mem_map_of_mem (List.mem_filter.mp hl).1

/-- Artifacts are told apart exactly if their labels differ. -/
theorem identifies_iff (hload : Program.load path source = .ok program)
    (h : program.compile config = .ok c) (location : String) :
    c.Identifies config location ↔ (c.artifactNames.map label).Nodup := by
  have hlabel : c.artifactNames.map label = c.artifactNames.map workloadName :=
    List.map_congr_left fun a _ => (workloadName_eq_label a).symm
  rw [hlabel]
  refine ⟨Compilation.Identifies.workloads, fun hworkloads => ?_⟩
  have hinj : ∀ a ∈ c.artifactNames, ∀ b ∈ c.artifactNames, workloadName a = workloadName b →
    a = b :=
    fun a ha b hb => List.inj_on_of_nodup_map hworkloads ha hb
  have hnodup := Program.nodup_artifactNames h
  have hservice : ∀ name ∈ c.services.map Service.name, name ∈ c.artifactNames :=
    fun name hname => List.mem_append_left _ hname
  have hvariable : ∀ a ∈ c.services.map Service.name, ∀ b ∈ c.services.map Service.name,
      serviceVariable a = serviceVariable b → a = b :=
    fun a ha b hb heq =>
      hinj a (hservice a ha) b (hservice b hb) (workloadName_of_serviceVariable heq)
  have hdispatched : ∀ name ∈ c.controller.services, name ∈ c.services.map Service.name :=
    fun name => mem_services_of_dispatched hload h
  refine ⟨?_, hworkloads, ?_, fun address service hs value => ?_⟩
  · exact hnodup.map_on fun a ha b hb heq => hinj a ha b hb (workloadName_of_imageName heq)
  · rw [← List.map_map]
    exact (List.nodup_append.mp hnodup).1.map_on hvariable
  · rw [addressKey_eq_serviceVariable, Config.controllerVariables, List.mem_cons, List.mem_map]
    constructor
    · rintro (hport | ⟨other, hother, heq⟩)
      · have hlist := congrArg String.toList (congrArg Prod.fst hport)
        simp [serviceVariable_eq] at hlist
      · cases hvariable other (hdispatched other hother) service (hdispatched service hs)
          (congrArg Prod.fst heq)
        exact (congrArg Prod.snd heq).symm
    · rintro rfl
      exact .inr ⟨service, hs, rfl⟩

end Program

/-- A program that launches a function called like the controller, but for the case of a letter. -/
def capitalController : String :=
  "package main

func Controller(out chan int) \x7b
\tout <- 1
\x7d

func start() int \x7b
\tch := make(chan int)
\tgo Controller(ch)
\treturn <-ch
\x7d
"

/-- The texts made for a function `Controller` can be read. -/
private def plainNameController : PlainName where
  name := "Controller"
  entry := by
    simp only [Entry.plainText, Entry.handlerText, Entry.decoding, Entry.arguments, Entry.mainText,
      Text.lines, List.cons_append, List.nil_append, List.map_cons, List.map_nil,
      String.toList_append, String.toList_join, List.flatMap_cons, List.flatMap_nil]
    simp only [String.reduceToList]
    decide +kernel
  route := by
    refine ⟨_, Route.text_singleton (by decide) (rfl : _ = Except.ok "int"), ?_⟩
    have hkey : Text.quote ("Controller" ++ "_out") = "\"Controller_out\"" := rfl
    have hpath : Text.quote ("/" ++ ("Controller" ++ "_out")) = "\"/Controller_out\"" := rfl
    simp only [routesName, hkey, hpath, Text.lines, List.map_cons, List.map_nil,
      String.toList_append, String.toList_join, List.flatMap_cons, List.flatMap_nil]
    simp only [String.reduceToList]
    decide +kernel

private def capitalControllerText : LaunchingText "Controller" ["start"]
    (fun program _ => program.launches.callees == ["Controller"]) where
  text := capitalController
  reads := by
    rw [capitalController]
    simp only [String.reduceToList]
    decide +kernel

/-- The service of `f` and the controller are told apart. -/
theorem oneLaunch_identifies : ∃ program c, Program.load "main.go" oneLaunch = .ok program ∧
    program.compile {} = .ok c ∧ c.artifactNames = ["f", "controller"] ∧
      ∀ location, c.Identifies {} location := by
  obtain ⟨program, c, -, hload, hc, -, hcallees⟩ :=
    Program.exists_load_compile plainNameF "main.go" oneLaunchText
  have hnames : c.artifactNames = ["f", "controller"] := by
    rw [Compilation.artifactNames, Program.compile_services_name hc, beq_iff_eq.mp hcallees]
    rfl
  refine ⟨program, c, hload, hc, hnames, fun location => ?_⟩
  refine (Program.identifies_iff hload hc location).mpr ?_
  rw [hnames]
  decide

/-- The service of `Controller` and the controller are not told apart. -/
theorem capitalController_not_identifies : ∃ program c,
    Program.load "main.go" capitalController = .ok program ∧ program.compile {} = .ok c ∧
      c.artifactNames = ["Controller", "controller"] ∧ ∀ location, ¬c.Identifies {} location := by
  obtain ⟨program, c, -, hload, hc, -, hcallees⟩ :=
    Program.exists_load_compile plainNameController "main.go" capitalControllerText
  have hnames : c.artifactNames = ["Controller", "controller"] := by
    rw [Compilation.artifactNames, Program.compile_services_name hc, beq_iff_eq.mp hcallees]
    rfl
  refine ⟨program, c, hload, hc, hnames, fun location hidentifies => ?_⟩
  have hworkloads := hidentifies.workloads
  rw [hnames] at hworkloads
  revert hworkloads
  decide

end ServiceSplit
