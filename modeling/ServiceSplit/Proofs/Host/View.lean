import Mathlib.Data.List.Infix
import ServiceSplit.Host.FileTree
import ServiceSplit.Proofs.Except

/-!
# Places of a file tree

What a file tree shows at each place: nothing, a directory, or a file with its text. The operations
on file trees are described by what they change at which places, so that nothing else needs to know
how a tree is stored.
-/

namespace ServiceSplit

/-! ### Nodes -/

namespace Node

/-- The text of a file, or none for a directory. -/
def text? : Node → Option String
  | file text => some text
  | directory _ => none

/-- What is seen at a place inside. -/
def view (n : Node) (place : Location) : Option (Option String) :=
  (n.get? place).map text?

theorem view_nil (n : Node) : n.view [] = some n.text? :=
  rfl

theorem view_file_cons (text name : String) (names : Location) :
    (file text).view (name :: names) = none :=
  rfl

theorem view_directory_cons (entries : List (String × Node)) (name : String) (names : Location) :
    (directory entries).view (name :: names) = (entries.lookup name).bind (·.view names) := by
  unfold view
  rw [get?]
  cases entries.lookup name <;> rfl

/-- Nothing is seen below what is no directory. -/
theorem view_append_of_ne {n : Node} {place : Location} (h : n.view place ≠ some none)
    (name : String)
    (names : Location) : n.view (place ++ name :: names) = none := by
  induction place generalizing n with
  | nil =>
    cases n with
    | file text => exact view_file_cons text name names
    | directory entries => exact absurd rfl h
  | cons first place ih =>
    cases n with
    | file text => exact view_file_cons text first _
    | directory entries =>
      rw [view_directory_cons] at h
      rw [List.cons_append, view_directory_cons]
      cases hfirst : entries.lookup first with
      | none => rfl
      | some m =>
        rw [hfirst] at h
        exact ih h

theorem lookup_filter_ne {entries : List (String × Node)} {name other : String} (h : other ≠ name) :
    (entries.filter (·.1 != name)).lookup other = entries.lookup other := by
  induction entries with
  | nil => rfl
  | cons e entries ih =>
    rw [List.filter_cons]
    by_cases he : e.1 = name
    · have hother : (other == e.1) = false := by simpa [he] using h
      simp only [he, bne_self_eq_false, Bool.false_eq_true, if_false, ih]
      rw [List.lookup_cons, hother]
    · simp only [bne_iff_ne.mpr he, if_true]
      rw [List.lookup_cons, List.lookup_cons, ih]

theorem lookup_filter_self (entries : List (String × Node)) (name : String) :
    (entries.filter (·.1 != name)).lookup name = none := by
  rw [List.lookup_eq_none_iff]
  intro e he
  have hne : e.1 ≠ name := by simpa using (List.mem_filter.mp he).2
  simpa using hne.symm

theorem lookup_setEntry (name other : String) (new : Option Node) (entries : List (String × Node)) :
    (setEntry name new entries).lookup other =
      if other = name then new else entries.lookup other := by
  unfold setEntry
  split
  · rename_i heq
    subst heq
    cases new with
    | none => exact lookup_filter_self entries other
    | some n => simp
  · rename_i hne
    cases new with
    | none => exact lookup_filter_ne hne
    | some n =>
      have hother : (other == name) = false := by simpa using hne
      rw [Option.toList_some, List.map_singleton, List.singleton_append, List.lookup_cons, hother]
      exact lookup_filter_ne hne

theorem set_directory_cons (new : Option Node) (entries : List (String × Node)) (name : String)
    {names : Location} (h : names ≠ []) :
    (directory entries).set new (name :: names) =
      match entries.lookup name with
      | some n => directory (setEntry name (some (n.set new names)) entries)
      | none => directory entries := by
  cases names with
  | nil => exact absurd rfl h
  | cons second names => rfl

/-- The places of a tree in which the node in a directory is exchanged or removed: those of the new
node at its own place, and all others as before. -/
theorem view_set (new : Option Node) (n : Node) (dir : Location) (name : String)
    (place : Location) :
    (n.set new (dir ++ [name])).view place =
      if dir ++ [name] <+: place ∧ n.view dir = some none then
        new.bind (·.view (place.drop (dir.length + 1)))
      else n.view place := by
  induction dir generalizing n place with
  | nil =>
    cases n with
    | file text => exact (if_neg fun h => nomatch h.2).symm
    | directory entries =>
      rw [List.nil_append, set, view_nil]
      cases place with
      | nil => exact (if_neg fun h => by simpa using h.1).symm
      | cons first place =>
        rw [view_directory_cons, lookup_setEntry, view_directory_cons]
        by_cases hfirst : first = name
        · subst hfirst
          rw [if_pos rfl, if_pos ⟨by simp [List.cons_prefix_cons], rfl⟩]
          rfl
        · rw [if_neg hfirst, if_neg]
          exact fun h => hfirst ((List.cons_prefix_cons.mp h.1).1).symm
  | cons outer dir ih =>
    cases n with
    | file text => exact (if_neg fun h => nomatch h.2).symm
    | directory entries =>
      rw [List.cons_append, set_directory_cons _ _ _ (by simp)]
      cases place with
      | nil =>
        rw [if_neg fun h => by simpa using h.1]
        cases entries.lookup outer <;> rfl
      | cons first place =>
        rw [view_directory_cons entries outer dir, List.length_cons, List.drop_succ_cons]
        cases houter : entries.lookup outer with
        | none => exact (if_neg fun h => nomatch h.2).symm
        | some m =>
          rw [view_directory_cons, lookup_setEntry, view_directory_cons]
          by_cases hfirst : first = outer
          · subst hfirst
            rw [if_pos rfl, houter]
            simpa [List.cons_prefix_cons] using ih m place
          · rw [if_neg hfirst, if_neg]
            exact fun h => hfirst ((List.cons_prefix_cons.mp h.1).1).symm

end Node

/-! ### Paths -/

/-- A name that leads from a directory to one of its entries. -/
structure IsEntryName (name : String) : Prop where
  no_slash : '/' ∉ name.toList
  ne_empty : name ≠ ""
  ne_dot : name ≠ "."
  ne_dots : name ≠ ".."

instance (name : String) : Decidable (IsEntryName name) :=
  decidable_of_iff ('/' ∉ name.toList ∧ name ≠ "" ∧ name ≠ "." ∧ name ≠ "..")
    ⟨fun ⟨h₁, h₂, h₃, h₄⟩ => ⟨h₁, h₂, h₃, h₄⟩, fun ⟨h₁, h₂, h₃, h₄⟩ => ⟨h₁, h₂, h₃, h₄⟩⟩

theorem Text.splitOn_ne_nil (sep : Char) (cs : List Char) : splitOn sep cs ≠ [] := by
  cases cs with
  | nil => simp [splitOn]
  | cons c cs =>
    rw [splitOn]
    split
    · simp
    · split <;> simp

theorem Text.splitOn_cons_self (sep : Char) (cs : List Char) :
    splitOn sep (sep :: cs) = [] :: splitOn sep cs := by
  rw [splitOn]
  split
  · rename_i h
    exact absurd h (splitOn_ne_nil sep cs)
  · rename_i h
    rw [if_pos rfl, h]

theorem Text.splitOn_of_notMem {sep : Char} {cs : List Char} (h : sep ∉ cs) :
    splitOn sep cs = [cs] := by
  induction cs with
  | nil => rfl
  | cons c cs ih =>
    rw [List.mem_cons, not_or] at h
    rw [splitOn, ih h.2]
    simp [Ne.symm h.1]

theorem Text.splitOn_append (sep : Char) (cs ds : List Char) :
    splitOn sep (cs ++ sep :: ds) = splitOn sep cs ++ splitOn sep ds := by
  induction cs with
  | nil => exact splitOn_cons_self sep ds
  | cons c cs ih =>
    rw [List.cons_append, splitOn, ih, splitOn]
    cases hcs : splitOn sep cs with
    | nil => exact absurd hcs (splitOn_ne_nil sep cs)
    | cons p ps =>
      simp only [List.cons_append]
      split <;> rfl

/-- The names on the way through a directory to its entries. -/
def namesInto (dir : String) : List String :=
  (pathNames (joinPath dir "")).dropLast

/-- The path of an entry is that of its directory, a slash and the name. -/
theorem exists_joinPath (dir : String) :
    ∃ front : List Char, ∀ name, (joinPath dir name).toList = front ++ '/' :: name.toList := by
  unfold joinPath
  split
  · rename_i h
    obtain ⟨front, hfront⟩ := List.getLast?_eq_some_iff.mp h
    exact ⟨front, fun name => by simp [hfront]⟩
  · exact ⟨dir.toList, fun name => by simp⟩

/-- Behind the name of an entry, a slash follows. -/
theorem toList_joinPath_joinPath (dir : String) {name : String} (h : IsEntryName name)
    (more : String) : (joinPath (joinPath dir name) more).toList =
      (joinPath dir name).toList ++ '/' :: more.toList := by
  obtain ⟨front, hfront⟩ := exists_joinPath dir
  have hne : name.toList ≠ [] := by simpa using h.ne_empty
  have hlast : (joinPath dir name).toList.getLast? ≠ some '/' := by
    rw [hfront, List.getLast?_append, List.getLast?_cons, List.getLast?_eq_some_getLast hne]
    intro heq
    have hslash : name.toList.getLast hne = '/' := Option.some.inj heq
    exact h.no_slash (hslash ▸ List.getLast_mem hne)
  rw [joinPath, if_neg hlast]
  simp

theorem pathNames_joinPath (dir : String) {name : String} (h : '/' ∉ name.toList) :
    pathNames (joinPath dir name) = namesInto dir ++ [name] := by
  obtain ⟨front, hfront⟩ := exists_joinPath dir
  have hnil : Text.splitOn '/' "".toList = [[]] := rfl
  unfold namesInto pathNames
  rw [hfront, hfront, Text.splitOn_append, Text.splitOn_append, Text.splitOn_of_notMem h, hnil]
  simp

theorem isAbsolute_joinPath (dir name : String) :
    isAbsolute (joinPath dir name) = isAbsolute (joinPath dir "") := by
  obtain ⟨front, hfront⟩ := exists_joinPath dir
  unfold isAbsolute
  rw [hfront, hfront]
  cases front <;> rfl

theorem namesInto_joinPath (dir : String) {name : String} (h : IsEntryName name) :
    namesInto (joinPath dir name) = namesInto dir ++ [name] := by
  have hnil : Text.splitOn '/' "".toList = [[]] := rfl
  rw [← pathNames_joinPath dir h.no_slash, namesInto, pathNames, toList_joinPath_joinPath dir h,
    Text.splitOn_append, hnil]
  simp [pathNames]

theorem isAbsolute_joinPath_joinPath (dir : String) {name : String} (h : IsEntryName name) :
    isAbsolute (joinPath (joinPath dir name) "") = isAbsolute (joinPath dir "") := by
  obtain ⟨front, hfront⟩ := exists_joinPath dir
  unfold isAbsolute
  rw [toList_joinPath_joinPath dir h, hfront, hfront]
  cases front <;> rfl

theorem follow_append (place : Location) (names more : List String) :
    follow place (names ++ more) = follow (follow place names) more := by
  induction names generalizing place with
  | nil => rfl
  | cons name names ih =>
    rw [List.cons_append, follow, follow]
    split
    · exact ih place
    · split
      · exact ih place.dropLast
      · exact ih (place ++ [name])

theorem follow_entry (place : Location) {name : String} (h : IsEntryName name) :
    follow place [name] = place ++ [name] := by
  rw [follow, if_neg (not_or.mpr ⟨h.ne_empty, h.ne_dot⟩), if_neg h.ne_dots, follow]

/-- A path that does not turn back stays below the place it starts from. -/
theorem prefix_follow {place : Location} {names : List String} (h : ".." ∉ names) :
    place <+: follow place names := by
  induction names generalizing place with
  | nil => exact List.prefix_rfl
  | cons name names ih =>
    obtain ⟨hname, hnames⟩ := List.ne_and_not_mem_of_not_mem_cons h
    rw [follow, if_neg hname.symm]
    split
    · exact ih hnames
    · exact (List.prefix_append place [name]).trans (ih hnames)

/-- The place that a path leads to from the directory `home`, whatever there is on the way. -/
def placeFrom (home : Location) (path : String) : Location :=
  follow (if isAbsolute path then [] else home) (pathNames path)

/-- The place of the entries of a directory. -/
def placeInto (home : Location) (dir : String) : Location :=
  follow (if isAbsolute (joinPath dir "") then [] else home) (namesInto dir)

theorem placeFrom_joinPath (home : Location) (dir : String) {name : String} (h : IsEntryName name) :
    placeFrom home (joinPath dir name) = placeInto home dir ++ [name] := by
  rw [placeFrom, isAbsolute_joinPath, pathNames_joinPath dir h.no_slash, follow_append,
    follow_entry _ h, placeInto]

theorem placeInto_joinPath (home : Location) (dir : String) {name : String} (h : IsEntryName name) :
    placeInto home (joinPath dir name) = placeInto home dir ++ [name] := by
  rw [placeInto, isAbsolute_joinPath_joinPath dir h, namesInto_joinPath dir h, follow_append,
    follow_entry _ h, placeInto]

/-! ### Trees -/

namespace FileTree

variable {t t' : FileTree} {place : Location} {path : String}

/-- What is seen at a place. -/
def view (t : FileTree) (place : Location) : Option (Option String) :=
  t.root.view place

theorem view_eq (t : FileTree) (place : Location) : t.view place = (t.node? place).map Node.text? :=
  rfl

theorem view_eq_none_iff : t.view place = none ↔ t.node? place = none := by
  rw [view_eq, Option.map_eq_none_iff]

theorem view_eq_file_iff {text : String} :
    t.view place = some (some text) ↔ t.node? place = some (.file text) := by
  rw [view_eq, Option.map_eq_some_iff]
  constructor
  · rintro ⟨n, hn, htext⟩
    cases n with
    | file s =>
      cases htext
      exact hn
    | directory entries => cases htext
  · exact fun h => ⟨_, h, rfl⟩

theorem view_eq_directory_iff :
    t.view place = some none ↔ ∃ entries, t.node? place = some (.directory entries) := by
  rw [view_eq, Option.map_eq_some_iff]
  constructor
  · rintro ⟨n, hn, htext⟩
    cases n with
    | file s => cases htext
    | directory entries => exact ⟨entries, hn⟩
  · exact fun ⟨entries, h⟩ => ⟨_, h, rfl⟩

/-- What is around something is a directory. -/
theorem view_of_append {name : String} {names : Location} {shown : Option String}
    (h : t.view (place ++ name :: names) = some shown) : t.view place = some none := by
  by_contra hne
  cases h.symm.trans (Node.view_append_of_ne hne name names)

/-- A step on a path: it starts in a directory. -/
theorem walk_cons_eq_ok_iff {name : String} {names : List String} {stop : Location} :
    t.walk place (name :: names) = .ok stop ↔ t.view place = some none ∧
      name.utf8ByteSize ≤ maxNameSize ∧ t.walk (follow place [name]) names = .ok stop := by
  rw [walk, view_eq_directory_iff]
  split
  · rename_i h
    simp [h]
  · rename_i h
    simp [h]
  · rename_i entries h
    rw [h]
    split
    · rename_i hlong
      simp [Nat.not_le.mpr hlong]
    · rename_i hshort
      simp [Nat.not_lt.mp hshort]

theorem eq_follow_of_walk {names : List String} {stop : Location}
    (h : t.walk place names = .ok stop) : stop = follow place names := by
  induction names generalizing place with
  | nil =>
    cases h
    rfl
  | cons name names ih =>
    rw [walk_cons_eq_ok_iff] at h
    rw [ih h.2.2, ← follow_append]
    rfl

theorem walk_append_eq_ok_iff {names more : List String} {stop : Location} :
    t.walk place (names ++ more) = .ok stop ↔
      t.walk place names = .ok (follow place names) ∧
        t.walk (follow place names) more = .ok stop := by
  induction names generalizing place with
  | nil => simp [walk, follow]
  | cons name names ih =>
    have hfollow : follow place (name :: names) = follow (follow place [name]) names :=
      follow_append place [name] names
    rw [List.cons_append, walk_cons_eq_ok_iff, walk_cons_eq_ok_iff, ih, hfollow]
    simp only [and_assoc]

/-- A walk through directories stays one where no directory has gone. -/
theorem walk_of_directories {names : List String} {stop : Location}
    (hdirs : ∀ q, t.view q = some none → t'.view q = some none)
    (h : t.walk place names = .ok stop) : t'.walk place names = .ok stop := by
  induction names generalizing place with
  | nil => exact h
  | cons name names ih =>
    rw [walk_cons_eq_ok_iff] at h ⊢
    exact ⟨hdirs _ h.1, h.2.1, ih h.2.2⟩

/-- A path that does not turn back can be followed to any directory. -/
theorem walk_of_view {names : List String} (hback : ".." ∉ names)
    (hsizes : ∀ name ∈ names, name.utf8ByteSize ≤ maxNameSize)
    (h : t.view (follow place names) = some none) :
    t.walk place names = .ok (follow place names) := by
  induction names generalizing place with
  | nil => rfl
  | cons name names ih =>
    obtain ⟨hsize, hsizes⟩ := List.forall_mem_cons.mp hsizes
    have hplace : t.view place = some none := by
      obtain ⟨more, hmore⟩ : place <+: follow place (name :: names) := prefix_follow hback
      cases more with
      | nil => rw [← h, ← hmore, List.append_nil]
      | cons first more =>
        rw [← hmore] at h
        exact view_of_append h
    rw [← List.singleton_append, follow_append] at h ⊢
    rw [List.singleton_append, walk_cons_eq_ok_iff]
    exact ⟨hplace, hsize, ih (fun hmem => hback (List.mem_cons_of_mem _ hmem)) hsizes h⟩

/-- A path that can be followed leads to its place. -/
theorem locate_eq_ok_iff {stop : Location} : t.locate path = .ok stop ↔
    path.utf8ByteSize ≤ maxPathSize ∧
      t.walk (if isAbsolute path then [] else t.home) (pathNames path) = .ok stop := by
  unfold locate origin
  split
  · rename_i hlong
    simp [Nat.not_le.mpr hlong]
  · rename_i hshort
    simp [Nat.not_lt.mp hshort]

theorem eq_placeFrom_of_locate {stop : Location} (h : t.locate path = .ok stop) :
    stop = placeFrom t.home path :=
  eq_follow_of_walk (locate_eq_ok_iff.mp h).2

/-- A path that can be followed leads to an entry of a directory, unless to the root. -/
theorem view_dir_of_walk {names : List String} (hne : names ≠ []) {dir : Location} {name : String}
    (h : t.walk place names = .ok (dir ++ [name])) : t.view dir = some none := by
  obtain ⟨front, last, rfl⟩ := List.eq_nil_or_concat names |>.resolve_left hne
  rw [List.concat_eq_append, walk_append_eq_ok_iff, walk_cons_eq_ok_iff] at h
  obtain ⟨-, hfront, -, hlast⟩ := h
  have hstop : dir ++ [name] = follow (follow place front) [last] :=
    eq_follow_of_walk hlast |>.trans rfl
  generalize follow place front = around at hfront hstop
  rw [follow] at hstop
  split at hstop
  · rw [follow] at hstop
    subst hstop
    exact view_of_append hfront
  split at hstop
  · -- Back from `around` to the directory around it.
    rw [follow] at hstop
    have hsplit : around ≠ [] := by
      rintro rfl
      simp at hstop
    rw [← List.dropLast_append_getLast hsplit, ← hstop, List.append_assoc] at hfront
    exact view_of_append hfront
  · rw [follow] at hstop
    obtain ⟨rfl, -⟩ := List.append_inj' hstop rfl
    exact hfront

theorem view_dir_of_locate {dir : Location} {name : String}
    (h : t.locate path = .ok (dir ++ [name])) : t.view dir = some none := by
  refine view_dir_of_walk ?_ (locate_eq_ok_iff.mp h).2
  unfold pathNames
  simpa using Text.splitOn_ne_nil '/' path.toList

theorem read_eq_ok_iff {text : String} : t.read path = .ok text ↔
    ∃ place, t.locate path = .ok place ∧ t.view place = some (some text) := by
  simp only [view_eq_file_iff]
  unfold read
  cases hlocate : t.locate path with
  | error e => simp [bind, Except.bind]
  | ok place =>
    simp only [bind, Except.bind]
    split
    · rename_i found hfound
      simp [hfound]
    · rename_i entries hfound
      simp [hfound]
    · rename_i hfound
      simp [hfound]

/-- Writing a file changes its own place only. -/
theorem view_of_write {text : String} {dir : Location} {name : String}
    (hpath : placeFrom t.home path = dir ++ [name]) (h : t.write path text = .ok t') :
    t'.home = t.home ∧ t.locate path = .ok (dir ++ [name]) ∧
      ∀ q, t'.view q = if q = dir ++ [name] then some (some text) else t.view q := by
  obtain ⟨stop, hlocate, h⟩ := exists_of_bind_eq_ok h
  obtain rfl := (eq_placeFrom_of_locate hlocate).trans hpath
  have hdir := view_dir_of_locate hlocate
  have hput : t' = t.put (dir ++ [name]) (.file text) ∧ t.view (dir ++ [name]) ≠ some none := by
    rw [Ne, view_eq_directory_iff]
    split at h
    · cases h
    · rename_i hfound
      cases h
      exact ⟨rfl, fun ⟨entries, hentries⟩ => hfound entries hentries⟩
  obtain ⟨rfl, hfree⟩ := hput
  refine ⟨rfl, hlocate, fun q => ?_⟩
  rw [view, put, Node.view_set]
  by_cases hq : dir ++ [name] <+: q
  · obtain ⟨more, rfl⟩ := hq
    rw [if_pos ⟨List.prefix_append _ _, hdir⟩]
    cases more with
    | nil => simp [Node.view_nil, Node.text?]
    | cons first more =>
      have hbelow : t.view (dir ++ [name] ++ first :: more) = none :=
        Node.view_append_of_ne hfree first more
      rw [if_neg (by simp), hbelow]
      simp [Node.view_file_cons]
  · rw [if_neg fun h => hq h.1, if_neg]
    · rfl
    · rintro rfl
      exact hq List.prefix_rfl

/-- Removing a directory changes its own place and those inside only. -/
theorem view_of_removeTree {dir : Location} {name : String}
    (hpath : placeFrom t.home path = dir ++ [name]) (h : t.removeTree path = .ok t') :
    t'.home = t.home ∧ ∀ q, t'.view q = if dir ++ [name] <+: q then none else t.view q := by
  obtain ⟨stop, hlocate, h⟩ := exists_of_bind_eq_ok h
  obtain rfl := (eq_placeFrom_of_locate hlocate).trans hpath
  have hdir := view_dir_of_locate hlocate
  split at h
  · cases h
    refine ⟨rfl, fun q => ?_⟩
    rw [view, erase, Node.view_set]
    simp only [show t.root.view dir = some none from hdir, and_true, Option.bind_none]
    rfl
  · cases h
  · cases h

/-- A tree has all of another one, and perhaps more directories. -/
structure Extends (t t' : FileTree) : Prop where
  home : t'.home = t.home
  view : ∀ q, t'.view q = t.view q ∨ t.view q = none ∧ t'.view q = some none

theorem Extends.refl (t : FileTree) : t.Extends t :=
  ⟨rfl, fun _ => .inl rfl⟩

theorem Extends.trans {t'' : FileTree} (h : t.Extends t') (h' : t'.Extends t'') :
    t.Extends t'' := by
  refine ⟨h'.home.trans h.home, fun q => ?_⟩
  rcases h'.view q with hq' | ⟨hnone, hdir⟩
  · rw [hq']
    exact h.view q
  · rcases h.view q with hq | ⟨-, hq⟩
    · exact .inr ⟨hq ▸ hnone, hdir⟩
    · cases hnone.symm.trans hq

/-- Nothing but the place changes. -/
theorem view_put_directory {dir : Location} {name : String} (h : t.view (dir ++ [name]) = none)
    (q : Location) : (t.put (dir ++ [name]) (.directory [])).view q = t.view q ∨
      q = dir ++ [name] ∧ (t.put (dir ++ [name]) (.directory [])).view q = some none := by
  have hput := Node.view_set (some (.directory [])) t.root dir name q
  split at hput
  · rename_i hq
    obtain ⟨more, rfl⟩ := hq.1
    cases more with
    | nil =>
      rw [List.append_nil] at hput ⊢
      exact .inr ⟨rfl, hput.trans (by simp [Node.view_nil, Node.text?])⟩
    | cons first more =>
      have hbelow : t.view (dir ++ [name] ++ first :: more) = none :=
        Node.view_append_of_ne (by rw [← FileTree.view, h]; simp) first more
      refine .inl ((hput.trans ?_).trans hbelow.symm)
      simp [Node.view_directory_cons]
  · exact .inl hput

/-- An empty directory at a place where nothing is. -/
theorem extends_put {dir : Location} {name : String} (h : t.view (dir ++ [name]) = none) :
    t.Extends (t.put (dir ++ [name]) (.directory [])) := by
  refine ⟨rfl, fun q => ?_⟩
  rcases view_put_directory h q with hsame | ⟨rfl, hdir⟩
  · exact .inl hsame
  · exact .inr ⟨h, hdir⟩

/-- One step of creating directories: the next one is there, or it is put where nothing is. -/
theorem createAlong_cons {made : Bool} {name : String} {names : List String}
    (h : t.createAlong made place (name :: names) = .ok t') :
    name.utf8ByteSize ≤ maxNameSize ∧ ∃ t₁ made₁,
      t₁.createAlong made₁ (follow place [name]) names = .ok t' ∧
        (t₁ = t ∨ ∃ dir last, follow place [name] = dir ++ [last] ∧ t.view (dir ++ [last]) = none ∧
          t₁ = t.put (dir ++ [last]) (.directory [])) := by
  rw [createAlong] at h
  split at h
  · cases h
  · rename_i hsize
    dsimp only at h
    split at h
    · exact ⟨Nat.le_of_not_lt hsize, t, made, h, .inl rfl⟩
    · cases h
    · rename_i hfree
      -- The place is not that of the root, where there always is something.
      have hne : follow place [name] ≠ [] := by
        intro hnil
        rw [hnil] at hfree
        cases hfree
      obtain ⟨dir, last, hlast⟩ := (List.eq_nil_or_concat _).resolve_left hne
      rw [List.concat_eq_append] at hlast
      rw [hlast] at hfree h
      rw [hlast]
      exact ⟨Nat.le_of_not_lt hsize, _, true, h,
        .inr ⟨dir, last, rfl, view_eq_none_iff.mpr hfree, rfl⟩⟩

theorem extends_of_createAlong {made : Bool} {names : List String}
    (h : t.createAlong made place names = .ok t') : t.Extends t' := by
  induction names generalizing t made place with
  | nil =>
    cases h
    exact .refl _
  | cons name names ih =>
    obtain ⟨-, t₁, made₁, hrest, rfl | ⟨dir, last, -, hfree, rfl⟩⟩ := createAlong_cons h
    · exact ih hrest
    · exact (extends_put hfree).trans (ih hrest)

/-- Directories are created on the way only. -/
theorem exists_front_of_createAlong {made : Bool} {names : List String} {q : Location}
    (h : t.createAlong made place names = .ok t') (hq : t'.view q ≠ t.view q) :
    ∃ front, front <+: names ∧ q = follow place front := by
  induction names generalizing t made place with
  | nil =>
    cases h
    exact absurd rfl hq
  | cons name names ih =>
    obtain ⟨-, t₁, made₁, h, hstep⟩ := createAlong_cons h
    have hmore : t'.view q ≠ t₁.view q →
        ∃ front, front <+: name :: names ∧ q = follow place front := by
      intro hne
      obtain ⟨front, hfront, rfl⟩ := ih h hne
      exact ⟨name :: front, List.cons_prefix_cons.mpr ⟨rfl, hfront⟩,
        (follow_append place [name] front).symm⟩
    rcases hstep with rfl | ⟨dir, last, hnext, hfree, rfl⟩
    · exact hmore hq
    · rcases view_put_directory hfree q with hsame | ⟨rfl, -⟩
      · exact hmore (hsame ▸ hq)
      · exact ⟨[name], List.cons_prefix_cons.mpr ⟨rfl, List.nil_prefix⟩, hnext.symm⟩

theorem size_le_of_createAlong {made : Bool} {names : List String}
    (h : t.createAlong made place names = .ok t') :
    ∀ name ∈ names, name.utf8ByteSize ≤ maxNameSize := by
  induction names generalizing t made place with
  | nil => nofun
  | cons name names ih =>
    obtain ⟨hsize, t₁, made₁, h, -⟩ := createAlong_cons h
    exact List.forall_mem_cons.mpr ⟨hsize, ih h⟩

/-- Creating directories changes nothing that is there. -/
theorem extends_of_createDirs (h : t.createDirs path = .ok t') : t.Extends t' := by
  unfold createDirs at h
  split at h
  · cases h
  · exact extends_of_createAlong h

end FileTree

end ServiceSplit
