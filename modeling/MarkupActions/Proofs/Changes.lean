import Mathlib.Data.List.DropRight
import MarkupActions.Proofs.EditBlocks

/-!
# Changes between markers

A change is written as three rows of marks around what is looked for and what replaces it, and
changes one after the other are read back, each with its two texts. The texts are arbitrary but for
what would be a marker or code; and no row that is looked for may end in seven equals signs.
-/

namespace MarkupActions

open Code (tick)

namespace Hunk

section

variable {ends? : Text → Option Text} {front s rest : Text}

/-- What stands before the first place where something ends is all that stands before it. -/
theorem upTo?_append (absent : ∀ a b, front = a ++ b → b ≠ [] → ends? (b ++ s) = none)
    (here : ends? s = some rest) :
    upTo? ends? (front ++ s) = some (front, rest) := by
  induction front with
  | nil =>
    cases s with
    | nil => simp [upTo?, here]
    | cons c s => simp [upTo?, here]
  | cons c front ih =>
    have first := absent [] (c :: front) rfl (by simp)
    have later := ih fun a b whole more => absent (c :: a) b (by rw [whole]; rfl) more
    rw [List.cons_append] at first ⊢
    simp [upTo?, first, later]

theorem collect_of_some {α : Type} {read? : Text → Option (α × Text)} {found : α}
    (read : read? (front ++ rest) = some (found, rest)) (more : front ≠ []) :
    collect read? (front ++ rest) = found :: collect read? rest := by
  obtain ⟨c, front, rfl⟩ := List.exists_cons_of_ne_nil more
  have size : (front ++ rest).length - rest.length = front.length := by simp
  rw [List.cons_append] at read ⊢
  rw [collect, read]
  simp only [size, List.drop_left]

end

namespace Change

/-- The two texts of a change between three rows. -/
def between (first middle last : Text) (change : Change) : Text :=
  first ++ '\n' :: (change.search ++ '\n' :: (middle ++ '\n' :: (change.replace ++ '\n' :: last)))

/-- A change as it is written: its texts between rows of marks. -/
def text (change : Change) : Text :=
  change.between "<<<<<<< SEARCH".toList "=======".toList ">>>>>>> REPLACE".toList

theorem between_append (first middle last : Text) (change : Change) (s : Text) :
    change.between first middle last ++ s = change.between first middle (last ++ s) := by
  simp [between]

end Change

/-- Changes as they are written, each beginning in a row of its own. -/
def written (changes : List Change) : Text :=
  changes.flatMap (fun change => '\n' :: change.text) ++ ['\n']

/-- A text that can stand in a change as it is. -/
structure Writable (s : Text) : Prop where
  sign : '&' ∉ s
  returns : '\r' ∉ s
  ticks : tick ∉ s
  tildes : '~' ∉ s
  opens : ¬ List.replicate 7 '<' <:+: s
  finishes : ¬ List.replicate 7 '>' <:+: s

instance (s : Text) : Decidable (Writable s) :=
  decidable_of_iff ('&' ∉ s ∧ '\r' ∉ s ∧ tick ∉ s ∧ '~' ∉ s ∧ ¬ List.replicate 7 '<' <:+: s ∧
      ¬ List.replicate 7 '>' <:+: s)
    ⟨fun ⟨sign, returns, ticks, tildes, opens, finishes⟩ =>
      ⟨sign, returns, ticks, tildes, opens, finishes⟩,
      fun ⟨sign, returns, ticks, tildes, opens, finishes⟩ =>
      ⟨sign, returns, ticks, tildes, opens, finishes⟩⟩

/-- A text without a row that would part it: none that ends in seven equals signs, blanks aside. -/
def Unparted (s : Text) : Prop := ∀ row ∈ Text.rows s,
    ¬ List.replicate 7 '=' <:+ row.rdropWhile Text.isSpaceOrTab

instance (s : Text) : Decidable (Unparted s) := inferInstanceAs (Decidable (∀ row ∈ Text.rows s, _))

variable {change : Change} {changes : List Change} {s a b t rest : Text}

/-- Of a text that a newline follows, one newline at its head is skipped. -/
theorem skipNewline_append (returns : '\r' ∉ b) (more : b ≠ []) (t : Text) :
    ∃ lead back, b = lead ++ back ∧ skipNewline (b ++ '\n' :: t) = back ++ '\n' :: t := by
  obtain ⟨c, b, rfl⟩ := List.exists_cons_of_ne_nil more
  simp only [List.mem_cons, not_or] at returns
  by_cases newline : c = '\n'
  · subst newline
    exact ⟨['\n'], b, rfl, rfl⟩
  · have other : '\r' ≠ c := returns.1
    exact ⟨[], c :: b, rfl, by simp [skipNewline, Ne.symm other, newline]⟩

/-- A separator is seven equals signs and blanks, up to the end of its row. -/
theorem afterSeparator?_inv (found : afterSeparator? s = some rest) :
    ∃ blanks c more, skipNewline s = (List.replicate 7 '=' ++ blanks) ++ c :: more ∧
      (∀ d ∈ blanks, Text.isSpaceOrTab d = true) ∧ (c = '\n' ∨ c = '\r') := by
  obtain ⟨tail, marks, newline⟩ := Option.bind_eq_some_iff.mp found
  have whole := List.isPrefixOf?_eq_some_iff_append_eq.mp marks
  have cut := List.takeWhile_append_dropWhile (p := Text.isSpaceOrTab) (l := tail)
  obtain ⟨c, more, head, ends⟩ : ∃ c more, tail.dropWhile Text.isSpaceOrTab = c :: more ∧
    (c = '\n' ∨ c = '\r') := by
    unfold Text.afterNewline? at newline
    split at newline
    · rename_i more head
      exact ⟨'\r', _, head, .inr rfl⟩
    · rename_i more head
      exact ⟨'\n', _, head, .inl rfl⟩
    · cases newline
  refine ⟨tail.takeWhile Text.isSpaceOrTab, c, more, ?_, fun d inside =>
    List.mem_takeWhile_imp inside, ends⟩
  rw [List.append_assoc, ← head, cut, whole]

/-- In a text without a row that parts it no separator begins. -/
theorem afterSeparator?_of_unparted (writable : Writable (a ++ b)) (unparted : Unparted (a ++ b))
    (more : b ≠ [])
    (t : Text) : afterSeparator? (b ++ '\n' :: t) = none := by
  cases found : afterSeparator? (b ++ '\n' :: t) with
  | none => rfl
  | some rest =>
    have returns : '\r' ∉ b := fun inside => writable.returns (List.mem_append_right _ inside)
    obtain ⟨lead, back, rfl, skipped⟩ := skipNewline_append returns more t
    obtain ⟨blanks, c, tail, whole, blank, ends⟩ := afterSeparator?_inv found
    rw [skipped] at whole
    have row : '\n' ∉ List.replicate 7 '=' ++ blanks := by
      have dark : '\n' ∉ blanks := by
        intro inside
        have white := blank _ inside
        revert white
        decide
      simp [dark]
    -- The row of the separator is the first row from here on, be it closed by its own newline or by
    -- the one behind.
    obtain ⟨rows, first⟩ : ∃ rows, Text.rows back = (List.replicate 7 '=' ++ blanks) :: rows := by
      rcases Text.append_eq_append_cons whole.symm with ⟨m, inner, _⟩ | ⟨m, rfl, split⟩
      · exact False.elim (row (by rw [inner]; simp))
      · cases m with
        | nil => exact ⟨[], by rw [List.append_nil, Text.rows_eq_singleton row]⟩
        | cons d m =>
          obtain ⟨rfl, _⟩ := List.cons.inj split
          rcases ends with rfl | rfl
          · exact ⟨Text.rows m, by rw [Text.rows_append_newline, Text.rows_eq_singleton row]; rfl⟩
          · exact False.elim (returns (by simp))
    obtain ⟨front, last, before⟩ := Text.exists_last_row (a ++ lead)
    have listed := Text.rows_append before first
    rw [List.append_assoc] at listed
    refine False.elim (unparted (last ++ (List.replicate 7 '=' ++ blanks))
      (by rw [listed]; simp) ?_)
    have passed : ∀ d ∈ blanks.reverse, Text.isSpaceOrTab d = true :=
      fun d inside => blank d (List.mem_reverse.mp inside)
    have stop : ((last ++ List.replicate 7 '=').reverse).head?.any Text.isSpaceOrTab = false := by
      simp [List.reverse_append, List.replicate_succ, Text.isSpaceOrTab]
    rw [← List.append_assoc, List.rdropWhile, List.reverse_append, Text.dropWhile_exact passed stop,
      List.reverse_reverse]
    exact List.suffix_append _ _

/-- No end of a text that may be written in a change finishes the change. -/
theorem afterFinish?_of_writable (writable : Writable (a ++ b)) (more : b ≠ []) (t : Text) :
    afterFinish? (b ++ '\n' :: t) = none := by
  cases found : afterFinish? (b ++ '\n' :: t) with
  | none => rfl
  | some rest =>
    have returns : '\r' ∉ b := fun inside => writable.returns (List.mem_append_right _ inside)
    obtain ⟨lead, back, rfl, skipped⟩ := skipNewline_append returns more t
    obtain ⟨tail, marks, _⟩ := Option.bind_eq_some_iff.mp found
    have whole := List.isPrefixOf?_eq_some_iff_append_eq.mp marks
    rw [skipped] at whole
    rcases Text.append_eq_append_cons whole with ⟨m, inner, _⟩ | ⟨m, rfl, _⟩
    · have never : '\n' ∉ List.replicate 7 '>' := by decide
      exact False.elim (never (by rw [inner]; simp))
    · exact False.elim (writable.finishes ⟨a ++ lead, m, by simp⟩)

structure Change.Fits (change : Change) : Prop where
  search : Writable change.search
  replace : Writable change.replace
  unparted : Unparted change.search

theorem isPrefixOf?_append (u s : Text) : u.isPrefixOf? (u ++ s) = some s :=
  List.isPrefixOf?_eq_some_iff_append_eq.mpr rfl

theorem afterOpening?_row (t : Text) :
    afterOpening? ("<<<<<<< SEARCH".toList ++ '\n' :: t) = some t := by
  have row : "<<<<<<< SEARCH".toList ++ '\n' :: t = List.replicate 7 '<' ++
    (' ' :: ("SEARCH".toList ++ '\n' :: t)) := rfl
  have trimmed : Text.trimStart (' ' :: ("SEARCH".toList ++ '\n' :: t)) = "SEARCH".toList ++
    '\n' :: t := rfl
  rw [row, afterOpening?, isPrefixOf?_append]
  simp only [Option.bind_eq_bind, Option.bind_some, trimmed, isPrefixOf?_append]
  rfl

theorem afterSeparator?_row (t : Text) :
    afterSeparator? ('\n' :: ("=======".toList ++ '\n' :: t)) = some t := by
  have row : skipNewline ('\n' :: ("=======".toList ++ '\n' :: t)) = List.replicate 7 '=' ++
    '\n' :: t := rfl
  rw [afterSeparator?, row, isPrefixOf?_append]
  rfl

theorem afterFinish?_row (t : Text) :
    afterFinish? ('\n' :: (">>>>>>> REPLACE".toList ++ t)) = some t := by
  have row : skipNewline ('\n' :: (">>>>>>> REPLACE".toList ++ t)) =
      List.replicate 7 '>' ++ (' ' :: ("REPLACE".toList ++ t)) := rfl
  have trimmed : Text.trimStart (' ' :: ("REPLACE".toList ++ t)) = "REPLACE".toList ++ t := rfl
  rw [afterFinish?, row, isPrefixOf?_append]
  simp only [Option.bind_eq_bind, Option.bind_some, trimmed, isPrefixOf?_append]

instance (change : Change) : Decidable change.Fits :=
  decidable_of_iff (Writable change.search ∧ Writable change.replace ∧ Unparted change.search)
    ⟨fun ⟨search, replace, unparted⟩ => ⟨search, replace, unparted⟩,
      fun ⟨search, replace, unparted⟩ => ⟨search, replace, unparted⟩⟩

/-- A change is read back, whatever follows it. -/
theorem marked?_text (fits : change.Fits) (rest : Text) :
    marked? (change.text ++ rest) = some (change, rest) := by
  obtain ⟨search, replace⟩ := change
  obtain ⟨writable, writable', unparted⟩ := fits
  have first : ∀ t, upTo? afterSeparator? (search ++ '\n' :: ("=======".toList ++ '\n' :: t)) =
    some (search, t) := by
    intro t
    refine upTo?_append (fun a b whole more => ?_) (afterSeparator?_row t)
    exact afterSeparator?_of_unparted (whole ▸ writable) (whole ▸ unparted) more _
  have second : ∀ t, upTo? afterFinish? (replace ++ '\n' :: (">>>>>>> REPLACE".toList ++ t)) =
    some (replace, t) := by
    intro t
    refine upTo?_append (fun a b whole more => ?_) (afterFinish?_row t)
    exact afterFinish?_of_writable (whole ▸ writable') more _
  rw [Change.text, Change.between_append, Change.between, marked?, afterOpening?_row]
  simp only [first, second, Option.bind_eq_bind, Option.bind_some]

/-- The changes that are written are the changes that are read. -/
theorem collect_written (fits : ∀ change ∈ changes, change.Fits) :
    collect marked? (written changes) = changes := by
  have newline : ∀ t, collect marked? ('\n' :: t) = collect marked? t := by
    intro t
    have none : marked? ('\n' :: t) = none := rfl
    rw [collect, none]
  induction changes with
  | nil =>
    show collect marked? ['\n'] = []
    rw [newline, collect]
  | cons change changes ih =>
    have rest := ih fun other inside => fits other (List.mem_cons_of_mem _ inside)
    have whole : written (change :: changes) = '\n' :: (change.text ++ written changes) := by
      simp [written]
    have more : change.text ≠ [] := by
      intro empty
      cases empty
    rw [whole, newline, collect_of_some (marked?_text (fits change List.mem_cons_self) _) more,
      rest]

theorem changes_written (fits : ∀ change ∈ changes, change.Fits) :
    Hunk.changes (written changes) = changes := by
  have decoded : ∀ change ∈ changes, Change.mk (Entity.decode change.search)
    (Entity.decode change.replace) = change := by
    intro change inside
    obtain ⟨writable, writable', _⟩ := fits change inside
    rw [Entity.decode_of_unsigned writable.sign, Entity.decode_of_unsigned writable'.sign]
  have read := collect_written fits
  cases changes with
  | nil =>
    show Hunk.changes ['\n'] = []
    decide +kernel
  | cons change changes =>
    rw [Hunk.changes, read]
    exact (List.map_congr_left decoded).trans (List.map_id _)

variable {first middle last : Text}

/-- The markers of a change are those of the rows around its texts. -/
theorem counts_between (fits : change.Fits) :
    count opening? (change.between first middle last) =
        count opening? first + (count opening? middle + count opening? last) ∧
      count finish? (change.between first middle last) =
        count finish? first + (count finish? middle + count finish? last) := by
  have opened : count opening? change.search = 0 ∧ count opening? change.replace = 0 :=
    ⟨count_of_few fits.search.opens, count_of_few fits.replace.opens⟩
  have finished : count finish? change.search = 0 ∧ count finish? change.replace = 0 :=
    ⟨count_of_few fits.search.finishes, count_of_few fits.replace.finishes⟩
  simp only [Change.between, count_newline, opened, finished, Nat.zero_add, and_self]

/-- A change opens one hunk and finishes it. -/
theorem counts_text (fits : change.Fits) :
    count opening? change.text = 1 ∧ count finish? change.text = 1 := by
  rw [Change.text, (counts_between fits).1, (counts_between fits).2]
  decide +kernel

/-- What is written of changes begins with a row. -/
theorem exists_written (changes : List Change) : ∃ tail, written changes = '\n' :: tail := by
  cases changes with
  | nil => exact ⟨[], rfl⟩
  | cons change changes => exact ⟨change.text ++ written changes, by simp [written]⟩

theorem written_cons (change : Change) (changes : List Change) :
    written (change :: changes) = ('\n' :: change.text) ++ written changes := by
  simp [written]

theorem count_cons_newline (u : Text) :
    count opening? ('\n' :: u) = count opening? u ∧ count finish?
      ('\n' :: u) = count finish? u := by
  simpa [count] using count_newline [] u

/-- All that is opened is finished. -/
theorem counts_written (fits : ∀ change ∈ changes, change.Fits) :
    count opening? (written changes) = changes.length ∧ count finish?
      (written changes) = changes.length := by
  induction changes with
  | nil => decide +kernel
  | cons change changes ih =>
    have rest := ih fun other inside => fits other (List.mem_cons_of_mem _ inside)
    have here := counts_text (fits change List.mem_cons_self)
    obtain ⟨tail, whole⟩ := exists_written changes
    rw [whole, (count_cons_newline tail).1, (count_cons_newline tail).2] at rest
    rw [written_cons, whole, (count_newline _ tail).1, (count_newline _ tail).2,
      (count_cons_newline _).1, (count_cons_newline _).2, here.1, here.2, rest.1, rest.2,
      List.length_cons]
    omega

/-- Up to its last row no marker of a change is finished. -/
theorem few_between (fits : change.Fits) (single : '>' ∉ middle) :
    ¬ List.replicate 7 '>' <:+: change.search ++ '\n' :: (middle ++ '\n' :: change.replace) := by
  intro marks
  rcases Text.infix_append_cons (by decide) marks with early | later
  · exact fits.search.finishes early
  · rcases Text.infix_append_cons (by decide) later with between | late
    · exact single (between.subset (by decide))
    · exact fits.replace.finishes late

/-- A closing tag among the texts of a change stands behind its first row and before its last. -/
theorem opened_in_between (fits : change.Fits) (slash : '/' ∉ first) (single : '>' ∉ middle)
    (bracket : '<' ∉ last)
    (opens : 0 < count opening? first) (none : count finish? first = 0)
    (whole : change.between first middle last = a ++ '<' :: '/' :: b) :
    count finish? a < count opening? a := by
  rcases Text.append_eq_append_cons whole with ⟨m, rfl, split⟩ | ⟨m, rfl, split⟩
  · cases m with
    | nil => cases (List.cons.inj split).1
    | cons c m =>
      obtain ⟨rfl, _⟩ := List.cons.inj split
      exact False.elim (slash (by simp))
  · cases m with
    | nil => cases (List.cons.inj split).1
    | cons c k =>
      obtain ⟨rfl, later⟩ := List.cons.inj split
      have cut : (change.search ++ '\n' :: (middle ++ '\n' :: change.replace)) ++ '\n' :: last =
        k ++ '<' :: '/' :: b := by
        simpa using later
      have before : k <:+: change.search ++ '\n' :: (middle ++ '\n' :: change.replace) := by
        rcases Text.append_eq_append_cons cut with ⟨m, split, _⟩ | ⟨m, _, split⟩
        · exact ⟨[], '<' :: m, by rw [split]; simp⟩
        · have among : '<' ∈ '\n' :: last := by rw [split]; simp
          exact False.elim (bracket (by simpa using among))
      have nothing : count finish? k = 0 :=
        count_of_few fun marks => few_between fits single (marks.trans before)
      rw [(count_newline first k).1, (count_newline first k).2, none, nothing]
      omega

theorem opened_in_text (fits : change.Fits) (whole : change.text = a ++ '<' :: '/' :: b) :
    count finish? a < count opening? a := by
  refine opened_in_between fits ?_ ?_ ?_ ?_ ?_ whole
  · decide
  · decide
  · decide
  · decide +kernel
  · decide +kernel

/-- A closing tag among changes stands in one of them. -/
theorem opened_in_written (fits : ∀ change ∈ changes, change.Fits)
    (whole : written changes = a ++ '<' :: '/' :: b) :
    count finish? a < count opening? a := by
  induction changes generalizing a with
  | nil =>
    have never : '<' ∉ written [] := by decide
    exact False.elim (never (by rw [whole]; simp))
  | cons change changes ih =>
    have here := fits change List.mem_cons_self
    have counts := counts_text here
    obtain ⟨tail, later⟩ := exists_written changes
    rw [written_cons, later] at whole
    rcases Text.append_eq_append_cons whole with ⟨m, split, rest⟩ | ⟨m, rfl, split⟩
    · obtain ⟨a, rfl⟩ : ∃ front, a = '\n' :: front := by
        cases a with
        | nil => cases (List.cons.inj split).1
        | cons c a => exact ⟨a, by rw [(List.cons.inj split).1]⟩
      obtain ⟨m, rfl⟩ : ∃ back, m = '/' :: back := by
        cases m with
        | nil => cases (List.cons.inj rest).1
        | cons c m => exact ⟨m, by rw [(List.cons.inj rest).1]⟩
      rw [(count_cons_newline a).1, (count_cons_newline a).2]
      exact opened_in_text here (List.cons.inj split).2
    · obtain ⟨m, rfl⟩ : ∃ back, m = '\n' :: back := by
        cases m with
        | nil => cases (List.cons.inj split).1
        | cons c m => exact ⟨m, by rw [(List.cons.inj split).1]⟩
      have less := ih (fun other inside => fits other (List.mem_cons_of_mem _ inside))
        (later.trans split)
      rw [(count_cons_newline m).1, (count_cons_newline m).2] at less
      rw [(count_newline _ m).1, (count_newline _ m).2, (count_cons_newline _).1,
        (count_cons_newline _).2, counts.1, counts.2]
      omega

/-- A character that is in no mark and in no text is not in what is written. -/
theorem not_mem_written {c : Char} (marks : c ∉ written [⟨[], []⟩])
    (absent : ∀ change ∈ changes, c ∉ change.search ∧ c ∉ change.replace) :
    c ∉ written changes := by
  have apart : ∀ first middle last : Text, ∀ change : Change, c ∉ change.search ∧
    c ∉ change.replace →
      c ∉ '\n' :: Change.between first middle last ⟨[], []⟩ →
        c ∉ '\n' :: change.between first middle last := by
    intro first middle last change
    simp only [Change.between, List.mem_append, List.mem_cons, List.not_mem_nil, not_or, false_or]
    rintro ⟨search, replace⟩ ⟨newline, inFirst, _, _, inMiddle, _, _, inLast⟩
    exact ⟨newline, inFirst, newline, search, newline, inMiddle, newline, replace, newline, inLast⟩
  rw [written_cons] at marks
  intro inside
  rcases List.mem_append.mp inside with among | last
  · obtain ⟨change, listed, here⟩ := List.mem_flatMap.mp among
    exact apart _ _ _ change (absent change listed)
      (fun among => marks (List.mem_append_left _ among)) here
  · exact marks (List.mem_append_right _ last)

end Hunk

namespace Family

/-- Changes that are written into an edit block are its edits, in their order. -/
theorem extract_written (screening : Screening) {path : Text} {changes : List Hunk.Change}
    (plain : FilePath path)
    (fits : ∀ change ∈ changes, change.Fits)
    (sound : screening.check (Hunk.written changes) path = none) :
    edit.extract screening (fileBlock "edit".toList path (Hunk.written changes)).text =
      changes.map fun change =>
        .edit ⟨String.ofList path, String.ofList change.search, String.ofList change.replace,
          false⟩ := by
  have level : Level (Hunk.written changes) := by
    apply Level.of_unmarked
    · refine Hunk.not_mem_written (by decide) fun change inside => ?_
      exact ⟨(fits change inside).search.ticks, (fits change inside).replace.ticks⟩
    · refine Hunk.not_mem_written (by decide) fun change inside => ?_
      exact ⟨(fits change inside).search.tildes, (fits change inside).replace.tildes⟩
  have counts := Hunk.counts_written fits
  have finished : Hunk.count Hunk.opening? (Hunk.written changes) ≤ Hunk.count Hunk.finish?
    (Hunk.written changes) := by
    rw [counts.1, counts.2]
  have closes := closing?_body (by decide : Repair.fits "edit".toList = true) level finished
    (fun a b n whole _ => Hunk.opened_in_written fits whole) []
  rw [extract_fileBlock plain closes, fileEdits, sound]
  simp only [Hunk.changes_written fits]

/-- Two changes: one looks for a heading and a closing tag, and one puts a separator in at the front
of the file. -/
def headingChanges : List Hunk.Change :=
  [⟨"Title\n=====\n</edit>".toList, "Title\n\n".toList⟩, ⟨[], "=======\n".toList⟩]

theorem extract_headingChanges :
    FilePath "a.md".toList ∧ (∀ change ∈ headingChanges, change.Fits) ∧
      ({} : Screening).check (Hunk.written headingChanges) "a.md".toList = none ∧
      edit.extract {} (fileBlock "edit".toList "a.md".toList (Hunk.written headingChanges)).text =
        [.edit ⟨"a.md", "Title\n=====\n</edit>", "Title\n\n", false⟩,
          .edit ⟨"a.md", "", "=======\n", false⟩] := by
  have plain : FilePath "a.md".toList := by decide
  have fits : ∀ change ∈ headingChanges, change.Fits := by decide +kernel
  have sound : ({} : Screening).check (Hunk.written headingChanges) "a.md".toList = none := by
    decide +kernel
  have read := extract_written {} plain fits sound
  simp only [headingChanges, List.map_cons, List.map_nil, String.ofList_toList] at read
  exact ⟨plain, fits, sound, read⟩

/-- A heading that is underlined with more than seven equals signs parts the text that is looked
for, though no row of it is a separator. -/
theorem underline_matters : ¬ ∀ (screening : Screening) (path : Text)
    (changes : List Hunk.Change), FilePath path →
    changes ≠ [] →
    (∀ change ∈ changes, ∀ s ∈ [change.search, change.replace], Hunk.Writable s ∧
      ¬ "</edit".toList <:+: s ∧
      ∀ row ∈ Text.rows s, row.rdropWhile Text.isSpaceOrTab ≠ List.replicate 7 '=') →
    screening.check (Hunk.written changes) path = none →
      edit.extract screening (fileBlock "edit".toList path (Hunk.written changes)).text =
        changes.map fun change =>
          .edit ⟨String.ofList path, String.ofList change.search, String.ofList change.replace,
            false⟩ := by
  intro read
  have kept := read {} ['a'] [⟨"Title\n========".toList, ['x']⟩] (by decide) (by decide)
    (by decide +kernel)
    (by decide +kernel)
  have parted : edit.extract {} (fileBlock "edit".toList ['a']
    (Hunk.written [⟨"Title\n========".toList, ['x']⟩])).text =
      [.edit ⟨"a", "Title\n=", "=======\nx", false⟩] := by decide +kernel
  rw [parted] at kept
  revert kept
  decide +kernel

end Family

end MarkupActions
