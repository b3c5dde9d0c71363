import MarkupActions.Proofs.Edges
import MarkupActions.Proofs.Trails

/-!
# Mending an opening tag

A repair leaves a tag alone that has its bracket, but for one thing: where its attributes come to
the end of a row and it does not go on, it is ended there. What stands behind the tag has no part in
this.
-/

namespace MarkupActions

open OpeningTag (settles)

variable {name rest : Text}

/-- A name that tags may have, in any letter case. -/
def TagName (name : Text) : Prop := Repair.fits (Text.lower name) = true

namespace TagName

theorem plain (tag : TagName name) : Text.IsPlain (Text.lower name) := Repair.isPlain_of_fits tag

theorem letters (tag : TagName name) : ∀ c ∈ name, Text.isNameChar c = true :=
  Text.isNameChar_of_matched tag.plain (Text.matched_of_lower tag.plain rfl)

theorem of_fits (fits : Repair.fits name = true) : TagName name := by
  rw [TagName, Text.lower_of_isPlain (Repair.isPlain_of_fits fits), fits]

theorem isName (tag : TagName name) : TagToken.IsName name := by
  have named : Repair.Named [Text.lower name] name :=
    ⟨_, List.mem_cons_self, Text.matched_of_lower tag.plain rfl⟩
  have fits : ∀ sought ∈ [Text.lower name], Repair.fits sought = true := fun sought listed => by
    rw [List.mem_singleton.mp listed]
    exact tag
  obtain ⟨c, tail, rfl, starts⟩ := Repair.startsName_of_named fits named
  exact ⟨by simpa using starts, fun d inside => tag.letters d (by simpa using .inr inside)⟩

theorem exists_cons (tag : TagName name) : ∃ c letters, name = c :: letters ∧ c.isAlpha = true := by
  simp only [TagName, Repair.fits, Bool.and_eq_true, Option.any_eq_true] at tag
  obtain ⟨⟨⟨n, head, lower⟩, _⟩, _⟩ := tag
  obtain ⟨letters, whole⟩ := List.head?_eq_some_iff.mp head
  obtain ⟨c, tail, rfl, rfl, _⟩ := List.map_eq_cons_iff.mp whole
  exact ⟨c, tail, rfl, Text.isAlpha_of_toLower lower⟩

theorem ne_nil (tag : TagName name) : name ≠ [] := by
  rintro rfl
  cases tag

theorem unmarked (tag : TagName name) {c : Char} (mark : Text.isNameChar c = false) : c ∉ name := by
  intro inside
  rw [tag.letters c inside] at mark
  cases mark

/-- Where the name ends, so does that of the tag that is read. -/
theorem name_eq (tag : TagName name) (stop : rest.head?.any Text.isNameChar = false)
    {found : OpeningTag}
    (read : OpeningTag.read? ('<' :: (name ++ rest)) = some found) : found.name = name := by
  obtain ⟨c, letters, rfl⟩ := List.exists_cons_of_ne_nil tag.ne_nil
  have named : ∀ d ∈ letters, Text.isNameChar d = true :=
    fun d inside => tag.letters d (List.mem_cons_of_mem _ inside)
  simp only [List.cons_append, OpeningTag.read?, Text.takeWhile_exact named stop] at read
  split at read
  · obtain ⟨attributes, _, rfl⟩ := Option.map_eq_some_iff.mp read
    rfl
  · cases read

end TagName

theorem Trail.settles_name (trail : Trail rest) (tag : TagName name) :
    settles none (name ++ rest) = true := by
  have skip : (name ++ rest).dropWhile Text.isNameChar = rest.dropWhile Text.isNameChar :=
    List.dropWhile_append_of_pos tag.letters
  rw [← OpeningTag.settles_dropWhile OpeningTag.isNameChar_passedOver, skip,
    OpeningTag.settles_dropWhile OpeningTag.isNameChar_passedOver]
  exact trail.settled

namespace Repair

/-- Whether no name that a repair looks for begins a name. -/
def passes (name : Text) (repair : Repair) : Bool :=
  repair.sought.all fun sought => !sought.isPrefixOf name

/-- Whether a repair takes no quotes from behind the name. -/
def sparesQuotes (name : Text) : Repair → Bool
  | strayQuote tags => !(names tags).contains name
  | _ => true

theorem passes_iff {repair : Repair} :
    repair.passes name = true ↔ ∀ sought ∈ repair.sought, ¬ sought <+: name := by
  simp [passes, ← List.isPrefixOf_iff_prefix]

theorem patchAll_opening_of_none {repair : Repair} (orderly : repair.mendsTags = true)
    (tag : TagName name)
    (trail : Trail rest) (s : Text) (quiet : repair.rule ('<' :: (name ++ (rest ++ s))) = none) :
    Text.patchAll repair.rule ('<' :: (name ++ (rest ++ s))) = '<' ::
      (name ++ (rest ++ Text.patchAll repair.rule s)) := by
  have tags : '<' ∉ name ++ rest := by
    simp [trail.tags, tag.unmarked (by decide : Text.isNameChar '<' = false)]
  rw [Text.patchAll_of_none quiet, ← List.append_assoc, patchAll_append_unmarked orderly tags,
    List.append_assoc]

/-- A name that is found in front of something else is the whole name of the tag. -/
theorem front_eq {names : List Text} (plain : ∀ sought ∈ names, Text.IsPlain sought)
    {front back : Text} {c : Char}
    (named : Named names front) (dark : c ∉ name) (stop : rest.head?.any Text.isNameChar = false)
    (whole : name ++ rest = front ++ c :: back) : front = name ∧ c :: back = rest := by
  rcases Text.append_eq_append_cons whole with ⟨m, rfl, _⟩ | ⟨m, rfl, split⟩
  · exact False.elim (dark (by simp))
  · cases m with
    | nil => exact ⟨List.append_nil name, split.symm⟩
    | cons e m =>
      have letter := isNameChar_of_named plain named e (by simp)
      rw [split] at stop
      simp [letter] at stop

theorem strayQuoteRule_opening {names : List Text} (plain : ∀ sought ∈ names, Text.IsPlain sought)
    (other : Text.lower name ∉ names) (tag : TagName name) (trail : Trail rest) (s : Text) :
    strayQuoteRule names ('<' :: (name ++ (rest ++ s))) = none := by
  cases fires : strayQuoteRule names ('<' :: (name ++ (rest ++ s))) with
  | none => rfl
  | some change =>
    obtain ⟨lead, front, quotes, back, leads, whole, named, more, quoted, _⟩ :=
      strayQuoteRule_inv fires
    obtain ⟨q, quotes, rfl⟩ := List.exists_cons_of_ne_nil more
    obtain ⟨d, tail, rfl, stop⟩ := trail.exists_cons
    have dark : q ∉ name := by
      refine tag.unmarked ?_
      have quote := quoted q List.mem_cons_self
      simp only [Attribute.isQuote, Bool.or_eq_true, beq_iff_eq] at quote
      rcases quote with rfl | rfl <;> decide
    rcases leads with rfl | rfl
    · obtain ⟨rfl, _⟩ := front_eq plain named dark (by simpa using stop) (List.cons.inj whole).2
      obtain ⟨sought, listed, matched⟩ := named
      have same := Text.lower_of_matched (plain sought listed) tag.plain matched
      exact False.elim (other (same.symm ▸ listed))
    · have slash : '/' ∉ name := tag.unmarked (by decide)
      obtain ⟨c, letters, rfl⟩ := List.exists_cons_of_ne_nil tag.ne_nil
      refine False.elim (slash ?_)
      rw [(List.cons.inj (List.cons.inj whole).2).1]
      exact List.mem_cons_self

theorem selfClosingRule_opening {tags : List Text}
    (orderly : (unterminatedSelfClosing tags).mendsTags = true)
    (tag : TagName name) (trail : Trail rest) (s : Text) :
    (unterminatedSelfClosing tags).rule ('<' :: (name ++ (rest ++ s))) =
      (unterminatedSelfClosing tags).rule ('<' :: (name ++ rest)) := by
  have plain : ∀ sought ∈ names tags, Text.IsPlain sought :=
    fun sought listed => isPlain_of_fits (sought_fits orderly sought listed)
  rw [← List.append_assoc]
  exact unterminatedSelfClosingRule_append plain (trail.settles_name tag) s

/-- Where a tag is ended, it is its own attributes that end a row. -/
theorem patchAll_selfClosing {tags : List Text}
    (orderly : (unterminatedSelfClosing tags).mendsTags = true)
    (tag : TagName name) (trail : Trail rest) {new : Text} {n : Nat}
    (fires : (unterminatedSelfClosing tags).rule ('<' :: (name ++ rest)) = some (n, new)) :
    ∃ rest', Rewrites Closes rest rest' ∧ ∀ s, Text.patchAll (unterminatedSelfClosing tags).rule
      ('<' :: (name ++ (rest ++ s))) = '<' ::
      (name ++ (rest' ++ Text.patchAll (unterminatedSelfClosing tags).rule s)) := by
  have plain : ∀ sought ∈ names tags, Text.IsPlain sought :=
    fun sought listed => isPlain_of_fits (sought_fits orderly sought listed)
  have rule : unterminatedSelfClosingRule (names tags) ('<' :: (name ++ rest)) = some (n, new) :=
    fires
  obtain ⟨front, attributes, blanks, back, whole, named, spaces, rfl, written, blank⟩ :=
    unterminatedSelfClosingRule_inv rule
  obtain ⟨c, attributes, rfl⟩ : ∃ c more, attributes = c :: more := by
    cases attributes with
    | nil => cases blank
    | cons c more => exact ⟨c, more, rfl⟩
  have dark : c ∉ name := fun inside =>
    Text.not_ends_of_toLower (tag.plain _ (List.mem_map_of_mem inside))
      (.inr (by simpa using blank))
  have cut : name ++ rest = front ++ c :: (attributes ++ (blanks ++ back)) :=
    (List.cons.inj whole).2
  obtain ⟨rfl, rfl⟩ := front_eq plain named dark trail.stop cut
  obtain ⟨past, rfl, made⟩ : ∃ past, new = '<' :: (front ++ (c :: (attributes ++ past))) ∧
    Rewrites Closes blanks past := by
    rcases written with rfl | rfl
    · exact ⟨blanks, rfl, .refl blanks⟩
    · refine ⟨['/', '>'], rfl, .single (.slash fun c inside => ?_)⟩
      exact Text.isBlank_of_isSpaceOrTab (spaces c inside)
  refine ⟨(c :: attributes) ++ (past ++ back),
    (made.append_right back).append_left (c :: attributes), fun s => ?_⟩
  have unmarked : '<' ∉ back := fun inside => trail.tags (by simp [inside])
  have found : (unterminatedSelfClosing tags).rule
    ('<' :: (front ++ (c :: (attributes ++ blanks))) ++ (back ++ s)) =
      some (('<' :: (front ++ (c :: (attributes ++ blanks)))).length,
        '<' :: (front ++ (c :: (attributes ++ past)))) := by
    have size : ('<' :: (front ++ (c :: (attributes ++ blanks)))).length =
        1 + front.length + (c :: attributes).length + blanks.length := by
      simp
      omega
    have here := (selfClosingRule_opening orderly tag trail s).trans fires
    simp only [List.append_assoc, List.cons_append] at here ⊢
    rw [here, size]
  have done := Text.patchAll_of_some found (by simp)
  rw [patchAll_append_unmarked orderly unmarked] at done
  simpa using done

/-- A repair leaves an opening tag or ends it, and in any case by what the tag is alone. -/
theorem patchAll_opening {repair : Repair} (orderly : repair.mendsTags = true)
    (quotes : repair.sparesQuotes (Text.lower name) = true) (tag : TagName name)
    (trail : Trail rest) :
    ∃ rest', Rewrites Closes rest rest' ∧
      ((repair.endsOpening = true → repair.passes (Text.lower name) = true) → rest' = rest) ∧
      ∀ s, Text.patchAll repair.rule ('<' :: (name ++ (rest ++ s))) =
        '<' :: (name ++ (rest' ++ Text.patchAll repair.rule s)) := by
  obtain ⟨d, tail, shape, stop⟩ := trail.exists_cons
  have quiet : repair.passes (Text.lower name) = true →
    ∀ s, repair.rule ('<' :: (name ++ (rest ++ s))) = none := by
    intro passes s
    rw [shape]
    exact rule_of_name orderly (.inl rfl) (passes_iff.mp passes) tag.plain tag.ne_nil stop
  have never : (∀ s, repair.rule ('<' :: (name ++ (rest ++ s))) = none) →
      ∃ rest', Rewrites Closes rest rest' ∧
        ((repair.endsOpening = true → repair.passes (Text.lower name) = true) → rest' = rest) ∧
        ∀ s, Text.patchAll repair.rule ('<' :: (name ++ (rest ++ s))) =
          '<' :: (name ++ (rest' ++ Text.patchAll repair.rule s)) :=
    fun quiet => ⟨rest, .refl rest, fun _ => rfl, fun s =>
      patchAll_opening_of_none orderly tag trail s (quiet s)⟩
  cases repair with
  | literal old new => cases orderly
  | strayQuote tags =>
    have plain : ∀ sought ∈ names tags, Text.IsPlain sought :=
      fun sought listed => isPlain_of_fits (sought_fits orderly sought listed)
    exact never (strayQuoteRule_opening plain (by simpa [sparesQuotes] using quotes) tag trail)
  | unterminatedClosing tags =>
    refine never fun s => ?_
    cases fires : (unterminatedClosing tags).rule ('<' :: (name ++ (rest ++ s))) with
    | none => rfl
    | some change =>
      obtain ⟨front, back, whole, _⟩ := unterminatedClosingRule_inv fires
      have slash : '/' ∉ name := tag.unmarked (by decide)
      obtain ⟨c, tail, rfl⟩ := List.exists_cons_of_ne_nil tag.ne_nil
      refine False.elim (slash ?_)
      rw [(List.cons.inj (List.cons.inj whole).2).1]
      exact List.mem_cons_self
  | unterminatedSelfClosing tags =>
    have same := selfClosingRule_opening orderly tag trail
    cases fires : (unterminatedSelfClosing tags).rule ('<' :: (name ++ rest)) with
    | none => exact never fun s => (same s).trans fires
    | some change =>
      obtain ⟨rest', made, step⟩ := patchAll_selfClosing orderly tag trail fires
      refine ⟨rest', made, fun passes => ?_, step⟩
      have none := (same []).symm.trans (quiet (passes rfl) [])
      rw [fires] at none
      cases none

/-- Repairs one after the other change a tag at the head of a text by itself, whatever follows it.
-/
theorem applyAll_opening {repairs : List Repair}
    (orderly : ∀ repair ∈ repairs, repair.mendsTags = true)
    (quotes : ∀ repair ∈ repairs, repair.sparesQuotes (Text.lower name) = true) (tag : TagName name)
    (trail : Trail rest) :
    ∃ rest', Rewrites Closes rest rest' ∧
      ((∀ repair ∈ repairs, repair.endsOpening = true → repair.passes (Text.lower name) = true) →
        rest' = rest) ∧
      ∀ s, applyAll repairs ('<' :: (name ++ (rest ++ s))) = '<' ::
        (name ++ (rest' ++ applyAll repairs s)) := by
  induction repairs generalizing rest with
  | nil => exact ⟨rest, .refl rest, fun _ => rfl, fun s => rfl⟩
  | cons repair repairs ih =>
    obtain ⟨middle, made, keeps, first⟩ := patchAll_opening (orderly repair List.mem_cons_self)
      (quotes repair List.mem_cons_self) tag trail
    obtain ⟨rest', made', keeps', later⟩ :=
      ih (fun other inside => orderly other (List.mem_cons_of_mem _ inside))
      (fun other inside => quotes other (List.mem_cons_of_mem _ inside)) (trail.rewrites made)
    refine ⟨rest', made.trans made', fun spares => ?_, fun s => ?_⟩
    · rw [keeps' fun other inside => spares other (List.mem_cons_of_mem _ inside),
        keeps (spares repair List.mem_cons_self)]
    · have step := first s
      rw [← apply_eq (orderly repair List.mem_cons_self),
        ← apply_eq (orderly repair List.mem_cons_self)] at step
      rw [applyAll, List.foldl_cons, step]
      exact later (repair.apply s)

end Repair

end MarkupActions
