import MarkupActions.Proofs.Layouts
import MarkupActions.Proofs.Patching
import MarkupActions.Proofs.Regions
import MarkupActions.Proofs.Renaming

/-!
# Text that every pass goes over

Every pass goes over prose, and over the tags of a literal block, as if they were not there: nothing
is cut, mended or renamed in them, and what comes after is treated as if it stood alone.
-/

namespace MarkupActions

open Code (tick)
open Repair (Named)

namespace Repair

/-- Where a repair finds something, one of the names it looks for stands in a tag, and a quote or
white space follows the name, or nothing. -/
theorem rule_named {repair : Repair} (orderly : repair.mendsTags = true) {s new : Text} {n : Nat}
    (fires : repair.rule s = some (n, new)) :
    ∃ slash front rest, (slash = [] ∨ slash = ['/']) ∧ s = '<' :: (slash ++ (front ++ rest)) ∧
      Named repair.sought front ∧
      ∀ c ∈ rest.head?, Attribute.isQuote c = true ∨ Text.isBlank c = true := by
  cases repair with
  | literal old new => cases orderly
  | strayQuote tags =>
    obtain ⟨lead, front, quotes, rest, leads, rfl, named, more, quoted, _⟩ :=
      strayQuoteRule_inv fires
    obtain ⟨q, quotes, rfl⟩ := List.exists_cons_of_ne_nil more
    have quote : ∀ c ∈ (q :: quotes ++ '>' :: rest).head?, Attribute.isQuote c = true ∨
      Text.isBlank c = true := by
      simp [quoted q List.mem_cons_self]
    rcases leads with rfl | rfl
    · exact ⟨[], front, _, .inl rfl, rfl, named, quote⟩
    · exact ⟨['/'], front, _, .inr rfl, rfl, named, quote⟩
  | unterminatedClosing tags =>
    obtain ⟨front, rest, rfl, named, ended⟩ := unterminatedClosingRule_inv fires
    refine ⟨['/'], front, rest, .inr rfl, rfl, named, ?_⟩
    cases rest with
    | nil => simp
    | cons d rest =>
      have blank : Text.isBlank d = true := by
        by_contra dark
        rcases ended with ⟨empty, _⟩ | ⟨_, _, _, more, _⟩
        · simp [dark] at empty
        · simp [dark] at more
      simp [blank]
  | unterminatedSelfClosing tags =>
    obtain ⟨front, attributes, blanks, rest, rfl, named, _, _, _, first⟩ :=
      unterminatedSelfClosingRule_inv fires
    refine ⟨[], front, attributes ++ (blanks ++ rest), .inl rfl, rfl, named, ?_⟩
    cases attributes with
    | nil => cases first
    | cons d attributes =>
      have blank : Text.isBlank d = true := by simpa using first
      simp [blank]

/-- Nothing is mended at a tag whose name no sought name begins. -/
theorem rule_of_name {repair : Repair} (orderly : repair.mendsTags = true) {slash key rest : Text}
    {d : Char}
    (slashes : slash = [] ∨ slash = ['/'])
    (apart : ∀ name ∈ repair.sought, ¬ name <+: Text.lower key)
    (letters : Text.IsPlain (Text.lower key)) (more : key ≠ []) (stop : Text.isNameChar d = false) :
    repair.rule ('<' :: (slash ++ (key ++ d :: rest))) = none := by
  have fits := sought_fits orderly
  have plain : ∀ name ∈ repair.sought, Text.IsPlain name :=
    fun name listed => isPlain_of_fits (fits name listed)
  have noSlash : '/' ∉ key := Text.not_mem_of_isPlain letters (by decide)
  cases fires : repair.rule ('<' :: (slash ++ (key ++ d :: rest))) with
  | none => rfl
  | some change =>
    obtain ⟨slash', front, back, slashes', whole, named, _⟩ := rule_named orderly fires
    have unslashed : '/' ∉ front := fun inside =>
      absurd (isNameChar_of_named plain named '/' inside) (by decide)
    obtain ⟨_, _, rfl, _⟩ := startsName_of_named fits named
    obtain ⟨_, split⟩ := Text.slash_cancel slashes slashes' ⟨more, noSlash⟩ ⟨by simp, unslashed⟩
      (List.cons.inj whole).2
    exact False.elim (not_named plain apart letters stop split named)

/-- Nothing is mended at a tag whose bracket directly follows its name. -/
theorem rule_bare {repair : Repair} (orderly : repair.mendsTags = true) {slash name : Text}
    (slashes : slash = [] ∨ slash = ['/']) (letters : ∀ c ∈ name, Text.isNameChar c = true)
    (s : Text) :
    repair.rule ('<' :: (slash ++ (name ++ '>' :: s))) = none := by
  cases fires : repair.rule ('<' :: (slash ++ (name ++ '>' :: s))) with
  | none => rfl
  | some change =>
    exfalso
    obtain ⟨slash', front, rest, slashes', whole, named, stops⟩ := rule_named orderly fires
    have fits := sought_fits orderly
    have frontLetters := isNameChar_of_named
      (fun name listed => isPlain_of_fits (fits name listed)) named
    have unslashed : '/' ∉ name ++ ['>'] ∧ '/' ∉ front := by
      constructor
      · simp only [List.mem_append, List.mem_singleton, not_or]
        exact ⟨fun inside => absurd (letters '/' inside) (by decide), by decide⟩
      · exact fun inside => absurd (frontLetters '/' inside) (by decide)
    have more : front ≠ [] := by
      obtain ⟨_, _, rfl, _⟩ := startsName_of_named fits named
      simp
    obtain ⟨_, cut⟩ := Text.slash_cancel (u := name ++ ['>']) (x := s) slashes slashes'
      ⟨by simp, unslashed.1⟩
      ⟨more, unslashed.2⟩ (by simpa using (List.cons.inj whole).2)
    have same : name ++ '>' :: s = front ++ rest := by simpa using cut
    rcases Text.append_eq_append_cons same.symm with ⟨m, split, _⟩ | ⟨m, rfl, rfl⟩
    · exact absurd (frontLetters '>' (by rw [split]; simp)) (by decide)
    · cases m with
      | nil => exact absurd (stops '>' rfl) (by decide)
      | cons d m =>
        have letter := letters d (by simp)
        rcases stops d rfl with quote | blank
        · have mark := Text.not_mark_of_isNameChar letter
          have either : d = '"' ∨ d = '\'' := by simpa [Attribute.isQuote] using quote
          rcases either with rfl | rfl <;> exact absurd mark (by decide)
        · rw [Text.not_blank_of_isNameChar letter] at blank
          cases blank

/-- Nothing is mended at the marks of a literal block. -/
theorem rule_literal {repair : Repair} (orderly : repair.mendsTags = true) {name slash : Text}
    (same : Text.lower name = Inert.literalName) (slashes : slash = [] ∨ slash = ['/']) (s : Text) :
    repair.rule ('<' :: (slash ++ (name ++ '>' :: s))) = none := by
  have plain := Inert.isPlain_literalName
  exact rule_bare orderly slashes (Text.isNameChar_of_matched plain
    (Text.matched_of_lower plain same)) s

end Repair

/-- Text that every pass goes over and leaves as it is. -/
structure Transparent (u : Text) : Prop where
  cut : ∀ s, Registry.builtIn.table.anySpellingMatcher.layout (u ++ s) =
    (Registry.builtIn.table.anySpellingMatcher.layout s).prepend u
  mend : ∀ repair : Repair, repair.mendsTags = true → ∀ s,
    Text.patchAll repair.rule (u ++ s) = u ++ Text.patchAll repair.rule s
  rename : ∀ s, Registry.builtIn.table.rename (u ++ s) = u ++ Registry.builtIn.table.rename s

namespace Transparent

theorem prose {u : Text} (tags : '<' ∉ u) : Transparent u where
  cut := Matcher.layout_prose tags
  mend _ orderly _ := Repair.patchAll_append_unmarked orderly tags
  rename := SpellingTable.rename_prose tags

theorem append {u v : Text} (left : Transparent u) (right : Transparent v) :
    Transparent (u ++ v) where
  cut s := by rw [List.append_assoc, left.cut, right.cut, Layout.prepend_prepend]
  mend repair orderly s := by
    rw [List.append_assoc, left.mend repair orderly, right.mend repair orderly, List.append_assoc]
  rename s := by rw [List.append_assoc, left.rename, right.rename, List.append_assoc]

/-- An angle bracket at which no pass finds anything, and text without one. -/
theorem mark {u : Text} (tags : '<' ∉ u)
    (cut : ∀ s, Registry.builtIn.table.anySpellingMatcher.layout ('<' :: (u ++ s)) =
      (Registry.builtIn.table.anySpellingMatcher.layout s).prepend ('<' :: u))
    (mend : ∀ repair : Repair, repair.mendsTags = true → ∀ s, repair.rule ('<' :: (u ++ s)) = none)
    (token : ∀ s, ∃ token, TagToken.read? ('<' :: (u ++ s)) = some token ∧
      Registry.builtIn.table.canonical? token.name = none) :
    Transparent ('<' :: u) where
  cut := cut
  mend repair orderly s := by
    have rest := Repair.patchAll_append_unmarked orderly (s := s) tags
    rw [List.cons_append, Text.patchAll_of_none (mend repair orderly s), rest]
    rfl
  rename s := by
    have rest : Registry.builtIn.table.rename (u ++ s) = u ++ Registry.builtIn.table.rename s :=
      SpellingTable.rename_prose tags s
    obtain ⟨found, read, unknown⟩ := token s
    rw [List.cons_append, SpellingTable.rename_unknown read unknown, rest]
    rfl

end Transparent

theorem TagToken.isName_literal {name : Text} (same : Text.lower name = Inert.literalName) :
    IsName name := by
  have plain := Inert.isPlain_literalName
  have letters := Text.isNameChar_of_matched plain (Text.matched_of_lower plain same)
  obtain ⟨c, rest, rfl, first, _⟩ := List.map_eq_cons_iff.mp same
  have lower : c.toLower.isLower = true := by rw [first]; decide
  exact ⟨by simpa using Text.startsName_of_isAlpha (Text.isAlpha_of_toLower lower),
    fun d inside => letters d (by simpa using .inr inside)⟩

namespace Transparent

/-- No pass knows the name of a literal block. -/
theorem token_literal {name : Text} (same : Text.lower name = Inert.literalName) (closing : Bool)
    (s : Text) :
    ∃ token, TagToken.read? ((TagToken.mk closing name).text ++ '>' :: s) = some token ∧
      Registry.builtIn.table.canonical? token.name = none := by
  refine ⟨⟨closing, name⟩, TagToken.read?_eq_some.mpr
    ⟨'>' :: s, rfl, TagToken.isName_literal same, ?_⟩, ?_⟩
  · simp only [List.head?_cons, Option.any_some]
    decide
  · rw [SpellingTable.canonical?, same]
    decide +kernel

theorem literal_opening {name : Text} (same : Text.lower name = Inert.literalName) :
    Transparent ('<' :: (name ++ ['>'])) := by
  have named := TagToken.isName_literal same
  obtain ⟨c, rest, rfl, first, _⟩ := List.map_eq_cons_iff.mp same
  have letter : c.isAlpha = true := Text.isAlpha_of_toLower (by rw [first]; decide)
  have tags : '<' ∉ (c :: rest) ++ ['>'] := by
    have unmarked := Inert.not_mem_of_literal same
      (by decide : Text.isPlainLetter '<'.toLower = false)
    simpa using unmarked
  refine .mark tags (fun s => ?_) (fun repair orderly s => ?_) fun s => ?_
  · have read : OpeningTag.read? ((OpeningTag.mk (c :: rest) []).text ++ s) =
      some ⟨c :: rest, []⟩ :=
      OpeningTag.read?_text rfl letter named.2 rfl (by decide) rfl
    have unknown : Registry.builtIn.table.anySpellingMatcher.mode?
      (OpeningTag.mk (c :: rest) []).key = none := by
      rw [OpeningTag.key, same]
      decide +kernel
    have cut := Matcher.layout_tag read unknown
    simpa [OpeningTag.text] using cut
  · have quiet := Repair.rule_literal orderly same (.inl rfl) s
    simpa using quiet
  · have known := token_literal same false s
    simp only [TagToken.text, Bool.false_eq_true, if_false, List.cons_append, List.nil_append]
      at known
    simpa using known

theorem literal_closing {name : Text} (same : Text.lower name = Inert.literalName) :
    Transparent ('<' :: '/' :: (name ++ ['>'])) := by
  have tags : '<' ∉ '/' :: (name ++ ['>']) := by
    have unmarked := Inert.not_mem_of_literal same
      (by decide : Text.isPlainLetter '<'.toLower = false)
    simpa using unmarked
  refine .mark tags (fun s => ?_) (fun repair orderly s => ?_) fun s => ?_
  · have unread : OpeningTag.read? ('<' :: ('/' :: (name ++ ['>']) ++ s)) = none := by
      simp [OpeningTag.read?]
    rw [Matcher.layout_cons unread, Matcher.layout_prose tags, Layout.prepend_prepend]
    rfl
  · have quiet := Repair.rule_literal orderly same (.inr rfl) s
    simpa using quiet
  · have known := token_literal same true s
    simp only [TagToken.text, if_true, List.cons_append, List.nil_append] at known
    simpa using known

end Transparent

end MarkupActions
