import MarkupActions.Proofs.Covers
import MarkupActions.Proofs.Renaming
import MarkupActions.Proofs.Shading

/-!
# A text and its renamed form

Side by side the two go character by character, but for tokens that are respelled. So each can be
cut where the other is cut, places are covered in both alike, and closing tags in the one are
closing tags of the same block in the other. Only a marker that opens a hunk may be lost: its last
bracket may begin a token.
-/

namespace MarkupActions

open Code (tick)

/-- A text, and the same with some of its tokens respelled. -/
inductive Renamed (table : SpellingTable) : Text → Text → Prop
  | nil : Renamed table [] []
  | keep (c : Char) {s t : Text} (rest : Renamed table s t) : Renamed table (c :: s) (c :: t)
  | token (token : TagToken) (tag : Text) {s t : Text}
      (read : TagToken.read? (token.text ++ s) = some token)
      (known : table.canonical? token.name = some tag) (rest : Renamed table s t) :
      Renamed table (token.text ++ s) ((TagToken.mk token.closing tag).text ++ t)

namespace TagToken

theorem isNameChar_of_isName {name : Text} (named : IsName name) :
    ∀ c ∈ name, Text.isNameChar c = true := by
  cases name with
  | nil => simp
  | cons c name =>
    intro d inside
    rcases List.mem_cons.mp inside with rfl | inside
    · exact Text.isNameChar_of_startsName (by simpa using named.1)
    · exact named.2 d inside

theorem not_mem_of_isName {name : Text} (named : IsName name) {c : Char}
    (other : Text.isNameChar c = false) :
    c ∉ name := by
  intro inside
  rw [isNameChar_of_isName named c inside] at other
  cases other

/-- A token is one angle bracket, and what follows it there is no mark and no white space. -/
theorem text_eq (token : TagToken) :
    ∃ slash, token.text = '<' :: (slash ++ token.name) ∧ (slash = [] ∨ slash = ['/']) := by
  unfold text
  split
  · exact ⟨['/'], rfl, .inr rfl⟩
  · exact ⟨[], rfl, .inl rfl⟩

theorem exists_slash (closing : Bool) :
    ∃ slash, (slash = [] ∨ slash = ['/']) ∧ ∀ name, (mk closing name).text = '<' ::
      (slash ++ name) := by
  cases closing with
  | false => exact ⟨[], .inl rfl, fun _ => rfl⟩
  | true => exact ⟨['/'], .inr rfl, fun _ => rfl⟩

theorem not_mem_text {token : TagToken} (named : IsName token.name) {c : Char}
    (other : Text.isNameChar c = false)
    (open' : c ≠ '<') (slash : c ≠ '/') : c ∉ token.text := by
  have outside := not_mem_of_isName named other
  unfold text
  split <;> simp [outside, open', slash]

theorem not_mem_tail {token : TagToken} (named : IsName token.name) : '<' ∉ token.text.tail := by
  have outside := not_mem_of_isName named (by decide : Text.isNameChar '<' = false)
  unfold text
  split <;> simp [outside]

theorem dark_text {token : TagToken} (named : IsName token.name) : Dark token.text where
  more := by
    unfold text
    split <;> simp
  dark := by
    intro c inside
    obtain ⟨slash, shape, slashes⟩ := token.text_eq
    rw [shape, List.mem_cons, List.mem_append] at inside
    rcases inside with rfl | inside | inside
    · decide
    · rcases slashes with rfl | rfl
      · cases inside
      · rw [List.mem_singleton.mp inside]
        decide
    · exact Text.not_blank_of_isNameChar (isNameChar_of_isName named c inside)
  ticks := not_mem_text named (by decide) (by decide) (by decide)
  tildes := not_mem_text named (by decide) (by decide) (by decide)

end TagToken

/-- Whether the tags of a table are names that stand for themselves. -/
structure SpellingTable.Settled (table : SpellingTable) : Prop where
  named : ∀ name tag, table.canonical? name = some tag → TagToken.IsName tag
  fixed : ∀ name tag, table.canonical? name = some tag → table.canonical? tag = some tag

namespace Renamed

open SpellingTable

variable {table : SpellingTable} {s t u v a b : Text}

theorem refl (s : Text) : Renamed table s s := by
  induction s with
  | nil => exact .nil
  | cons c s ih => exact ih.keep c

theorem append_left (u : Text) (renamed : Renamed table s t) : Renamed table (u ++ s) (u ++ t) := by
  induction u with
  | nil => exact renamed
  | cons c u ih => exact ih.keep c

/-- Both begin alike. -/
theorem head (renamed : Renamed table s t) : t.head? = s.head? := by
  cases renamed with
  | nil => rfl
  | keep => rfl
  | token token tag =>
    obtain ⟨slash, shape, _⟩ := token.text_eq
    obtain ⟨slash', shape', _⟩ := (TagToken.mk token.closing tag).text_eq
    rw [shape, shape']
    rfl

/-- Where no token begins nothing is changed. -/
theorem keep_of_unread {c : Char} (renamed : Renamed table (c :: s) t)
    (unread : ∀ token, TagToken.read? (c :: s) = some token → table.canonical? token.name = none) :
    ∃ t', t = c :: t' ∧ Renamed table s t' := by
  generalize whole : c :: s = w at renamed
  cases renamed with
  | nil => cases whole
  | keep d rest =>
    obtain ⟨rfl, rfl⟩ := List.cons.inj whole
    exact ⟨_, rfl, rest⟩
  | token token tag read known =>
    rw [← whole] at read
    rw [unread token read] at known
    cases known

theorem split_unmarked (tags : '<' ∉ u) (renamed : Renamed table (u ++ s) t) :
    ∃ t', t = u ++ t' ∧ Renamed table s t' := by
  induction u generalizing t with
  | nil => exact ⟨t, rfl, renamed⟩
  | cons c u ih =>
    simp only [List.mem_cons, not_or] at tags
    have unread := TagToken.read?_of_ne (Ne.symm tags.1) (u ++ s)
    obtain ⟨t', rfl, rest⟩ := renamed.keep_of_unread (s := u ++ s) fun token read => by
      rw [unread] at read
      cases read
    obtain ⟨t'', rfl, rest'⟩ := ih tags.2 rest
    exact ⟨t'', rfl, rest'⟩

theorem split_unmarked_new (tags : '<' ∉ u) (renamed : Renamed table s (u ++ t)) :
    ∃ s', s = u ++ s' ∧ Renamed table s' t := by
  induction u generalizing s with
  | nil => exact ⟨s, rfl, renamed⟩
  | cons c u ih =>
    simp only [List.mem_cons, not_or] at tags
    generalize whole : c :: u ++ t = w at renamed
    cases renamed with
    | nil => cases whole
    | keep d rest =>
      obtain ⟨rfl, rfl⟩ := List.cons.inj whole
      obtain ⟨s', rfl, rest'⟩ := ih tags.2 rest
      exact ⟨s', rfl, rest'⟩
    | token token tag =>
      obtain ⟨slash, shape, _⟩ := (TagToken.mk token.closing tag).text_eq
      rw [shape] at whole
      exact False.elim (tags.1 (List.cons.inj whole).1.symm)

/-- A text can be cut where an angle bracket stands in its renamed form. -/
theorem split_bracket (settled : table.Settled) (renamed : Renamed table s (a ++ '<' :: b)) :
    ∃ a' b', s = a' ++ '<' :: b' ∧ Renamed table a' a ∧ Renamed table ('<' :: b') ('<' :: b) := by
  generalize whole : a ++ '<' :: b = w at renamed
  induction renamed generalizing a with
  | nil => simp at whole
  | @keep c s t rest ih =>
    cases a with
    | nil =>
      obtain ⟨rfl, rfl⟩ := List.cons.inj whole
      exact ⟨[], s, rfl, .nil, rest.keep _⟩
    | cons d a =>
      obtain ⟨rfl, inner⟩ := List.cons.inj whole
      obtain ⟨a', b', rfl, front, back⟩ := ih inner
      exact ⟨d :: a', b', rfl, front.keep d, back⟩
  | @token token tag s t read known rest ih =>
    have one := @TagToken.not_mem_tail ⟨token.closing, tag⟩ (settled.named _ _ known)
    obtain ⟨slash, shape, _⟩ := token.text_eq
    obtain ⟨slash', shape', _⟩ := (TagToken.mk token.closing tag).text_eq
    rw [shape', List.tail_cons] at one
    rcases Text.append_eq_append_cons whole.symm with ⟨m, front, rfl⟩ | ⟨m, rfl, tail⟩
    · cases a with
      | nil =>
        refine ⟨[], slash ++ token.name ++ s, by simp [shape], .nil, ?_⟩
        have both := Renamed.token token tag read known rest
        rw [front] at both
        simpa [shape] using both
      | cons d a =>
        rw [shape'] at front
        exact False.elim (one (by rw [(List.cons.inj front).2]; simp))
    · obtain ⟨a', b', rfl, front, back⟩ := ih tail.symm
      obtain ⟨named, stop⟩ := TagToken.inv_read?_text read
      refine ⟨token.text ++ a', b',
        by simp, .token token tag (TagToken.read?_text named ?_) known front, back⟩
      cases a' with
      | nil => rfl
      | cons c a' => exact stop

end Renamed

namespace SpellingTable

theorem seesTags_closes? (table : SpellingTable) (tag : Text) : SeesTags (table.closes? tag) := by
  intro s n found
  obtain ⟨name, blanks, rest, rfl, _⟩ := closes?_eq_some.mp found
  exact ⟨_, rfl⟩

end SpellingTable

namespace Renamed

variable {table : SpellingTable} {s t u v a b : Text}

/-- A closing tag in the renamed form was one of the same block before. -/
theorem closes_of_new (settled : table.Settled) (renamed : Renamed table s t) {tag : Text} {n : Nat}
    (closes : table.closes? tag t = some n) : ∃ m, table.closes? tag s = some m := by
  obtain ⟨name, blanks, rest, whole, named, blank, known, _⟩ :=
    SpellingTable.closes?_eq_some.mp closes
  have unblank := SpellingTable.unmarked_closing blank
  have outside := TagToken.not_mem_of_isName named (by decide : Text.isNameChar '<' = false)
  cases renamed with
  | nil => simp [TagToken.text] at whole
  | @keep c s t later =>
    have tags : '<' ∉ '/' :: (name ++ (blanks ++ ['>'])) := by
      simp only [List.mem_cons, List.mem_append, not_or] at unblank ⊢
      exact ⟨by decide, outside, unblank⟩
    have shape : (TagToken.mk true name).text ++ (blanks ++ '>' :: rest) =
        '<' :: ('/' :: (name ++ (blanks ++ ['>'])) ++ rest) := by simp [TagToken.text]
    rw [shape] at whole
    obtain ⟨rfl, rfl⟩ := List.cons.inj whole
    obtain ⟨rest', rfl, _⟩ := later.split_unmarked_new tags
    exact ⟨_, SpellingTable.closes?_eq_some.mpr
      ⟨name, blanks, rest', by simp [TagToken.text], named, blank, known, rfl⟩⟩
  | @token token tag' s t read known' later =>
    obtain ⟨named', stop⟩ := TagToken.inv_read?_text read
    rw [← later.head] at stop
    -- The renamed token is the one that is read there.
    have here := @TagToken.read?_text ⟨token.closing, tag'⟩ (settled.named _ _ known') _ stop
    rw [whole, @TagToken.read?_text ⟨true, name⟩ named _
      (SpellingTable.not_isNameChar_closing blank)] at here
    obtain ⟨closing, same⟩ := TagToken.mk.inj (Option.some.inj here)
    rw [← closing, same] at whole
    have tail := List.append_cancel_left whole
    have shape : blanks ++ '>' :: rest = (blanks ++ ['>']) ++ rest := by simp
    rw [tail, shape] at later
    obtain ⟨rest', rfl, _⟩ := later.split_unmarked_new unblank
    have fixed := settled.fixed _ _ known'
    rw [← same, known, Option.some.injEq] at fixed
    have shape' : token.text = (TagToken.mk true token.name).text := by
      rw [closing]
    refine ⟨_, SpellingTable.closes?_eq_some.mpr
      ⟨token.name, blanks, rest', ?_, named', blank, ?_, rfl⟩⟩
    · rw [shape']
      simp
    · rw [known', ← same, fixed]

/-- A closing tag and what follows it, both renamed. -/
theorem closing {name tag : Text}
    (closes : table.closes? tag ((TagToken.mk true name).text ++ s) = some (name.length + 2))
    (renamed : Renamed table s t) :
    Renamed table ((TagToken.mk true name).text ++ s) ((TagToken.mk true tag).text ++ t) := by
  obtain ⟨named, known, blanks, rest, rfl, blank⟩ := SpellingTable.closes?_text closes
  exact .token ⟨true, name⟩ tag (TagToken.read?_text named
    (SpellingTable.not_isNameChar_closing blank)) known renamed

theorem endsInSlash_quoted {quote : Char} (slash : Bool) {w : Text} (unquoted : quote ∉ w)
    (s : Text) :
    TagToken.endsInSlash (some quote) slash (w ++ s) = TagToken.endsInSlash
      (some quote) slash s := by
  induction w with
  | nil => rfl
  | cons c w ih =>
    simp only [List.mem_cons, not_or] at unquoted
    rw [List.cons_append, TagToken.endsInSlash, if_neg (Ne.symm unquoted.1), ih unquoted.2]

/-- Whether a tag ends in a slash does not depend on the names in its attributes. -/
theorem endsInSlash (settled : table.Settled) (renamed : Renamed table s t) {quote : Option Char}
    (slash : Bool)
    (quotes : ∀ c, quote = some c → c = '"' ∨ c = '\'') :
    TagToken.endsInSlash quote slash t = TagToken.endsInSlash quote slash s := by
  induction renamed generalizing quote slash with
  | nil => rfl
  | @keep c s t rest ih =>
    cases quote with
    | some q =>
      rw [TagToken.endsInSlash, TagToken.endsInSlash]
      split
      · exact ih slash (by simp)
      · exact ih slash quotes
    | none =>
      rw [TagToken.endsInSlash, TagToken.endsInSlash]
      split
      · rename_i quoted
        exact ih slash fun d same => by rwa [← Option.some.inj same]
      · split
        · rfl
        · split
          · rfl
          · exact ih _ (by simp)
  | @token token tag s t read known rest ih =>
    have named := (TagToken.inv_read?_text read).1
    cases quote with
    | some q =>
      have outside : ∀ token : TagToken, TagToken.IsName token.name → q ∉ token.text := by
        intro token named
        rcases quotes q rfl with rfl | rfl
        · exact TagToken.not_mem_text named (by decide) (by decide) (by decide)
        · exact TagToken.not_mem_text named (by decide) (by decide) (by decide)
      rw [endsInSlash_quoted slash (outside _ named),
        endsInSlash_quoted slash (outside _ (settled.named _ _ known))]
      exact ih slash quotes
    | none =>
      obtain ⟨front, shape, _⟩ := token.text_eq
      obtain ⟨front', shape', _⟩ := (TagToken.mk token.closing tag).text_eq
      rw [shape, shape']
      simp [TagToken.endsInSlash]

/-- What follows a place is renamed, and the place is covered as before. -/
theorem shadow_behind (settled : table.Settled) (renamed : Renamed table s t) {lineStart : Bool}
    {p : Nat}
    (before : p ≤ u.length) :
    (Code.shadow lineStart (u ++ s) p).isSome = (Code.shadow lineStart (u ++ t) p).isSome := by
  induction renamed generalizing u with
  | nil => rfl
  | @keep c s t rest ih =>
    have next := @ih (u ++ [c]) (by simp; omega)
    simpa only [List.append_assoc, List.singleton_append] using next
  | @token token tag s t read known rest ih =>
    have dark := TagToken.dark_text (TagToken.inv_read?_text read).1
    have dark' := @TagToken.dark_text ⟨token.closing, tag⟩ (settled.named _ _ known)
    have next := @ih (u ++ (TagToken.mk token.closing tag).text) (by simp; omega)
    rw [Code.shadow_word dark dark' (.before before)]
    simpa only [List.append_assoc] using next

/-- What stands before a place is renamed, and the place is covered as before. -/
theorem shadow_before (settled : table.Settled) (renamed : Renamed table s t) (lineStart : Bool)
    (u v : Text) :
    (Code.shadow lineStart (u ++ (s ++ v)) (u.length + s.length)).isSome =
      (Code.shadow lineStart (u ++ (t ++ v)) (u.length + t.length)).isSome := by
  induction renamed generalizing u with
  | nil => rfl
  | @keep c s t rest ih =>
    have next := ih (u ++ [c])
    simpa only [List.append_assoc, List.singleton_append, List.length_append, List.length_singleton,
      Nat.add_assoc, Nat.add_comm 1, List.length_cons, List.length_nil, Nat.zero_add,
      List.cons_append, List.nil_append] using next
  | @token token tag s t read known rest ih =>
    have dark := TagToken.dark_text (TagToken.inv_read?_text read).1
    have dark' := @TagToken.dark_text ⟨token.closing, tag⟩ (settled.named _ _ known)
    have word := @Code.shadow_word _ _ u (s ++ v) dark dark' lineStart _ _ (.behind s.length)
    have next := ih (u ++ (TagToken.mk token.closing tag).text)
    simp only [List.append_assoc, List.length_append, Nat.add_assoc] at word next ⊢
    exact word.trans next

/-- Code covers a place of a text and the place of its renamed form alike. -/
theorem shadow_code (settled : table.Settled) (front : Renamed table a s) (back : Renamed table b t)
    (lineStart : Bool) :
    (Code.shadow lineStart (a ++ b) a.length).isSome =
    (Code.shadow lineStart (s ++ t) s.length).isSome := by
  have first := front.shadow_before settled lineStart [] b
  simp only [List.nil_append, List.length_nil, Nat.zero_add] at first
  exact first.trans (back.shadow_behind settled (Nat.le_refl _))

end Renamed

namespace SpellingTable

variable {table : SpellingTable}

/-- Renaming gives the renamed form. -/
theorem renamed_rename (s : Text) : Renamed table s (table.rename s) := by
  induction s using rename_induct table with
  | nil =>
    rw [rename]
    exact .nil
  | keep c s unknown ih =>
    rw [rename_keep unknown]
    exact ih.keep c
  | alone token tag rest read known alone ih =>
    rw [rename_alone read known alone]
    exact .token token tag read known ih
  | block tag opening front name back pair ih =>
    rw [rename_block pair]
    exact .token ⟨false, opening⟩ tag pair.read pair.known
      ((ih.closing pair.closes).append_left front)

end SpellingTable

end MarkupActions
