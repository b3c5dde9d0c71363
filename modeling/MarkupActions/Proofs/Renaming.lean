import Mathlib.Data.List.TakeWhile
import MarkupActions.Proofs.Closing
import MarkupActions.Proofs.Letters
import MarkupActions.Proofs.Texts

/-!
# Renaming, token by token

The tokens that renaming reads, what it does with one of them, and induction along a renaming. A
name ends where no name character follows, so a token is read alike whatever comes after it.
-/

namespace MarkupActions

namespace TagToken

def text (token : TagToken) : Text := (if token.closing then ['<', '/'] else ['<']) ++ token.name

theorem length_text (token : TagToken) : token.text.length = token.lead + token.name.length := by
  unfold text lead
  split <;> simp <;> omega

/-- What stands behind a token is found by its length. -/
theorem text_cons (token : TagToken) (rest : Text) : ∃ c tail, token.text = c :: tail ∧
    (tail ++ rest).drop (token.lead + token.name.length - 1) = rest := by
  have size := token.length_text
  obtain ⟨c, tail, whole⟩ : ∃ c tail, token.text = c :: tail := by
    refine List.exists_cons_of_length_pos ?_
    rw [size, lead]
    split <;> omega
  refine ⟨c, tail, whole, ?_⟩
  rw [← size, whole, List.length_cons, Nat.add_sub_cancel, List.drop_left]

def IsName (name : Text) : Prop :=
  name.head?.any startsName = true ∧ ∀ c ∈ name.tail, Text.isNameChar c = true

theorem name?_eq_some {s name : Text} :
    name? s = some name ↔
      ∃ rest, s = name ++ rest ∧ IsName name ∧ rest.head?.any Text.isNameChar = false := by
  cases s with
  | nil =>
    simp only [name?, reduceCtorEq, false_iff]
    rintro ⟨rest, whole, ⟨starts, _⟩, _⟩
    rw [(List.append_eq_nil_iff.mp whole.symm).1] at starts
    cases starts
  | cons c s =>
    by_cases starts : startsName c = true
    · simp only [name?, starts, if_true, Option.some.injEq]
      constructor
      · rintro rfl
        refine ⟨s.dropWhile Text.isNameChar, ?_, ⟨by simpa using starts, ?_⟩, Text.head_dropWhile s⟩
        · rw [List.cons_append, List.takeWhile_append_dropWhile]
        · exact fun d inside => List.mem_takeWhile_imp inside
      · rintro ⟨rest, whole, ⟨first, letters⟩, stop⟩
        cases name with
        | nil => cases first
        | cons d tail =>
          obtain ⟨rfl, rfl⟩ := List.cons.inj whole
          exact congrArg (c :: ·) (Text.takeWhile_exact letters stop)
    · simp only [name?, starts, Bool.false_eq_true, if_false, reduceCtorEq, false_iff]
      rintro ⟨rest, whole, ⟨first, _⟩, _⟩
      cases name with
      | nil => cases first
      | cons d tail =>
        rw [(List.cons.inj whole).1] at starts
        exact starts (by simpa using first)

theorem ne_slash_of_isName {name : Text} (named : IsName name) : name.head? ≠ some '/' := by
  intro head
  have starts := named.1
  rw [head] at starts
  revert starts
  decide

/-- A token stands where it is read, and ends where its name does. -/
theorem read?_eq_some {s : Text} {token : TagToken} :
    read? s = some token ↔
      ∃ rest, s = token.text ++ rest ∧ IsName token.name ∧
        rest.head?.any Text.isNameChar = false := by
  obtain ⟨closing, name⟩ := token
  constructor
  · intro found
    unfold read? at found
    split at found
    · obtain ⟨_, inner, same⟩ := Option.map_eq_some_iff.mp found
      obtain ⟨rfl, rfl⟩ := TagToken.mk.inj same
      obtain ⟨rest, rfl, named, stop⟩ := name?_eq_some.mp inner
      exact ⟨rest, rfl, named, stop⟩
    · obtain ⟨_, inner, same⟩ := Option.map_eq_some_iff.mp found
      obtain ⟨rfl, rfl⟩ := TagToken.mk.inj same
      obtain ⟨rest, rfl, named, stop⟩ := name?_eq_some.mp inner
      exact ⟨rest, rfl, named, stop⟩
    · cases found
  · rintro ⟨rest, rfl, named, stop⟩
    have read : name? (name ++ rest) = some name := name?_eq_some.mpr ⟨rest, rfl, named, stop⟩
    cases closing with
    | true => simp [text, read?, read]
    | false =>
      cases name with
      | nil => cases named.1
      | cons c name =>
        have other : c ≠ '/' := by simpa using ne_slash_of_isName named
        simp only [text, Bool.false_eq_true, if_false, List.cons_append, List.nil_append] at read ⊢
        unfold read?
        split
        · rename_i whole
          exact False.elim (other (List.cons.inj (List.cons.inj whole).2).1)
        · rename_i whole
          rw [← (List.cons.inj whole).2, read]
          rfl
        · rename_i whole
          exact False.elim (whole _ rfl)

theorem read?_of_ne {c : Char} (other : c ≠ '<') (s : Text) : read? (c :: s) = none := by
  cases found : read? (c :: s) with
  | none => rfl
  | some token =>
    obtain ⟨rest, whole, _⟩ := read?_eq_some.mp found
    have head : token.text ++ rest = '<' :: (token.text ++ rest).tail := by
      unfold text
      split <;> rfl
    rw [head] at whole
    exact False.elim (other (List.cons.inj whole).1)

/-- A token is read up to where its name ends, and no further. -/
theorem read?_text {token : TagToken} (named : IsName token.name) {s : Text}
    (stop : s.head?.any Text.isNameChar = false) : read? (token.text ++ s) = some token :=
  read?_eq_some.mpr ⟨s, rfl, named, stop⟩

theorem inv_read?_text {token : TagToken} {s : Text} (read : read? (token.text ++ s) = some token) :
    IsName token.name ∧ s.head?.any Text.isNameChar = false := by
  obtain ⟨rest, whole, named, stop⟩ := read?_eq_some.mp read
  rw [List.append_cancel_left whole]
  exact ⟨named, stop⟩

end TagToken

namespace SpellingTable

variable {table : SpellingTable}

theorem canonical?_lower (table : SpellingTable) (name : Text) :
    table.canonical? (Text.lower name) = table.canonical? name := by
  rw [canonical?, canonical?, Text.lower_lower]

theorem mem_of_canonical? {name tag : Text} (found : table.canonical? name = some tag) :
    (Text.lower name, tag) ∈ table.entries := by
  obtain ⟨front, back, whole, _⟩ := List.lookup_eq_some_iff.mp found
  rw [whole]
  simp

theorem not_isNameChar_closing {blanks rest : Text} (blank : ∀ c ∈ blanks, Text.isBlank c = true) :
    (blanks ++ '>' :: rest).head?.any Text.isNameChar = false := by
  cases blanks with
  | nil =>
    show Text.isNameChar '>' = false
    decide
  | cons c blanks =>
    cases named : Text.isNameChar c with
    | false => simpa using named
    | true =>
      have dark := Text.not_blank_of_isNameChar named
      rw [blank c List.mem_cons_self] at dark
      cases dark

theorem unmarked_closing {blanks : Text} (blank : ∀ c ∈ blanks, Text.isBlank c = true) :
    '<' ∉ blanks ++ ['>'] := by
  intro inside
  rcases List.mem_append.mp inside with space | last
  · exact absurd (blank _ space) (by decide)
  · simp at last

/-- A closing tag that renaming recognises, as it is written. -/
theorem closes?_eq_some {tag s : Text} {n : Nat} :
    table.closes? tag s = some n ↔ ∃ name blanks rest, s = (TagToken.mk true name).text ++
      (blanks ++ '>' :: rest) ∧
      TagToken.IsName name ∧ (∀ c ∈ blanks, Text.isBlank c = true) ∧
        table.canonical? name = some tag ∧
      n = name.length + 2 := by
  have after : ∀ name rest : Text, ((TagToken.mk true name).text ++ rest).drop (name.length + 2) =
    rest := by
    intro name rest
    exact List.drop_left' (by simp [TagToken.text])
  constructor
  · intro found
    unfold closes? at found
    split at found
    · rename_i name read
      obtain ⟨rest, rfl, named, _⟩ := TagToken.read?_eq_some.mp read
      rw [after] at found
      split at found
      · rename_i tail stops
        split at found
        · rename_i known
          refine ⟨name, rest.takeWhile Text.isBlank, tail, ?_, named, fun c inside =>
            List.mem_takeWhile_imp inside, known, (Option.some.inj found).symm⟩
          rw [← stops, Text.trimStart, List.takeWhile_append_dropWhile]
        · cases found
      · cases found
    · cases found
  · rintro ⟨name, blanks, rest, rfl, named, blank, known, rfl⟩
    have read := @TagToken.read?_text ⟨true, name⟩ named (blanks ++ '>' :: rest)
      (not_isNameChar_closing blank)
    have passed : Text.trimStart (blanks ++ '>' :: rest) = '>' :: rest :=
      Text.dropWhile_exact blank (show Text.isBlank '>' = false by decide)
    unfold closes?
    simp only [read, after, passed, known, if_true]

/-- What a closing tag is named, and how it goes on behind its name. -/
theorem closes?_text {tag name back : Text}
    (closes : table.closes? tag ((TagToken.mk true name).text ++ back) = some (name.length + 2)) :
    TagToken.IsName name ∧ table.canonical? name = some tag ∧
      ∃ blanks rest, back = blanks ++ '>' :: rest ∧ ∀ c ∈ blanks, Text.isBlank c = true := by
  obtain ⟨name', blanks, rest, whole, named, blank, known, size⟩ := closes?_eq_some.mp closes
  have same : (TagToken.mk true name).text.length = (TagToken.mk true name').text.length := by
    simp only [TagToken.length_text, TagToken.lead]
    omega
  obtain ⟨texts, tails⟩ := List.append_inj whole same
  have names : name = name' := by simpa [TagToken.text] using texts
  rw [names]
  exact ⟨named, known, blanks, rest, tails, blank⟩

/-- What renaming does at a token of a known name. -/
theorem rename_token {token : TagToken} {tag rest : Text}
    (read : TagToken.read? (token.text ++ rest) = some token)
    (known : table.canonical? token.name = some tag) :
    table.rename (token.text ++ rest) = (TagToken.mk token.closing tag).text ++
      if token.closing || !table.isContent tag ||
        TagToken.endsInSlash none false rest then table.rename rest
      else match closing? .content (table.closes? tag) rest with
        | none => table.rename rest
        | some (pos, n) => rest.take (pos + 2) ++ (tag ++ table.rename (rest.drop (pos + n))) := by
  have lead : (token.text ++ rest).take token.lead ++ tag =
    (TagToken.mk token.closing tag).text := by
    obtain ⟨closing, name⟩ := token
    cases closing <;> simp [TagToken.text, TagToken.lead]
  obtain ⟨c, tail, whole, back⟩ := token.text_cons rest
  rw [whole, List.cons_append] at read lead ⊢
  rw [rename, read]
  simp only [known, lead, back]
  split
  · rfl
  · cases closing? .content (table.closes? tag) rest <;> simp

/-- Whether renaming finds no block behind a token that names a tag: the token closes one, its tag
bears no content, it closes itself or it is never closed. -/
def Alone (table : SpellingTable) (token : TagToken) (tag rest : Text) : Prop :=
  (token.closing || !table.isContent tag || TagToken.endsInSlash none false rest) = true ∨
    closing? .content (table.closes? tag) rest = none

/-- The two tokens of a block that bears content, with what stands between their names, as renaming
finds them. -/
structure TagPair (table : SpellingTable) (tag opening front name back : Text) : Prop where
  read : TagToken.read? ((TagToken.mk false opening).text ++
    (front ++ ((TagToken.mk true name).text ++ back))) =
    some ⟨false, opening⟩
  known : table.canonical? opening = some tag
  content : table.isContent tag = true
  unslashed : TagToken.endsInSlash none false (front ++ ((TagToken.mk true name).text ++ back)) =
    false
  closed : closing? .content (table.closes? tag) (front ++ ((TagToken.mk true name).text ++ back)) =
    some (front.length, name.length + 2)

theorem TagPair.closes {tag opening front name back : Text}
    (pair : table.TagPair tag opening front name back) :
    table.closes? tag ((TagToken.mk true name).text ++ back) = some (name.length + 2) :=
  (closing?_at pair.closed).1

/-- Where no known token is read the text goes on as it is. -/
theorem rename_keep {c : Char} {s : Text}
    (unknown : ∀ token, TagToken.read? (c :: s) = some token → table.canonical? token.name = none) :
    table.rename (c :: s) = c :: table.rename s := by
  cases read : TagToken.read? (c :: s) with
  | none => rw [rename, read]
  | some token =>
    rw [rename, read]
    simp only [unknown token read]

theorem rename_unread {c : Char} {s : Text} (unread : TagToken.read? (c :: s) = none) :
    table.rename (c :: s) = c :: table.rename s :=
  rename_keep fun token read => by
    rw [unread] at read
    cases read

theorem rename_unknown {c : Char} {s : Text} {token : TagToken}
    (read : TagToken.read? (c :: s) = some token)
    (unknown : table.canonical? token.name = none) : table.rename (c :: s) = c :: table.rename s :=
  rename_keep fun token' read' => by
    rw [read, Option.some.injEq] at read'
    rwa [← read']

/-- A token without a block becomes canonical. -/
theorem rename_alone {token : TagToken} {tag rest : Text}
    (read : TagToken.read? (token.text ++ rest) = some token)
    (known : table.canonical? token.name = some tag) (alone : table.Alone token tag rest) :
    table.rename (token.text ++ rest) = (TagToken.mk token.closing tag).text ++
      table.rename rest := by
  rw [rename_token read known]
  rcases alone with passed | unclosed
  · rw [if_pos passed]
  · rw [unclosed]
    split <;> rfl

/-- Renaming at a block: its body stays, and its closing tag becomes canonical as well. -/
theorem rename_block {tag opening front name back : Text}
    (pair : table.TagPair tag opening front name back) :
    table.rename ((TagToken.mk false opening).text ++
      (front ++ ((TagToken.mk true name).text ++ back))) =
      (TagToken.mk false tag).text ++ (front ++
        ((TagToken.mk true tag).text ++ table.rename back)) := by
  have before : (front ++ ((TagToken.mk true name).text ++ back)).take (front.length + 2) = front ++
    ['<', '/'] := by
    have split : front ++ ((TagToken.mk true name).text ++ back) = (front ++ ['<', '/']) ++
      (name ++ back) := by
      simp [TagToken.text]
    rw [split, List.take_left' (by simp)]
  have after : (front ++ ((TagToken.mk true name).text ++ back)).drop
    (front.length + (name.length + 2)) = back := by
    rw [← List.append_assoc, List.drop_left' (by simp [TagToken.text])]
  rw [rename_token pair.read pair.known]
  simp only [pair.content, pair.unslashed, pair.closed, before, after, Bool.not_true, Bool.or_self,
    Bool.false_eq_true, if_false]
  simp [TagToken.text]

/-- A token of a known name is without a block, or it opens one. -/
theorem alone_or_pair {token : TagToken} {tag rest : Text}
    (read : TagToken.read? (token.text ++ rest) = some token)
    (known : table.canonical? token.name = some tag) :
    table.Alone token tag rest ∨ ∃ opening front name back, token = ⟨false, opening⟩ ∧
      rest = front ++ ((TagToken.mk true name).text ++ back) ∧
        table.TagPair tag opening front name back := by
  obtain ⟨closing, opening⟩ := token
  by_cases passed : (closing || !table.isContent tag || TagToken.endsInSlash none false rest) = true
  · exact .inl (.inl passed)
  · simp only [Bool.or_eq_true, Bool.not_eq_true', not_or, Bool.not_eq_true, Bool.not_eq_false]
      at passed
    obtain ⟨⟨rfl, content⟩, unslashed⟩ := passed
    cases found : closing? .content (table.closes? tag) rest with
    | none => exact .inl (.inr found)
    | some place =>
      right
      obtain ⟨pos, n⟩ := place
      obtain ⟨front, tail, rfl, rfl, closes, _⟩ := closing?_sound found
      obtain ⟨name, blanks, back, rfl, _, _, _, rfl⟩ := closes?_eq_some.mp closes
      exact ⟨opening, front, name, _, rfl, rfl, read, known, content, unslashed, found⟩

/-- A place holds no token of a known name, or it begins one. -/
theorem unknown_or_token (table : SpellingTable) (s : Text) :
    (∀ token, TagToken.read? s = some token → table.canonical? token.name = none) ∨
      ∃ token tag rest, s = token.text ++ rest ∧ TagToken.read? (token.text ++ rest) = some token ∧
        table.canonical? token.name = some tag := by
  cases read : TagToken.read? s with
  | none => exact .inl nofun
  | some token =>
    cases known : table.canonical? token.name with
    | none =>
      left
      rintro _ ⟨⟩
      exact known
    | some tag =>
      obtain ⟨rest, whole, _⟩ := TagToken.read?_eq_some.mp read
      exact .inr ⟨token, tag, rest, whole, whole ▸ read, known⟩

/-- Induction along a renaming: it goes on character by character, past a token without a block, and
past both tokens of a block at once. -/
theorem rename_induct (table : SpellingTable) {motive : Text → Prop} (nil : motive [])
    (keep : ∀ c s, (∀ token, TagToken.read? (c :: s) = some token →
      table.canonical? token.name = none) → motive s →
      motive (c :: s))
    (alone : ∀ token tag rest, TagToken.read? (token.text ++ rest) = some token →
      table.canonical? token.name = some tag → table.Alone token tag rest → motive rest → motive
        (token.text ++ rest))
    (block : ∀ tag opening front name back, table.TagPair tag opening front name back →
      motive back →
      motive ((TagToken.mk false opening).text ++
        (front ++ ((TagToken.mk true name).text ++ back)))) (s : Text) :
    motive s := by
  induction size : s.length using Nat.strongRecOn generalizing s with
  | ind size ih =>
    subst size
    cases s with
    | nil => exact nil
    | cons c s =>
      rcases unknown_or_token table (c :: s) with unknown | ⟨token, tag, rest, whole, read, known⟩
      · exact keep c s unknown (ih s.length (by simp) s rfl)
      · have more : 0 < token.text.length := by
          rw [token.length_text, TagToken.lead]
          split <;> omega
        rw [whole] at ih ⊢
        rcases alone_or_pair read known with alone' | ⟨opening, front, name, back, rfl, rfl, pair⟩
        · exact alone token tag rest read known alone'
            (ih rest.length (by rw [List.length_append]; omega) rest rfl)
        · exact block tag opening front name back pair (ih back.length (by simp; omega) back rfl)

/-- Before the first angle bracket nothing is renamed. -/
theorem rename_prose {v : Text} (tags : '<' ∉ v) (s : Text) :
    table.rename (v ++ s) = v ++ table.rename s := by
  induction v with
  | nil => rfl
  | cons c v ih =>
    simp only [List.mem_cons, not_or] at tags
    rw [List.cons_append, rename_unread (TagToken.read?_of_ne (Ne.symm tags.1) _), ih tags.2]
    rfl

theorem rename_unmarked {v : Text} (tags : '<' ∉ v) : table.rename v = v := by
  have kept := @rename_prose table v tags []
  rwa [rename, List.append_nil] at kept

end SpellingTable

end MarkupActions
