import Mathlib.Data.List.TakeWhile
import MarkupActions.Proofs.Rewriting
import MarkupActions.Proofs.Scanning

/-!
# What a repair does

Every repair of a tag takes out blanks before the place where a tag should have ended, or stray
quotes there, and puts the end of the tag in. Each rule is inverted once: what it found, how far it
went, and what it wrote.
-/

namespace MarkupActions

/-- The end of a tag is put in, for the blanks at its place if any. -/
inductive Closes : Text → Text → Prop
  | bracket {blanks : Text} (blank : ∀ c ∈ blanks, Text.isBlank c = true) : Closes blanks ['>']
  | slash {blanks : Text} (blank : ∀ c ∈ blanks, Text.isBlank c = true) : Closes blanks ['/', '>']

/-- The end of a tag is put in, or the quotes before it are taken out. -/
inductive Mends : Text → Text → Prop
  | closes {old new : Text} (closed : Closes old new) : Mends old new
  | unquotes {quotes : Text} (quoted : ∀ c ∈ quotes, Attribute.isQuote c = true) : Mends
      (quotes ++ ['>']) ['>']

theorem Closes.new_eq {old new : Text} (made : Closes old new) :
    new = ['>'] ∨ new = ['/', '>'] := by
  cases made with
  | bracket => exact .inl rfl
  | slash => exact .inr rfl

theorem Mends.new_eq {old new : Text} (made : Mends old new) : new = ['>'] ∨ new = ['/', '>'] := by
  cases made with
  | closes closed => exact closed.new_eq
  | unquotes => exact .inl rfl

theorem neverNew_mends {c : Char} (bracket : c ≠ '>') (slash : c ≠ '/') : NeverNew Mends c := by
  intro old new made inside
  rcases made.new_eq with rfl | rfl
  · simp [bracket] at inside
  · simp [bracket, slash] at inside

theorem neverOld_mends {c : Char} (dark : Text.isBlank c = false)
    (unquoted : Attribute.isQuote c = false)
    (bracket : c ≠ '>') : NeverOld Mends c := by
  intro old new made inside
  cases made with
  | closes closed =>
    cases closed with
    | bracket blank => rw [blank c inside] at dark; cases dark
    | slash blank => rw [blank c inside] at dark; cases dark
  | unquotes quoted =>
    rcases List.mem_append.mp inside with quote | last
    · rw [quoted c quote] at unquoted
      cases unquoted
    · exact bracket (by simpa using last)

namespace Repair

/-- What stands for a name at the head of a text. -/
def Named (names : List Text) (front : Text) : Prop :=
  ∃ name ∈ names, List.Forall₂ (fun n c => Text.sameFolded c n = true) name front

theorem quotesLength?_inv {s : Text} {n : Nat} (found : quotesLength? s = some n) :
    ∃ quotes rest, s = quotes ++ '>' :: rest ∧ quotes ≠ [] ∧
      (∀ c ∈ quotes, Attribute.isQuote c = true) ∧
      n = quotes.length + 1 := by
  simp only [quotesLength?, Text.drop_takeWhile_length] at found
  split at found
  · rename_i rest stops
    split at found
    · cases found
    · rename_i some'
      refine ⟨s.takeWhile Attribute.isQuote, rest, ?_, ?_, ?_, (Option.some.inj found).symm⟩
      · rw [← stops, List.takeWhile_append_dropWhile]
      · exact List.ne_nil_of_length_pos (Nat.pos_of_ne_zero some')
      · exact fun c inside => List.mem_takeWhile_imp inside
  · cases found

theorem strayQuoteAt?_inv (lead : Text) {names : List Text} {u new : Text} {n : Nat}
    (fires : strayQuoteAt? names (lead ++ u) lead.length = some (n, new)) :
    ∃ front quotes rest, u = front ++ (quotes ++ '>' :: rest) ∧ Named names front ∧ quotes ≠ [] ∧
      (∀ c ∈ quotes, Attribute.isQuote c = true) ∧
      n = lead.length + front.length + quotes.length + 1 ∧
      new = lead ++ (front ++ ['>']) := by
  obtain ⟨name, listed, found⟩ := List.exists_of_findSome?_eq_some fires
  obtain ⟨rest, after, found⟩ := Option.bind_eq_some_iff.mp found
  obtain ⟨k, length, found⟩ := Option.bind_eq_some_iff.mp found
  rw [List.drop_left] at after
  obtain ⟨front, rfl, matched⟩ := Text.afterFolded?_eq_some.mp after
  obtain ⟨quotes, rest, rfl, some', quoted, rfl⟩ := quotesLength?_inv length
  have size := matched.length_eq
  obtain ⟨rfl, rfl⟩ := Prod.mk.inj (Option.some.inj found)
  refine ⟨front, quotes, rest, rfl, ⟨name, listed, matched⟩, some', quoted, by omega, ?_⟩
  rw [size, ← List.append_assoc, List.take_left' (by simp)]
  simp

/-- A stray quote is found after a name that directly follows `<` or `</`. -/
theorem strayQuoteRule_inv {names : List Text} {s new : Text} {n : Nat}
    (fires : strayQuoteRule names s = some (n, new)) :
    ∃ lead front quotes rest, (lead = ['<'] ∨ lead = ['<', '/']) ∧
      s = lead ++ (front ++ (quotes ++ '>' :: rest)) ∧
      Named names front ∧ quotes ≠ [] ∧ (∀ c ∈ quotes, Attribute.isQuote c = true) ∧
      n = lead.length + front.length + quotes.length + 1 ∧ new = lead ++ (front ++ ['>']) := by
  unfold strayQuoteRule at fires
  split at fires
  · rename_i s
    rcases Option.or_eq_some_iff.mp fires with first | ⟨_, second⟩
    · have found := strayQuoteAt?_inv ['<', '/'] first
      obtain ⟨front, quotes, rest, rfl, found⟩ := found
      exact ⟨['<', '/'], front, quotes, rest, .inr rfl, rfl, found⟩
    · have found := strayQuoteAt?_inv ['<'] second
      obtain ⟨front, quotes, rest, whole, found⟩ := found
      exact ⟨['<'], front, quotes, rest, .inl rfl, by rw [← whole]; rfl, found⟩
  · have found := strayQuoteAt?_inv ['<'] fires
    obtain ⟨front, quotes, rest, rfl, found⟩ := found
    exact ⟨['<'], front, quotes, rest, .inl rfl, rfl, found⟩
  · cases fires

/-- A closing tag is ended where it breaks off, or where white space follows that no `>` comes
after. -/
theorem unterminatedClosingRule_inv {names : List Text} {s new : Text} {n : Nat}
    (fires : unterminatedClosingRule names s = some (n, new)) :
    ∃ front rest, s = '<' :: '/' :: (front ++ rest) ∧ Named names front ∧
      ((rest.dropWhile Text.isBlank = [] ∧ n = 2 + front.length + rest.length ∧
          new = '<' :: '/' :: (front ++ ['>'])) ∨
        ∃ c tail, rest.dropWhile Text.isBlank = c :: tail ∧ rest.takeWhile Text.isBlank ≠ [] ∧
          c ≠ '>' ∧
          n = 2 + front.length + (rest.takeWhile Text.isBlank).length + 1 ∧
          new = '<' :: '/' :: (front ++ '>' :: (rest.takeWhile Text.isBlank ++ [c]))) := by
  unfold unterminatedClosingRule at fires
  split at fires
  · rename_i s
    obtain ⟨name, listed, found⟩ := List.exists_of_findSome?_eq_some fires
    obtain ⟨rest, after, found⟩ := Option.bind_eq_some_iff.mp found
    obtain ⟨front, rfl, matched⟩ := Text.afterFolded?_eq_some.mp after
    have size := matched.length_eq
    simp only [size, List.take_left, Text.drop_takeWhile_length] at found
    refine ⟨front, rest, rfl, ⟨name, listed, matched⟩, ?_⟩
    split at found
    · rename_i empty
      obtain ⟨rfl, rfl⟩ := Prod.mk.inj (Option.some.inj found)
      have whole := List.takeWhile_append_dropWhile (p := Text.isBlank) (l := rest)
      rw [empty, List.append_nil] at whole
      exact .inl ⟨empty, by rw [whole], rfl⟩
    · rename_i c tail stops
      split at found
      · cases found
      · rename_i open'
        simp only [Bool.or_eq_true, not_or, List.isEmpty_iff, beq_iff_eq] at open'
        obtain ⟨rfl, rfl⟩ := Prod.mk.inj (Option.some.inj found)
        exact .inr ⟨c, tail, stops, open'.1, open'.2, rfl, by simp⟩
  · cases fires

theorem quoted?_length_le {quote : Char} {s v : Text} (found : Attribute.quoted? quote s = some v) :
    v.length + 1 ≤ s.length := by
  induction s generalizing v with
  | nil => cases found
  | cons c s ih =>
    by_cases closes : c = quote
    · simp only [Attribute.quoted?, closes, if_true, Option.some.injEq] at found
      subst found
      simp
    · simp only [Attribute.quoted?, closes, if_false, Option.map_eq_some_iff] at found
      obtain ⟨tail, inner, rfl⟩ := found
      have := ih inner
      simp only [List.length_cons]
      omega

theorem valueLength?_le {s : Text} {n : Nat} (found : valueLength? s = some n) : n ≤ s.length := by
  rcases valueLength?_inv found with ⟨quote, s, v, rfl, _, inner, rfl⟩ | ⟨_, rfl⟩
  · have bound := quoted?_length_le inner
    simp only [List.length_cons]
    omega
  · exact (List.takeWhile_sublist _).length_le

theorem attributeLength?_le {s : Text} {n : Nat} (found : attributeLength? s = some n) :
    n ≤ s.length := by
  obtain ⟨front, tail, m, rfl, _, value, rfl⟩ := attributeLength?_split found
  have := valueLength?_le value
  simp only [List.length_append]
  omega

theorem attributesLength?_le {s : Text} {n : Nat} (found : attributesLength? s = some n) :
    n ≤ s.length := by
  have run := attributeRun_of_length? found
  clear found
  induction run with
  | last read => exact attributeLength?_le read
  | @next s first m read _ ih =>
    have bound := attributeLength?_le read
    rw [List.length_drop] at ih
    omega

/-- Attributes reach to the end of a row. -/
theorem attributesLength?_endsLine {s : Text} {n : Nat} (found : attributesLength? s = some n) :
    endsLine (s.drop n) = true := by
  have run := attributeRun_of_length? found
  clear found
  induction run with
  | last _ ended => exact ended
  | next _ _ ih => rwa [← List.drop_drop]

/-- Attributes begin with white space. -/
theorem attributesLength?_blank {s : Text} {n : Nat} (found : attributesLength? s = some n) :
    ∃ c t, s = c :: t ∧ Text.isBlank c = true ∧ 0 < n := by
  obtain ⟨m, first, size⟩ : ∃ m, attributeLength? s = some m ∧ m ≤ n := by
    cases attributeRun_of_length? found with
    | last read => exact ⟨n, read, Nat.le_refl n⟩
    | next read => exact ⟨_, read, Nat.le_add_right _ _⟩
  have positive := attributeLength?_pos first
  cases s with
  | nil => simp [attributeLength?, Text.trimStart] at first
  | cons c t =>
    refine ⟨c, t, rfl, ?_, by omega⟩
    cases blank : Text.isBlank c with
    | true => rfl
    | false => simp [attributeLength?, Text.trimStart, blank] at first

/-- An opening tag is looked at where its attributes end a row, and stays as it is if it goes on
behind the blanks there. -/
theorem unterminatedSelfClosingRule_found {names : List Text} {s new : Text} {n : Nat}
    (fires : unterminatedSelfClosingRule names s = some (n, new)) :
    ∃ front rest k, s = '<' :: (front ++ rest) ∧ Named names front ∧
      attributesLength? rest = some k ∧
      n = 1 + front.length + k + ((rest.drop k).takeWhile Text.isSpaceOrTab).length ∧
      new = '<' :: (front ++ (rest.take k ++
        if goesOn ((rest.drop k).dropWhile Text.isSpaceOrTab) then
          (rest.drop k).takeWhile Text.isSpaceOrTab
        else ['/', '>'])) := by
  unfold unterminatedSelfClosingRule at fires
  split at fires
  · rename_i s
    obtain ⟨name, listed, found⟩ := List.exists_of_findSome?_eq_some fires
    obtain ⟨rest, after, found⟩ := Option.bind_eq_some_iff.mp found
    obtain ⟨k, read, found⟩ := Option.bind_eq_some_iff.mp found
    obtain ⟨front, rfl, matched⟩ := Text.afterFolded?_eq_some.mp after
    have size := matched.length_eq
    have bound := attributesLength?_le read
    have tag : (front ++ rest).take (name.length + k) = front ++ rest.take k := by
      rw [size, List.take_append, List.take_of_length_le (by omega)]
      simp
    obtain ⟨rfl, rfl⟩ := Prod.mk.inj (Option.some.inj found)
    refine ⟨front, rest, k, rfl, ⟨name, listed, matched⟩, read, ?_, ?_⟩
    · rw [tag]
      simp only [List.length_cons, List.length_append, List.length_take]
      omega
    · rw [tag, ← List.drop_drop, Text.drop_takeWhile_length]
      simp
  · cases fires

/-- An opening tag whose attributes end a row is ended there, unless it goes on. -/
theorem unterminatedSelfClosingRule_inv {names : List Text} {s new : Text} {n : Nat}
    (fires : unterminatedSelfClosingRule names s = some (n, new)) :
    ∃ front attributes blanks rest, s = '<' :: (front ++ (attributes ++ (blanks ++ rest))) ∧
      Named names front ∧
      (∀ c ∈ blanks, Text.isSpaceOrTab c = true) ∧
      n = 1 + front.length + attributes.length + blanks.length ∧
      (new = '<' :: (front ++ (attributes ++ blanks)) ∨
        new = '<' :: (front ++ (attributes ++ ['/', '>']))) ∧
      attributes.head?.any Text.isBlank = true := by
  obtain ⟨front, rest, k, rfl, named, read, rfl, rfl⟩ := unterminatedSelfClosingRule_found fires
  have bound := attributesLength?_le read
  refine ⟨front, rest.take k, (rest.drop k).takeWhile Text.isSpaceOrTab,
    (rest.drop k).dropWhile Text.isSpaceOrTab, ?_, named, fun c inside =>
    List.mem_takeWhile_imp inside, ?_, ?_, ?_⟩
  · rw [List.takeWhile_append_dropWhile, List.take_append_drop]
  · rw [List.length_take]
    omega
  · split
    · exact .inl rfl
    · exact .inr rfl
  · obtain ⟨c, t, rfl, blank, pos⟩ := attributesLength?_blank read
    obtain ⟨k, rfl⟩ := Nat.exists_eq_add_one_of_ne_zero (Nat.pos_iff_ne_zero.mp pos)
    simpa using blank

end Repair

end MarkupActions
