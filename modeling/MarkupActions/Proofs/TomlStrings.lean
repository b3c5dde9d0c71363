import MarkupActions.Proofs.JsonTexts
import MarkupActions.Toml.Quoted

/-!
# TOML strings

A string is read back from the form that it is written in, whatever characters it is made of.
`Inside` tells what may stand between the quotes and what it stands for; both readers follow it, and
each way of writing a string keeps to it.
-/

namespace MarkupActions

theorem Text.afterNewline?_of_ne {c : Char} (line : c ≠ '\n') (carriage : c ≠ '\r') (s : Text) :
    afterNewline? (c :: s) = none := by
  unfold afterNewline?
  split
  · rename_i whole
    exact absurd (List.cons.inj whole).1 carriage
  · rename_i whole
    exact absurd (List.cons.inj whole).1 line
  · rfl

namespace Toml

variable {escapes long : Bool} {quote : Char} {seen bound : Nat} {written value rest : Text}

/-! ## Escapes -/

/-- Whether a text, after a backslash, is the escape of a character. -/
structure IsEscape (written : Text) (c : Char) : Prop where
  read : ∀ rest, readEscape? (written ++ rest) = some (c, rest)
  /-- It is not the end of a line, which a backslash joins with the next one. -/
  dark : ∀ rest, Text.afterNewline? ((written ++ rest).dropWhile Text.isSpaceOrTab) = none

theorem isEscape_letter : ∀ entry ∈ letterEscapes, IsEscape [entry.1] entry.2 := by
  have all : ∀ entry ∈ letterEscapes, entry.1 ≠ 'u' ∧ entry.1 ≠ 'U' ∧
    letterEscapes.lookup entry.1 = some entry.2 ∧
      Text.isSpaceOrTab entry.1 = false ∧ entry.1 ≠ '\n' ∧ entry.1 ≠ '\r' := by
    decide
  intro entry listed
  obtain ⟨short, long, known, dark, line, carriage⟩ := all entry listed
  refine ⟨fun rest => ?_, fun rest => ?_⟩
  · rw [List.singleton_append, readEscape?, known, Option.map_some]
    · exact short
    · exact long
  · simp [dark, Text.afterNewline?, line, carriage]

theorem digitValue?_toUpper : ∀ n < 16, Text.digitValue? (Text.hexDigit n).toUpper = some n := by
  decide

/-- A character below 128 is read back from the last two of its four digits. -/
theorem isEscape_code {c : Char} (small : c.toNat < 128) :
    IsEscape ('u' :: '0' :: '0' :: codeDigits c) c := by
  refine ⟨fun rest => ?_, fun rest => rfl⟩
  have high := digitValue?_toUpper (c.toNat / 16) (by omega)
  have low := digitValue?_toUpper (c.toNat % 16) (by omega)
  have number := Text.hexNumber?_pair high low rest
  have valid : c.toNat.isValidChar := c.valid
  simp only [List.cons_append, codeDigits, List.nil_append, readEscape?, codePoint?, number,
    Option.bind_eq_bind, Option.bind_some, Nat.div_add_mod, valid, if_true, Char.ofNat_toNat]

theorem toNat_lt_of_needsEscape {c : Char} (control : needsEscape c = true) : c.toNat < 128 := by
  have small : c.val < 0x20 ∨ c.val = 0x7F := by
    simp only [needsEscape, Bool.or_eq_true, Bool.and_eq_true, decide_eq_true_eq, beq_iff_eq]
      at control
    exact control.imp_left fun both => both.1.1
  rcases small with low | delete
  · exact Nat.lt_trans (UInt32.lt_iff_toNat_lt.mp low) (by decide)
  · rw [Char.toNat, delete]
    decide

/-- What is written for a character with a backslash stands for that character. -/
theorem isEscape_of_escapeOf? {c : Char} {escape : Text} (found : escapeOf? c = some escape) :
    ∃ written, escape = '\\' :: written ∧ IsEscape written c := by
  unfold escapeOf? at found
  split at found
  · rename_i letter value listed
    obtain rfl : value = c := by simpa using List.find?_some listed
    exact ⟨[letter], (Option.some.inj found).symm,
      isEscape_letter _ (List.mem_of_find?_eq_some listed)⟩
  · split at found
    · rename_i control
      exact ⟨_, (Option.some.inj found).symm, isEscape_code (toNat_lt_of_needsEscape control)⟩
    · cases found

theorem isPlain_of_not_needsEscape {c : Char} (free : needsEscape c = false) (line : c ≠ '\n') :
    isPlain c = true := by
  by_cases tab : c = '\t'
  · simp [isPlain, tab]
  · simp only [needsEscape, Bool.or_eq_false_iff, Bool.and_eq_false_iff, decide_eq_false_iff_not,
      beq_eq_false_iff_ne, bne_eq_false_iff_eq, tab, line, or_false, UInt32.not_lt] at free
    simp [isPlain, free]

/-- A character that is written without a backslash may stand for itself. -/
theorem plain_of_escapeOf?_none {c : Char} (none : escapeOf? c = none) :
    isPlain c = true ∧ c ≠ '"' ∧ c ≠ '\\' := by
  unfold escapeOf? at none
  split at none
  · cases none
  · rename_i unlisted
    have other : ∀ entry ∈ letterEscapes, c ≠ entry.2 := by
      intro entry listed same
      exact absurd (List.find?_eq_none.mp unlisted entry listed) (by simp [same])
    have free : needsEscape c = false := by simpa using none
    exact ⟨isPlain_of_not_needsEscape free (other ('n', '\n') (by decide)),
      other ('"', '"') (by decide), other ('\\', '\\') (by decide)⟩

/-! ## Between the quotes -/

/-- What may stand between the quotes of a string, and what it stands for; `seen` quotes stand right
in front of it. Two quotes in a row are allowed on many lines, and so are newlines. -/
inductive Inside (escapes long : Bool) (quote : Char) : (seen : Nat) → (written value : Text) → Prop
  | nil {seen : Nat} : Inside escapes long quote seen [] []
  | quote {seen : Nat} {written value : Text} : long = true → seen < 2 →
      Inside escapes long quote (seen + 1) written value →
      Inside escapes long quote seen (quote :: written) (quote :: value)
  | newline {seen : Nat} {written value : Text} : long = true →
      Inside escapes long quote 0 written value →
      Inside escapes long quote seen ('\n' :: written) ('\n' :: value)
  | plain {seen : Nat} {c : Char} {written value : Text} : isPlain c = true → c ≠ quote →
      (escapes = true → c ≠ '\\') →
      Inside escapes long quote 0 written value →
        Inside escapes long quote seen (c :: written) (c :: value)
  | escape {seen : Nat} {c : Char} {escape written value : Text} : escapes = true →
      IsEscape escape c →
      Inside escapes long quote 0 written value →
      Inside escapes long quote seen ('\\' :: (escape ++ written)) (c :: value)

/-- A character that ends a string, and is no escape and no newline. -/
structure IsQuote (quote : Char) : Prop where
  escape : quote ≠ '\\'
  line : quote ≠ '\n'
  carriage : quote ≠ '\r'
  plain : isPlain quote = true

theorem isQuote_double : IsQuote '"' := ⟨by decide, by decide, by decide, by decide⟩

theorem isQuote_single : IsQuote '\'' := ⟨by decide, by decide, by decide, by decide⟩

theorem isPlain_newline : isPlain '\n' = false := by decide

theorem isPlain_carriage : isPlain '\r' = false := by decide

theorem ne_newline_of_isPlain {c : Char} (plain : isPlain c = true) : c ≠ '\n' ∧ c ≠ '\r' := by
  constructor
  · rintro rfl
    rw [isPlain_newline] at plain
    cases plain
  · rintro rfl
    rw [isPlain_carriage] at plain
    cases plain

/-- On one line: what is written is read up to the quote that follows it. -/
theorem Inside.readShort? (inside : Inside escapes false quote seen written value)
    (isQuote : IsQuote quote)
    (enough : written.length < bound) (rest : Text) :
    Toml.readShort? escapes quote bound (written ++ quote :: rest) = some (value, rest) := by
  induction inside generalizing bound with
  | nil =>
    obtain ⟨bound, rfl⟩ := Nat.exists_eq_succ_of_ne_zero (Nat.ne_zero_of_lt enough)
    simp [Toml.readShort?]
  | quote many => cases many
  | newline many => cases many
  | plain plain other unescaped _ ih =>
    obtain ⟨bound, rfl⟩ := Nat.exists_eq_succ_of_ne_zero (Nat.ne_zero_of_lt enough)
    have tail := ih (Nat.lt_of_succ_lt_succ enough)
    rw [List.cons_append, Toml.readShort?, if_neg other, if_neg (by simpa using unescaped),
      if_pos plain, tail]
    rfl
  | escape on escape _ ih =>
    obtain ⟨bound, rfl⟩ := Nat.exists_eq_succ_of_ne_zero (Nat.ne_zero_of_lt enough)
    subst on
    have tail := @ih bound (by simp at enough; omega)
    simp only [List.cons_append, List.append_assoc, Toml.readShort?, isQuote.escape.symm, if_false,
      Bool.true_and, beq_self_eq_true, if_true, escape.read, tail, Option.bind_eq_bind,
      Option.bind_some]

/-- Either a string is nothing but the quotes that may stand at its end, or no three quotes in a row
stand at its head, whatever follows it. -/
theorem Inside.run (inside : Inside escapes long quote seen written value) (isQuote : IsQuote quote)
    (few : seen ≤ 2) :
    (∃ k, k + seen ≤ 2 ∧ written = List.replicate k quote ∧ value = List.replicate k quote) ∨
      ∀ rest, ((written ++ rest).takeWhile (· == quote)).length + seen ≤ 2 := by
  induction inside with
  | nil => exact .inl ⟨0, by omega, rfl, rfl⟩
  | quote _ fewer _ ih =>
    rcases ih fewer with ⟨k, total, rfl, rfl⟩ | short
    · exact .inl ⟨k + 1, by omega, rfl, rfl⟩
    · refine .inr fun rest => ?_
      have tail := short rest
      simp only [List.cons_append, List.takeWhile_cons, beq_self_eq_true, if_true, List.length_cons]
      omega
  | newline => exact .inr fun rest => by simpa [isQuote.line.symm] using few
  | plain _ other => exact .inr fun rest => by simpa [other] using few
  | escape => exact .inr fun rest => by simpa [isQuote.escape.symm] using few

/-- Up to two quotes in front of the three that close a string belong to it. -/
theorem readLong?_closing {k : Nat} (few : k ≤ 2) (stop : rest.head? ≠ some quote) :
    readLong? escapes quote (bound + 1)
      (List.replicate k quote ++ quote :: quote :: quote :: rest) =
      some (List.replicate k quote, rest) := by
  have head : rest.takeWhile (· == quote) = [] := by
    cases rest with
    | nil => rfl
    | cons c rest =>
      have other : c ≠ quote := fun same => stop (congrArg some same)
      simp [other]
  obtain rfl | rfl | rfl : k = 0 ∨ k = 1 ∨ k = 2 := by omega
  · simp [readLong?, head]
  · simp [readLong?, head, List.replicate]
  · simp [readLong?, head, List.replicate]

/-- A character that stands for itself, where no three quotes begin. -/
theorem readLong?_plain {c : Char} {s : Text} (short : ((c :: s).takeWhile (· == quote)).length ≤ 2)
    (plain : isPlain c = true) (unescaped : escapes = true → c ≠ '\\') :
    Toml.readLong? escapes quote (bound + 1) (c :: s) =
      (Toml.readLong? escapes quote bound s).map fun (value, rest) => (c :: value, rest) := by
  obtain ⟨line, carriage⟩ := ne_newline_of_isPlain plain
  have more : ¬ 3 ≤ ((c :: s).takeWhile (· == quote)).length := by omega
  simp only [Toml.readLong?, if_neg more, Text.afterNewline?_of_ne line carriage]
  rw [if_neg (by simpa using unescaped), if_pos plain]

/-- On many lines: what is written is read up to the three quotes that follow it. -/
theorem Inside.readLong? (inside : Inside escapes true quote seen written value)
    (isQuote : IsQuote quote)
    (few : seen ≤ 2) (enough : written.length < bound) (stop : rest.head? ≠ some quote) :
    Toml.readLong? escapes quote bound (written ++ quote :: quote :: quote :: rest) = some
      (value, rest) := by
  induction inside generalizing bound with
  | nil =>
    obtain ⟨bound, rfl⟩ := Nat.exists_eq_succ_of_ne_zero (Nat.ne_zero_of_lt enough)
    exact readLong?_closing (Nat.zero_le 2) stop
  | quote many fewer inside ih =>
    obtain ⟨bound, rfl⟩ := Nat.exists_eq_succ_of_ne_zero (Nat.ne_zero_of_lt enough)
    -- Quotes that go on to the closing ones are read together with them; any others are too few to
    -- close the string.
    rcases (Inside.quote many fewer inside).run isQuote few with ⟨k, total, all, same⟩ | short
    · rw [all, same]
      exact readLong?_closing (by omega) stop
    · have tail := ih fewer (Nat.lt_of_succ_lt_succ enough)
      have run := Nat.le_trans (Nat.le_add_right _ _) (short (quote :: quote :: quote :: rest))
      rw [List.cons_append] at run ⊢
      rw [readLong?_plain run isQuote.plain fun _ => isQuote.escape, tail]
      rfl
  | newline many inside ih =>
    obtain ⟨bound, rfl⟩ := Nat.exists_eq_succ_of_ne_zero (Nat.ne_zero_of_lt enough)
    have tail := ih (Nat.zero_le 2) (Nat.lt_of_succ_lt_succ enough)
    simp [Toml.readLong?, isQuote.line.symm, Text.afterNewline?, tail]
  | plain plain other unescaped inside ih =>
    obtain ⟨bound, rfl⟩ := Nat.exists_eq_succ_of_ne_zero (Nat.ne_zero_of_lt enough)
    have tail := ih (Nat.zero_le 2) (Nat.lt_of_succ_lt_succ enough)
    rw [List.cons_append, readLong?_plain (by simp [other]) plain unescaped, tail]
    rfl
  | escape on escape inside ih =>
    obtain ⟨bound, rfl⟩ := Nat.exists_eq_succ_of_ne_zero (Nat.ne_zero_of_lt enough)
    subst on
    have tail := @ih bound (Nat.zero_le 2) (by simp at enough; omega)
    simp [Toml.readLong?, isQuote.escape.symm, Text.afterNewline?_of_ne (c := '\\'), escape.dark,
      escape.read, tail]

/-- Newlines come from newlines alone, so a string without any does not begin with one. -/
theorem Inside.afterNewline? (inside : Inside escapes long quote seen written value)
    (isQuote : IsQuote quote)
    (line : '\n' ∉ value) (rest : Text) : Text.afterNewline? (written ++ quote :: rest) = none := by
  cases inside with
  | nil => exact Text.afterNewline?_of_ne isQuote.line isQuote.carriage _
  | quote => exact Text.afterNewline?_of_ne isQuote.line isQuote.carriage _
  | newline => exact absurd List.mem_cons_self line
  | plain plain =>
    exact Text.afterNewline?_of_ne (ne_newline_of_isPlain plain).1 (ne_newline_of_isPlain plain).2 _
  | escape => rfl

/-! ## Ways to write a string -/

/-- How many quotes in a row a string may hold without an escape. -/
def spareOf (long : Bool) : Nat := if long then 2 else 0

/-- With escapes, any text may be written. -/
theorem inside_escapeAll (long : Bool) (seen : Nat) (s : Text) :
    Inside true long '"' seen (escapeAll long (spareOf long) seen s) s := by
  induction s generalizing seen with
  | nil => exact .nil
  | cons c s ih =>
    rw [escapeAll]
    split
    · rename_i bare
      obtain ⟨rfl, fewer⟩ := bare
      cases long with
      | true => exact .quote rfl fewer (ih _)
      | false => exact absurd fewer (Nat.not_lt_zero _)
    · split
      · rename_i line
        obtain ⟨rfl, many⟩ := line
        exact .newline many (ih _)
      · split
        · rename_i escape found
          obtain ⟨written, rfl, isEscape⟩ := isEscape_of_escapeOf? found
          exact .escape rfl isEscape (ih _)
        · rename_i none
          obtain ⟨plain, unquoted, unescaped⟩ := plain_of_escapeOf?_none none
          exact .plain plain unquoted (fun _ => unescaped) (ih _)

theorem le_longestRun (c : Char) (seen : Nat) (s : Text) : seen ≤ longestRun c seen s := by
  induction s generalizing seen with
  | nil => exact Nat.le_refl _
  | cons d s ih =>
    rw [longestRun]
    split
    · exact Nat.le_of_succ_le (ih _)
    · exact Nat.le_max_left _ _

/-- Without escapes, a text may be written as it is if it holds no control characters, no longer run
of quotes than may stand there, and newlines only on many lines. -/
theorem inside_self {s : Text} (control : s.any needsEscape = false)
    (line : long = true ∨ s.any (· == '\n') = false)
    (run : longestRun quote seen s ≤ spareOf long) :
    Inside false long quote seen s s := by
  induction s generalizing seen with
  | nil => exact .nil
  | cons c s ih =>
    rw [List.any_cons, Bool.or_eq_false_iff] at control
    rw [List.any_cons, Bool.or_eq_false_iff] at line
    rw [longestRun] at run
    have later : long = true ∨ s.any (· == '\n') = false := line.imp_right And.right
    by_cases same : c = quote
    · subst same
      rw [if_pos rfl] at run
      have fewer : seen + 1 ≤ spareOf long := Nat.le_trans (le_longestRun _ _ _) run
      cases long with
      | true => exact .quote rfl fewer (ih control.2 later run)
      | false => exact absurd fewer (Nat.not_succ_le_zero _)
    · rw [if_neg same] at run
      have rest := ih control.2 later (Nat.le_trans (Nat.le_max_right _ _) run)
      by_cases newline : c = '\n'
      · subst newline
        exact .newline (line.resolve_right (by simp)) rest
      · exact .plain (isPlain_of_not_needsEscape control.1 newline) same (fun no => nomatch no) rest

/-! ## A string with its quotes -/

/-- A string on one line does not look like one on many lines. -/
theorem Inside.ne_quotes (inside : Inside escapes false quote seen written value)
    (isQuote : IsQuote quote)
    (stop : rest.head? ≠ some quote) (t : Text) :
    written ++ quote :: rest ≠ quote :: quote :: t := by
  intro same
  cases inside with
  | nil =>
    obtain rfl : rest = quote :: t := (List.cons.inj same).2
    exact stop rfl
  | quote many => cases many
  | newline many => cases many
  | plain _ other => exact other (List.cons.inj same).1
  | escape => exact isQuote.escape (List.cons.inj same).1.symm

theorem Inside.readString?_double (inside : Inside true false '"' seen written value)
    (stop : rest.head? ≠ some '"') :
    readString? ('"' :: (written ++ '"' :: rest)) = some (value, rest) := by
  rw [readString?, readKeyString?]
  · exact inside.readShort? isQuote_double (by simp) rest
  · exact fun t same => inside.ne_quotes isQuote_double stop t (List.cons.inj same).2
  · exact fun t same => absurd (List.cons.inj same).1 (by decide)

theorem Inside.readString?_single (inside : Inside false false '\'' seen written value)
    (stop : rest.head? ≠ some '\'') : readString? ('\'' :: (written ++ '\'' :: rest)) = some
    (value, rest) := by
  rw [readString?, readKeyString?]
  · exact inside.readShort? isQuote_single (by simp) rest
  · exact fun t same => absurd (List.cons.inj same).1 (by decide)
  · exact fun t same => inside.ne_quotes isQuote_single stop t (List.cons.inj same).2

/-- The newline after the opening quotes is passed over, and a string that needs none keeps its
head. -/
theorem Inside.after_leadingNewline (inside : Inside escapes long quote seen written value)
    (isQuote : IsQuote quote)
    (rest : Text) :
    (Text.afterNewline? (leadingNewline value ++ (written ++ quote :: rest))).getD
      (leadingNewline value ++ (written ++ quote :: rest)) = written ++ quote :: rest := by
  unfold leadingNewline
  split
  · rfl
  · rename_i none
    have line : '\n' ∉ value := fun inside =>
      none (List.any_eq_true.mpr ⟨_, inside, beq_self_eq_true _⟩)
    rw [List.nil_append, inside.afterNewline? isQuote line, Option.getD_none]

theorem Inside.readLong?_leadingNewline (inside : Inside escapes true quote 0 written value)
    (isQuote : IsQuote quote)
    (stop : rest.head? ≠ some quote) :
    let s := leadingNewline value ++ (written ++ quote :: quote :: quote :: rest)
    Toml.readLong? escapes quote s.length ((Text.afterNewline? s).getD s) = some (value, rest) := by
  dsimp only
  rw [inside.after_leadingNewline isQuote]
  refine inside.readLong? isQuote (Nat.zero_le 2) ?_ stop
  simp only [List.length_append, List.length_cons]
  omega

theorem styleOf_literal {s : Text} (style : styleOf s = .literal) :
    s.any needsEscape = false ∧ s.any (· == '\n') = false ∧ longestRun '\'' 0 s = 0 := by
  unfold styleOf at style
  dsimp only at style
  split_ifs at style with basic literal
  simp_all

theorem styleOf_longLiteral {s : Text} (style : styleOf s = .longLiteral) :
    s.any needsEscape = false ∧ longestRun '\'' 0 s ≤ 2 := by
  unfold styleOf at style
  dsimp only at style
  split_ifs at style with basic literal longBasic longLiteral
  simp_all

/-- A string is read back whatever it is made of, if no quote follows it. -/
theorem readString?_writeString {rest : Text} (double : rest.head? ≠ some '"')
    (single : rest.head? ≠ some '\'')
    (s : Text) : readString? (writeString s ++ rest) = some (s, rest) := by
  unfold writeString
  cases style : styleOf s with
  | basic =>
    have inside : Inside true false '"' 0 (escapeAll false 0 0 s) s := inside_escapeAll false 0 s
    simpa [writeAs] using inside.readString?_double double
  | literal =>
    obtain ⟨control, line, run⟩ := styleOf_literal style
    have inside : Inside false false '\'' 0 s s :=
      inside_self control (.inr line) (Nat.le_of_eq run)
    simpa [writeAs] using inside.readString?_single single
  | longBasic =>
    have inside : Inside true true '"' 0 (escapeAll true 2 0 s) s := inside_escapeAll true 0 s
    simpa [writeAs, readString?] using inside.readLong?_leadingNewline isQuote_double double
  | longLiteral =>
    obtain ⟨control, run⟩ := styleOf_longLiteral style
    have inside : Inside false true '\'' 0 s s := inside_self control (.inl rfl) run
    simpa [writeAs, readString?] using inside.readLong?_leadingNewline isQuote_single single

/-- A quote may stand right in front of the three that close a string. -/
example : writeString ['\'', '"'] = "\"\"\"'\"\"\"\"".toList := by decide

end Toml

end MarkupActions
