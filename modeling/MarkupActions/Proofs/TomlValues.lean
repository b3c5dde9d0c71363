import MarkupActions.Proofs.TomlStrings
import MarkupActions.Settings.File

/-!
# TOML values on a line

The values that settings are made of are read back where a line ends after them: strings, truth
values, natural numbers that 64 bits hold, and arrays of strings, which may lie on many lines.
-/

namespace MarkupActions.Toml

variable {bound depth : Nat} {c : Char} {s t rest : Text}

/-! ## What is passed over -/

/-- Whether a character is neither passed over nor the beginning of a comment. -/
def isDark (c : Char) : Bool := !Text.isSpaceOrTab c && c != '#' && c != '\n' && c != '\r'

theorem isDark_iff : isDark c = true ↔ Text.isSpaceOrTab c = false ∧ c ≠ '#' ∧ c ≠ '\n' ∧
    c ≠ '\r' := by
  simp [isDark, and_assoc]

theorem skipBlanks_cons (dark : Text.isSpaceOrTab c = false) (s : Text) :
    skipBlanks (c :: s) = c :: s := by
  simp [skipBlanks, dark]

theorem skipBlanks_append (blanks : ∀ b ∈ t, Text.isSpaceOrTab b = true)
    (dark : Text.isSpaceOrTab c = false) (s : Text) :
    skipBlanks (t ++ c :: s) = c :: s := by
  rw [skipBlanks, List.dropWhile_append_of_pos blanks]
  exact skipBlanks_cons dark s

theorem skipTrivia_blanks (blanks : ∀ b ∈ t, Text.isSpaceOrTab b = true) (dark : isDark c = true)
    (bound : Nat)
    (s : Text) : skipTrivia (bound + 1) (t ++ c :: s) = c :: s := by
  obtain ⟨blank, comment, line, carriage⟩ := isDark_iff.mp dark
  simp [skipTrivia, skipBlanks_append blanks blank, comment, Text.afterNewline?_of_ne line carriage]

theorem skipTrivia_dark (dark : isDark c = true) (s : Text) :
    skipTrivia (c :: s).length (c :: s) = c :: s :=
  skipTrivia_blanks (t := []) (fun _ none => nomatch none) dark s.length s

/-- A newline is passed over with the blanks that the next line begins with. -/
theorem skipTrivia_newline (blanks : ∀ b ∈ t, Text.isSpaceOrTab b = true) (dark : isDark c = true)
    (s : Text) :
    skipTrivia ('\n' :: (t ++ c :: s)).length ('\n' :: (t ++ c :: s)) = c :: s := by
  have enough : ('\n' :: (t ++ c :: s)).length = (t ++ s).length + 1 + 1 := by simp [Nat.add_assoc]
  rw [enough]
  exact skipTrivia_blanks blanks dark _ s

theorem afterLine?_dark (dark : isDark c = true) (s : Text) : afterLine? (c :: s) = none := by
  obtain ⟨blank, comment, line, carriage⟩ := isDark_iff.mp dark
  simp [afterLine?, skipBlanks_cons blank, skipComment, comment,
    Text.afterNewline?_of_ne line carriage]

theorem afterLine?_newline (s : Text) : afterLine? ('\n' :: s) = some s := rfl

/-! ## Strings and truth values -/

theorem readValue?_scalar (array : c ≠ '[') (table : c ≠ '\x7b') (s : Text) :
    readValue? (bound + 1) depth (c :: s) = readScalar? (c :: s) := by
  simp [readValue?, array, table]

theorem head_writeString (s : Text) : ∃ q t, writeString s = q :: t ∧ (q = '"' ∨ q = '\'') := by
  unfold writeString writeAs
  cases styleOf s with
  | basic => exact ⟨_, _, rfl, .inl rfl⟩
  | literal => exact ⟨_, _, rfl, .inr rfl⟩
  | longBasic => exact ⟨_, _, rfl, .inl rfl⟩
  | longLiteral => exact ⟨_, _, rfl, .inr rfl⟩

theorem readValue?_string (double : c ≠ '"') (single : c ≠ '\'') (s : String) (rest : Text) :
    readValue? (bound + 1) depth (writeString s.toList ++ c :: rest) = some
      (string s, c :: rest) := by
  have read : readString? (writeString s.toList ++ c :: rest) = some (s.toList, c :: rest) :=
    readString?_writeString (by simpa using double) (by simpa using single) s.toList
  obtain ⟨q, t, written, quote⟩ := head_writeString s.toList
  rw [written, List.cons_append] at read ⊢
  rw [readValue?_scalar, readScalar?, read]
  · simp
  · rcases quote with rfl | rfl <;> decide
  · rcases quote with rfl | rfl <;> decide

theorem readValue?_boolean (b : Bool) (rest : Text) :
    readValue? (bound + 1) depth (Settings.writeBool b ++ rest) = some (boolean b, rest) := by
  cases b <;> rfl

/-! ## Natural numbers -/

theorem moreDigits_line (digits : ∀ c ∈ t, c.isDigit = true) (rest : Text) :
    moreDigits Char.isDigit (t ++ '\n' :: rest) = (t, '\n' :: rest) := by
  induction t with
  | nil =>
    rw [List.nil_append, moreDigits.eq_def]
    rfl
  | cons c t ih =>
    have tail := ih fun d inside => digits d (List.mem_cons_of_mem _ inside)
    rw [List.cons_append, moreDigits.eq_def]
    simp only [digits c List.mem_cons_self, if_true, tail]

/-- A number is zero or begins with another digit. -/
theorem head_toDigits (n : Nat) :
    n = 0 ∨ ∃ d ds, Nat.toDigits 10 n = d :: ds ∧ d ≠ '0' ∧ d.isDigit = true ∧
      ∀ c ∈ ds, c.isDigit = true := by
  obtain ⟨d, ds, whole, digit, digits⟩ := Json.toDigits_eq_cons n
  by_cases zero : d = '0'
  · exact .inl (Text.head_toDigits (by rw [whole, zero]; rfl))
  · exact .inr ⟨d, ds, whole, zero, digit, digits⟩

theorem decimal?_toDigits (n : Nat) (rest : Text) :
    decimal? (Nat.toDigits 10 n ++ '\n' :: rest) = some (Nat.toDigits 10 n, '\n' :: rest) := by
  rcases head_toDigits n with rfl | ⟨d, ds, whole, nonzero, digit, digits⟩
  · rfl
  · simp [whole, decimal?, nonzero, digits?, digit, moreDigits_line digits]

/-- Where digits alone stand before the end of a line, nothing but digits and that end may follow
some of them. -/
theorem fixed?_line {n v : Nat} (digits : ∀ c ∈ t, c.isDigit = true)
    (read : fixed? n (t ++ '\n' :: rest) = some (v, s)) :
    ∃ u, s = u ++ '\n' :: rest ∧ ∀ c ∈ u, c.isDigit = true := by
  unfold fixed? at read
  dsimp only at read
  split at read
  · rename_i taken
    have short : n ≤ t.length := by
      by_contra long
      -- More characters than there are digits would take in the newline, which is none.
      obtain ⟨k, more⟩ : ∃ k, n - t.length = k + 1 := ⟨n - t.length - 1, by omega⟩
      have line : '\n' ∈ (t ++ '\n' :: rest).take n := by
        rw [List.take_append, more]
        simp
      cases List.all_eq_true.mp taken.2 _ line
    obtain ⟨-, rfl⟩ := Prod.mk.inj (Option.some.inj read)
    exact ⟨t.drop n, List.drop_append_of_le_length short, fun c inside =>
      digits c (List.mem_of_mem_drop inside)⟩
  · cases read

theorem after?_line (digits : ∀ c ∈ t, c.isDigit = true) (other : c.isDigit = false)
    (line : c ≠ '\n') (rest : Text) :
    after? c (t ++ '\n' :: rest) = none := by
  cases t with
  | nil => simp [after?, line.symm]
  | cons d t => simp [after?, Text.ne_of_kind (digits d List.mem_cons_self) c other]

/-- Digits alone are no date and no time. -/
theorem readMoment?_line (digits : ∀ c ∈ t, c.isDigit = true) (rest : Text) :
    readMoment? (t ++ '\n' :: rest) = none := by
  have date : afterDate? (t ++ '\n' :: rest) = none := by
    cases year : fixed? 4 (t ++ '\n' :: rest) with
    | none => simp [afterDate?, year]
    | some found =>
      obtain ⟨u, after, digits⟩ := fixed?_line digits year
      simp [afterDate?, year, after, after?_line digits (show '-'.isDigit = false by decide)]
  have time : afterTime? (t ++ '\n' :: rest) = none := by
    cases hour : fixed? 2 (t ++ '\n' :: rest) with
    | none => simp [afterTime?, afterHourMinute?, hour]
    | some found =>
      obtain ⟨u, after, digits⟩ := fixed?_line digits hour
      simp [afterTime?, afterHourMinute?, hour, after,
        after?_line digits (show ':'.isDigit = false by decide)]
  simp [readMoment?, date, time]

theorem sign_toDigits (n : Nat) (rest : Text) : sign (Nat.toDigits 10 n ++ rest) = [] := by
  rcases head_toDigits n with rfl | ⟨d, ds, whole, nonzero, digit, _⟩
  · rfl
  · simp [sign, whole, Text.ne_of_kind digit '+', Text.ne_of_kind digit '-']

/-- Digits alone are no float. -/
theorem readFloat?_toDigits (n : Nat) (rest : Text) :
    readFloat? (Nat.toDigits 10 n ++ '\n' :: rest) = none := by
  have digits := decimal?_toDigits n rest
  have words : ["inf".toList, "nan".toList].findSome?
    (·.isPrefixOf? (Nat.toDigits 10 n ++ '\n' :: rest)) = none := by
    rcases head_toDigits n with rfl | ⟨d, ds, whole, nonzero, digit, _⟩
    · rfl
    · simp [whole, List.isPrefixOf?, (Text.ne_of_kind digit 'i').symm,
        (Text.ne_of_kind digit 'n').symm]
  unfold readFloat?
  simp only [sign_toDigits, List.length_nil, List.drop_zero, words, digits]
  rfl

/-- No letter stands after a leading zero. -/
theorem toDigits_ne_based (line : c ≠ '\n') (n : Nat) (rest s : Text) :
    Nat.toDigits 10 n ++ '\n' :: rest ≠ '0' :: c :: s := by
  intro same
  rcases head_toDigits n with rfl | ⟨d, ds, whole, nonzero, _⟩
  · have second : '\n' :: rest = c :: s := (List.cons.inj same).2
    exact line (List.cons.inj second).1.symm
  · rw [whole] at same
    exact nonzero (List.cons.inj same).1

theorem readInteger?_toDigits {n : Nat} (fits : n ≤ Settings.maxInteger) (rest : Text) :
    readInteger? (Nat.toDigits 10 n ++ '\n' :: rest) = some (integer n, '\n' :: rest) := by
  have word : word? n = some (integer n) := by
    have least : Int64.minValue.toInt = -9223372036854775808 := by decide
    have greatest : Int64.maxValue.toInt = 9223372036854775807 := by decide
    rw [Settings.maxInteger] at fits
    rw [word?, least, greatest, if_pos (by omega)]
  have value := (Json.toDigits_sound n).1
  unfold readInteger?
  dsimp only
  split
  · exact absurd ‹_› (toDigits_ne_based (by decide) n rest _)
  · exact absurd ‹_› (toDigits_ne_based (by decide) n rest _)
  · exact absurd ‹_› (toDigits_ne_based (by decide) n rest _)
  · simp [sign_toDigits, decimal?_toDigits, value, word]

theorem writeWord_eq_toDigits (n : UInt64) : Settings.writeWord n = Nat.toDigits 10 n.toNat :=
  String.toList_ofList

theorem head_writeWord (n : UInt64) :
    ∃ d ds, Settings.writeWord n = d :: ds ∧ d.isDigit = true := by
  obtain ⟨d, ds, whole, digit, _⟩ := Json.toDigits_eq_cons n.toNat
  exact ⟨d, ds, (writeWord_eq_toDigits n).trans whole, digit⟩

theorem readValue?_word {n : UInt64} (fits : n.toNat ≤ Settings.maxInteger) (rest : Text) :
    readValue? (bound + 1) depth (Settings.writeWord n ++ '\n' :: rest) = some
      (integer n.toNat, '\n' :: rest) := by
  have number : readNumber? (Settings.writeWord n ++ '\n' :: rest) =
    some (integer n.toNat, '\n' :: rest) := by
    rw [writeWord_eq_toDigits, readNumber?, readMoment?_line (Json.digits_toDigits _),
      readFloat?_toDigits]
    exact readInteger?_toDigits fits rest
  obtain ⟨d, ds, whole, digit⟩ := head_writeWord n
  rw [whole, List.cons_append] at number ⊢
  rw [readValue?_scalar (Text.ne_of_kind digit '[') (Text.ne_of_kind digit '\x7b')]
  simp [readScalar?, readString?, readKeyString?, keywords, List.isPrefixOf?, number,
    Text.ne_of_kind digit '"', Text.ne_of_kind digit '\'', (Text.ne_of_kind digit 't').symm,
    (Text.ne_of_kind digit 'f').symm]

/-! ## Arrays of strings -/

variable {items : List Toml}

theorem readValue?_array (skipped : skipTrivia s.length s = c :: t) (inner : c ≠ ']')
    (read : readItems? bound depth (c :: t) = some (items, rest)) :
    readValue? (bound + 1) (depth + 1) ('[' :: s) = some (array items, rest) := by
  simp [readValue?, skipped, inner, read]

theorem isDark_head_writeString (s : Text) :
    ∃ q t, writeString s = q :: t ∧ isDark q = true ∧ q ≠ ']' := by
  obtain ⟨q, t, written, rfl | rfl⟩ := head_writeString s
  · exact ⟨_, t, written, by decide, by decide⟩
  · exact ⟨_, t, written, by decide, by decide⟩

theorem readItems?_last (s : String) (rest : Text) :
    readItems? (bound + 2) depth (writeString s.toList ++ ']' :: rest) = some
      ([string s], rest) := by
  rw [readItems?, readValue?_string (by decide) (by decide)]
  simp only [Option.bind_eq_bind, Option.bind_some,
    skipTrivia_dark (show isDark ']' = true by decide)]

/-- The lines of an array after its first item, and the bracket that closes it. -/
def moreLines (items : List String) (rest : Text) : Text :=
  items.flatMap (fun s => "    ".toList ++ writeString s.toList ++ ",\n".toList) ++ ']' :: rest

theorem moreLines_cons (s : String) (items : List String) (rest : Text) :
    moreLines (s :: items) rest = "    ".toList ++
      (writeString s.toList ++ ',' :: '\n' :: moreLines items rest) := by
  simp [moreLines]

theorem isSpaceOrTab_indentation : ∀ b ∈ "    ".toList, Text.isSpaceOrTab b = true := by
  decide

/-- Items on a line each, by induction on the items; a comma stands after the last one too. -/
theorem readItems?_lines (s : String) (items : List String) (enough : items.length < bound)
    (rest : Text) :
    readItems? (bound + 1) depth (writeString s.toList ++ ',' :: '\n' :: moreLines items rest) =
      some ((s :: items).map string, rest) := by
  induction items generalizing s bound with
  | nil =>
    obtain ⟨bound, rfl⟩ := Nat.exists_eq_succ_of_ne_zero (Nat.ne_zero_of_lt enough)
    have closing := skipTrivia_newline (t := []) (fun _ none => nomatch none)
      (show isDark ']' = true by decide) rest
    rw [List.nil_append] at closing
    rw [readItems?, readValue?_string (by decide) (by decide)]
    simp only [Option.bind_eq_bind, Option.bind_some,
      skipTrivia_dark (show isDark ',' = true by decide)]
    rw [moreLines, List.flatMap_nil, List.nil_append, closing]
    rfl
  | cons next items ih =>
    obtain ⟨bound, rfl⟩ := Nat.exists_eq_succ_of_ne_zero (Nat.ne_zero_of_lt enough)
    have tail := ih next (Nat.lt_of_succ_lt_succ enough)
    obtain ⟨q, t, written, dark, inner⟩ := isDark_head_writeString next.toList
    rw [written] at tail
    have line := skipTrivia_newline isSpaceOrTab_indentation dark
      (t ++ ',' :: '\n' :: moreLines items rest)
    rw [readItems?, readValue?_string (by decide) (by decide)]
    simp only [Option.bind_eq_bind, Option.bind_some,
      skipTrivia_dark (show isDark ',' = true by decide)]
    rw [moreLines_cons, written, List.cons_append, line]
    rw [List.cons_append] at tail
    simp [inner, tail]

theorem writeStrings_lines (s next : String) (items : List String) (rest : Text) :
    Settings.writeStrings (s :: next :: items) ++ rest = '[' :: '\n' :: moreLines
      (s :: next :: items) rest := by
  simp [Settings.writeStrings, moreLines]

theorem length_le_moreLines (items : List String) (rest : Text) :
    items.length ≤ (moreLines items rest).length := by
  induction items with
  | nil => exact Nat.zero_le _
  | cons s items ih =>
    simp only [moreLines_cons, List.length_append, List.length_cons]
    omega

theorem length_lt_writeStrings (items : List String) (rest : Text) :
    items.length < (Settings.writeStrings items ++ rest).length := by
  match items with
  | [] => simp [Settings.writeStrings]
  | [s] =>
    simp only [Settings.writeStrings, List.length_append, List.length_cons]
    omega
  | s :: next :: items =>
    have short := length_le_moreLines (s :: next :: items) rest
    rw [writeStrings_lines]
    simp only [List.length_cons] at short ⊢
    omega

/-- An array is read back however its items lie. -/
theorem readValue?_strings (items : List String) (enough : items.length + 2 ≤ bound) (rest : Text) :
    readValue? (bound + 1) (depth + 1) (Settings.writeStrings items ++ rest) =
      some (array (items.map string), rest) := by
  obtain ⟨bound, rfl⟩ := Nat.exists_eq_add_of_le' (Nat.le_of_add_left_le enough)
  match items with
  | [] =>
    have closing := skipTrivia_dark (show isDark ']' = true by decide) rest
    simp only [Settings.writeStrings, List.cons_append, List.nil_append, readValue?, closing,
      List.map_nil]
  | [s] =>
    have read := @readItems?_last bound depth s rest
    have whole : Settings.writeStrings [s] ++ rest =
      '[' :: (writeString s.toList ++ ']' :: rest) := by
      simp [Settings.writeStrings]
    obtain ⟨q, t, written, dark, inner⟩ := isDark_head_writeString s.toList
    rw [whole, written]
    rw [written] at read
    exact readValue?_array (skipTrivia_dark dark _) inner read
  | s :: next :: items =>
    have read := @readItems?_lines (bound + 1) depth s (next :: items)
      (by simp only [List.length_cons] at enough ⊢; omega) rest
    obtain ⟨q, t, written, dark, inner⟩ := isDark_head_writeString s.toList
    rw [writeStrings_lines, moreLines_cons, written]
    rw [written] at read
    exact readValue?_array (skipTrivia_newline isSpaceOrTab_indentation dark _) inner read

end MarkupActions.Toml
