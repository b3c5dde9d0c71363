import Mathlib.Data.List.Basic
import MarkupActions.Json.Reader
import MarkupActions.Json.Writer
import MarkupActions.Proofs.Attributes

/-!
# JSON texts

A value is read back from the text that it is written as, whatever characters its strings are made
of and however large its integers are. Nothing is claimed of numbers with a fraction or an exponent,
which are kept as texts.
-/

namespace MarkupActions

namespace Text

/-- A character of some kind is none of another kind. -/
theorem ne_of_kind {kind : Char → Bool} {c : Char} (belongs : kind c = true) (other : Char)
    (apart : kind other = false := by decide) : c ≠ other := by
  rintro rfl
  rw [belongs] at apart
  cases apart

theorem digitValue?_hexDigit : ∀ n < 16, digitValue? (hexDigit n) = some n := by
  decide

/-- Two digits after two zeros, as control characters are written. -/
theorem hexNumber?_pair {x y : Char} {a b : Nat} (high : digitValue? x = some a)
    (low : digitValue? y = some b)
    (s : Text) : hexNumber? 4 ('0' :: '0' :: x :: y :: s) = some (16 * a + b, s) := by
  have zero : digitValue? '0' = some 0 := by decide
  simp [hexNumber?, isHexDigit, numberOf, high, low, zero]

theorem hexNumber?_byte {a b : Nat} (first : a < 16) (second : b < 16) (s : Text) :
    hexNumber? 4 ('0' :: '0' :: hexDigit a :: hexDigit b :: s) = some (16 * a + b, s) :=
  hexNumber?_pair (digitValue?_hexDigit a first) (digitValue?_hexDigit b second) s

/-- No number but zero is written with a zero in front. -/
theorem head_toDigits {n : Nat} (zero : (Nat.toDigits 10 n).head? = some '0') : n = 0 := by
  induction n using Nat.strong_induction_on with
  | _ n ih =>
    by_cases small : n < 10
    · have single : ∀ n < 10, [Nat.digitChar n].head? = some '0' → n = 0 := by decide
      rw [Nat.toDigits_of_lt_base small] at zero
      exact single n small zero
    · rw [Nat.toDigits_of_base_le (by decide) (by omega),
        List.head?_append_of_ne_nil _ Nat.toDigits_ne_nil] at zero
      have none := ih (n / 10) (by omega) zero
      omega

end Text

namespace Json

/-! ## Strings -/

theorem letterEscapes_inv {c letter : Char} (found : letterEscapes.lookup c = some letter) :
    letter ≠ 'u' ∧ escapes.lookup letter = some c := by
  have all : ∀ escape ∈ letterEscapes, escape.2 ≠ 'u' ∧
    escapes.lookup escape.2 = some escape.1 := by decide
  obtain ⟨front, back, whole, _⟩ := List.lookup_eq_some_iff.mp found
  exact all (c, letter) (by simp [whole])

/-- A character is read back from what is written of it. -/
theorem readChar?_writeChar (c : Char) (s : Text) : readChar? (writeChar c ++ s) = some (c, s) := by
  unfold writeChar
  split
  · rename_i marked
    rcases marked with rfl | rfl <;> rfl
  · rename_i unmarked
    obtain ⟨unquoted, unescaped⟩ := not_or.mp unmarked
    split
    · rename_i letter found
      obtain ⟨_, back⟩ := letterEscapes_inv found
      simp [readChar?, back]
    · split
      · rename_i control
        have small : c.toNat < 32 := control
        have back : Char.ofNat (16 * (c.toNat / 16) + c.toNat % 16) = c := by
          rw [Nat.div_add_mod]
          exact Char.ofNat_toNat c
        have digits := Text.hexNumber?_byte (show c.toNat / 16 < 16 by omega)
          (show c.toNat % 16 < 16 by omega) s
        have low : ¬ (0xDC00 ≤ 16 * (c.toNat / 16) + c.toNat % 16) := by omega
        have high : ¬ (0xD800 ≤ 16 * (c.toNat / 16) + c.toNat % 16) := by omega
        simp [readChar?, readUnicode?, digits, back, low, high]
      · rename_i plain
        simp [readChar?, unquoted, unescaped, plain]

/-- A quote that is written is not taken for the end of the string. -/
theorem head_writeChar (c : Char) : ∃ d s, writeChar c = d :: s ∧ d ≠ '"' := by
  unfold writeChar
  split
  · exact ⟨_, _, rfl, by decide⟩
  · rename_i unmarked
    split
    · exact ⟨_, _, rfl, by decide⟩
    · split
      · exact ⟨_, _, rfl, by decide⟩
      · exact ⟨_, _, rfl, fun same => unmarked (.inl same)⟩

theorem length_le_written (s : Text) : s.length ≤ (s.flatMap writeChar).length := by
  induction s with
  | nil => exact Nat.le_refl 0
  | cons c s ih =>
    obtain ⟨d, t, written, _⟩ := head_writeChar c
    simp only [List.flatMap_cons, List.length_append, List.length_cons, written]
    omega

theorem readString?_written {s : Text} {bound : Nat} (enough : s.length ≤ bound) (rest : Text) :
    readString? bound (s.flatMap writeChar ++ '"' :: rest) = some (s, rest) := by
  induction s generalizing bound with
  | nil =>
    cases bound <;> rfl
  | cons c s ih =>
    obtain ⟨bound, rfl⟩ := Nat.exists_eq_succ_of_ne_zero (show bound ≠ 0 by simp at enough; omega)
    obtain ⟨d, t, written, other⟩ := head_writeChar c
    have char := readChar?_writeChar c (s.flatMap writeChar ++ '"' :: rest)
    have string := ih (Nat.le_of_succ_le_succ enough)
    rw [written, List.cons_append] at char
    simp [written, readString?, other, char, string]

theorem writeString_append (s : String) (rest : Text) :
    writeString s ++ rest = '"' :: (s.toList.flatMap writeChar ++ '"' :: rest) := by
  simp [writeString]

/-- The bound that the rest of a text gives is enough for every string in it. -/
theorem readString?_name (s : String) (rest : Text) :
    readString? (s.toList.flatMap writeChar ++ '"' :: rest).length
      (s.toList.flatMap writeChar ++ '"' :: rest) =
      some (s.toList, rest) := by
  refine readString?_written ?_ rest
  have short := length_le_written s.toList
  simp only [List.length_append]
  omega

/-- A string is read back, whatever follows it. -/
theorem readScalar?_string (s : String) (rest : Text) :
    readScalar? (writeString s ++ rest) = some (string s, rest) := by
  rw [writeString_append, readScalar?, readString?_name, Option.map_some]
  simp

/-! ## Numbers -/

def continuesNumber (c : Char) : Bool := c.isDigit || c == '.' || c == 'e' || c == 'E'

/-- What follows a number does not go on with it. -/
def Stops (rest : Text) : Prop := rest.head?.any continuesNumber = false

theorem readFraction?_stop {rest : Text} (stops : Stops rest) :
    readFraction? rest = some ([], rest) := by
  unfold readFraction?
  split
  · cases stops
  · rfl

theorem readExponent?_stop {rest : Text} (stops : Stops rest) :
    readExponent? rest = some ([], rest) := by
  cases rest with
  | nil => rfl
  | cons e rest =>
    have other : e ≠ 'e' ∧ e ≠ 'E' := by
      constructor
      · rintro rfl
        cases stops
      · rintro rfl
        cases stops
    simp [readExponent?, other]

theorem takeWhile_toDigits (n : Nat) {rest : Text} (stops : Stops rest) :
    (Nat.toDigits 10 n ++ rest).takeWhile Char.isDigit = Nat.toDigits 10 n := by
  refine Text.takeWhile_exact (fun c inside =>
    Nat.isDigit_of_mem_toDigits (by decide) (by decide) inside) ?_
  cases rest with
  | nil => rfl
  | cons c rest =>
    have : (c.isDigit || c == '.' || c == 'e' || c == 'E') = false := stops
    simp_all

theorem digits_toDigits (n : Nat) : ∀ c ∈ Nat.toDigits 10 n, c.isDigit = true :=
  fun _ inside => Nat.isDigit_of_mem_toDigits (by decide) (by decide) inside

theorem toDigits_eq_cons (n : Nat) :
    ∃ d ds, Nat.toDigits 10 n = d :: ds ∧ d.isDigit = true ∧ ∀ c ∈ ds, c.isDigit = true := by
  obtain ⟨d, ds, whole⟩ := List.exists_cons_of_ne_nil (Nat.toDigits_ne_nil (n := n) (b := 10))
  have digits := digits_toDigits n
  rw [whole, List.forall_mem_cons] at digits
  exact ⟨d, ds, whole, digits⟩

/-- The digits of a number have its value, and no zero stands in front unless it stands alone. -/
theorem toDigits_sound (n : Nat) :
    Text.numberOf 10 (Nat.toDigits 10 n) = n ∧ (Nat.toDigits 10 n).isEmpty = false ∧
      ((Nat.toDigits 10 n).head? = some '0' → (Nat.toDigits 10 n).length = 1) := by
  refine ⟨?_, by simp, fun zero => ?_⟩
  · rw [Text.numberOf_digits (digits_toDigits n), Nat.ofDigitChars_ten_toDigits]
  · rw [Text.head_toDigits zero]
    rfl

theorem readNumber?_toDigits (n : Nat) {rest : Text} (stops : Stops rest) :
    readNumber? (Nat.toDigits 10 n ++ rest) = some (integer n, rest) := by
  obtain ⟨value, more, lead⟩ := toDigits_sound n
  have unsigned : ((Nat.toDigits 10 n ++ rest).take 1).filter (· == '-') = [] := by
    obtain ⟨d, ds, whole, digit, _⟩ := toDigits_eq_cons n
    simp [whole, Text.ne_of_kind digit '-']
  simpa [readNumber?, unsigned, takeWhile_toDigits n stops, more, value, readFraction?_stop stops,
    readExponent?_stop stops] using lead

theorem readNumber?_negative (n : Nat) {rest : Text} (stops : Stops rest) :
    readNumber? ('-' :: (Nat.toDigits 10 (n + 1) ++ rest)) = some (integer (.negSucc n), rest) := by
  obtain ⟨value, more, lead⟩ := toDigits_sound (n + 1)
  have nonzero : Nat.toDigits 10 (n + 1) ≠ ['0'] := fun same => by
    have zero := Text.head_toDigits (n := n + 1) (by rw [same]; rfl)
    omega
  have after : ('-' :: (Nat.toDigits 10 (n + 1) ++ rest)).drop
    (1 + (Nat.toDigits 10 (n + 1)).length) = rest := by
    rw [Nat.add_comm, List.drop_succ_cons, List.drop_left]
  simpa [readNumber?, takeWhile_toDigits (n + 1) stops, more, after, value,
    readFraction?_stop stops, readExponent?_stop stops, nonzero, Int.negSucc_eq] using lead

theorem readNumber?_written (n : Int) {rest : Text} (stops : Stops rest) :
    readNumber? (writeInteger n ++ rest) = some (integer n, rest) := by
  cases n with
  | ofNat m =>
    have written : writeInteger (.ofNat m) = Nat.toDigits 10 m := String.toList_ofList
    rw [written]
    exact readNumber?_toDigits m stops
  | negSucc m =>
    have written : writeInteger (.negSucc m) = '-' :: Nat.toDigits 10 (m + 1) := by
      have text : toString (Int.negSucc m) = "-" ++ String.ofList (Nat.toDigits 10 (m + 1)) := rfl
      simp [writeInteger, text]
    rw [written]
    exact readNumber?_negative m stops

/-! ## Values -/

mutual

def isWhole : Json → Bool
  | fraction _ => false
  | array items => itemsWhole items
  | object members => membersWhole members
  | _ => true

def itemsWhole : List Json → Bool
  | [] => true
  | item :: items => isWhole item && itemsWhole items

def membersWhole : List (String × Json) → Bool
  | [] => true
  | (_, value) :: members => isWhole value && membersWhole members

end

theorem skipSpace_cons {c : Char} (dark : isSpace c = false) (s : Text) :
    skipSpace (c :: s) = c :: s := by
  simp [skipSpace, dark]

def startsInteger (c : Char) : Bool := c.isDigit || c == '-'

theorem head_writeInteger (n : Int) : ∃ c s, writeInteger n = c :: s ∧ startsInteger c = true := by
  cases n with
  | ofNat m =>
    obtain ⟨c, s, whole, digit, _⟩ := toDigits_eq_cons m
    exact ⟨c, s, String.toList_ofList.trans whole, by simp [startsInteger, digit]⟩
  | negSucc m =>
    have text : toString (Int.negSucc m) = "-" ++ String.ofList (Nat.toDigits 10 (m + 1)) := rfl
    exact ⟨'-', Nat.toDigits 10 (m + 1), by simp [writeInteger, text], by decide⟩

theorem dark_of_startsInteger {c : Char} (starts : startsInteger c = true) : isSpace c = false := by
  simp [isSpace, Text.ne_of_kind starts ' ', Text.ne_of_kind starts '\t',
    Text.ne_of_kind starts '\n', Text.ne_of_kind starts '\r']

theorem readScalar?_integer (n : Int) {rest : Text} (stops : Stops rest) :
    readScalar? (writeInteger n ++ rest) = some (integer n, rest) := by
  obtain ⟨c, s, whole, starts⟩ := head_writeInteger n
  have number := readNumber?_written n stops
  have quote := Text.ne_of_kind starts '"'
  have null := (Text.ne_of_kind starts 'n').symm
  have yes := (Text.ne_of_kind starts 't').symm
  have no := (Text.ne_of_kind starts 'f').symm
  rw [whole] at number ⊢
  simpa [readScalar?, words, List.isPrefixOf?, quote, null, yes, no] using number

/-! How one step of each reader goes. -/

variable {bound : Nat} {s t rest : Text}

theorem readValue?_scalar {c : Char} (dark : isSpace c = false) (array : c ≠ '[')
    (object : c ≠ '\x7b') :
    readValue? (bound + 1) (c :: s) = readScalar? (c :: s) := by
  simp [readValue?, skipSpace_cons dark, array, object]

theorem readValue?_array {c : Char} {items : List Json} (dark : isSpace c = false) (inner : c ≠ ']')
    (read : readItems? bound (c :: s) = some (items, rest)) :
    readValue? (bound + 1) ('[' :: c :: s) = some (array items, rest) := by
  simp [readValue?, skipSpace_cons (show isSpace '[' = false by decide), skipSpace_cons dark, inner,
    read]

theorem readValue?_object {members : List (String × Json)}
    (read : readMembers? bound ('"' :: s) = some (members, rest)) :
    readValue? (bound + 1) ('\x7b' :: '"' :: s) = some (object members, rest) := by
  simp [readValue?, skipSpace_cons (show isSpace '\x7b' = false by decide),
    skipSpace_cons (show isSpace '"' = false by decide), read]

theorem readItems?_last {item : Json} (read : readValue? bound s = some (item, ']' :: rest)) :
    readItems? (bound + 1) s = some ([item], rest) := by
  simp [readItems?, read, skipSpace_cons (show isSpace ']' = false by decide)]

theorem readItems?_more {item : Json} {items : List Json}
    (read : readValue? bound s = some (item, ',' :: t))
    (more : readItems? bound t = some (items, rest)) :
    readItems? (bound + 1) s = some (item :: items, rest) := by
  simp [readItems?, read, skipSpace_cons (show isSpace ',' = false by decide), more]

theorem readMembers?_last {name u : Text} {value : Json}
    (key : readString? s.length s = some (name, ':' :: u))
    (read : readValue? bound u = some (value, '\x7d' :: rest)) :
    readMembers? (bound + 1) ('"' :: s) = some ([(String.ofList name, value)], rest) := by
  simp [readMembers?, skipSpace_cons (show isSpace '"' = false by decide), key,
    skipSpace_cons (show isSpace ':' = false by decide), read,
      skipSpace_cons (show isSpace '\x7d' = false by decide)]

theorem readMembers?_more {name u : Text} {value : Json} {members : List (String × Json)}
    (key : readString? s.length s = some (name, ':' :: u))
    (read : readValue? bound u = some (value, ',' :: t))
    (more : readMembers? bound t = some (members, rest)) :
    readMembers? (bound + 1) ('"' :: s) = some ((String.ofList name, value) :: members, rest) := by
  simp [readMembers?, skipSpace_cons (show isSpace '"' = false by decide), key,
    skipSpace_cons (show isSpace ':' = false by decide), read,
      skipSpace_cons (show isSpace ',' = false by decide), more]

/-- What is written begins with no white space and with no bracket that would end an array. -/
theorem head_write {j : Json} (whole : j.isWhole = true) :
    ∃ c s, write j = c :: s ∧ isSpace c = false ∧ c ≠ ']' := by
  cases j with
  | null => exact ⟨_, _, rfl, by decide, by decide⟩
  | bool value => cases value <;> exact ⟨_, _, rfl, by decide, by decide⟩
  | integer n =>
    obtain ⟨c, s, written, starts⟩ := head_writeInteger n
    exact ⟨c, s, written, dark_of_startsInteger starts, Text.ne_of_kind starts ']'⟩
  | fraction written => cases whole
  | string s => exact ⟨_, _, rfl, by decide, by decide⟩
  | array items => cases items <;> exact ⟨_, _, rfl, by decide, by decide⟩
  | object members => cases members <;> exact ⟨_, _, rfl, by decide, by decide⟩

def memberText (name : String) (value : Json) (rest : Text) : Text :=
  writeString name ++ ':' :: (write value ++ rest)

theorem write_array (item : Json) (items : List Json) (rest : Text) :
    write (array (item :: items)) ++ rest = '[' :: (write item ++ (writeItems items ++ rest)) := by
  simp [write]

theorem write_object (name : String) (value : Json) (members : List (String × Json)) (rest : Text) :
    write (object ((name, value) :: members)) ++ rest =
      '\x7b' :: memberText name value (writeMembers members ++ rest) := by
  simp [write, memberText]

theorem writeItems_cons (item : Json) (items : List Json) (rest : Text) :
    writeItems (item :: items) ++ rest = ',' :: (write item ++ (writeItems items ++ rest)) := by
  simp [writeItems]

theorem writeMembers_cons (name : String) (value : Json) (members : List (String × Json))
    (rest : Text) :
    writeMembers ((name, value) :: members) ++ rest = ',' :: memberText name value
      (writeMembers members ++ rest) := by
  simp [writeMembers, memberText]

theorem stops_writeItems (items : List Json) (rest : Text) : Stops (writeItems items ++ rest) := by
  cases items with
  | nil => exact show continuesNumber ']' = false by decide
  | cons item items => exact show continuesNumber ',' = false by decide

theorem stops_writeMembers (members : List (String × Json)) (rest : Text) :
    Stops (writeMembers members ++ rest) := by
  cases members with
  | nil => exact show continuesNumber '\x7d' = false by decide
  | cons member members => exact show continuesNumber ',' = false by decide

/-- The bound is enough for every value whose text is no longer. -/
def ReadsValues (bound : Nat) : Prop :=
  ∀ j rest, isWhole j = true → Stops rest → (write j).length ≤ bound →
    readValue? bound (write j ++ rest) = some (j, rest)

def ReadsItems (bound : Nat) : Prop :=
  ∀ item items rest, isWhole item = true → itemsWhole items = true →
    (write item).length + (writeItems items).length ≤ bound →
    readItems? bound (write item ++ (writeItems items ++ rest)) = some (item :: items, rest)

def ReadsMembers (bound : Nat) : Prop :=
  ∀ name value members rest, isWhole value = true → membersWhole members = true →
    (write value).length + (writeMembers members).length < bound →
    readMembers? bound (memberText name value (writeMembers members ++ rest)) =
      some ((name, value) :: members, rest)

theorem readsValues_succ (items : ReadsItems bound) (members : ReadsMembers bound) :
    ReadsValues (bound + 1) := by
  intro j rest whole stops enough
  cases j with
  | null => rfl
  | bool value => cases value <;> rfl
  | integer n =>
    obtain ⟨c, s, written, starts⟩ := head_writeInteger n
    rw [write, ← readScalar?_integer n stops, written]
    exact readValue?_scalar (dark_of_startsInteger starts) (Text.ne_of_kind starts '[')
      (Text.ne_of_kind starts '\x7b')
  | fraction written => cases whole
  | string s =>
    rw [write, ← readScalar?_string s rest]
    exact readValue?_scalar (by decide) (by decide) (by decide)
  | array list =>
    cases list with
    | nil => rfl
    | cons item list =>
      simp only [isWhole, itemsWhole, Bool.and_eq_true] at whole
      obtain ⟨c, t, written, dark, inner⟩ := head_write whole.1
      have read := items item list rest whole.1 whole.2
        (by simp only [write, List.length_cons, List.length_append] at enough; omega)
      rw [write_array, written]
      rw [written] at read
      exact readValue?_array dark inner read
  | object list =>
    cases list with
    | nil => rfl
    | cons member list =>
      obtain ⟨name, value⟩ := member
      simp only [isWhole, membersWhole, Bool.and_eq_true] at whole
      have read := members name value list rest whole.1 whole.2
        (by simp only [write, List.length_cons, List.length_append] at enough; omega)
      rw [write_object]
      exact readValue?_object read

theorem readsItems_succ (values : ReadsValues bound) (later : ReadsItems bound) :
    ReadsItems (bound + 1) := by
  intro item items rest whole wholes enough
  have one : 0 < (writeItems items).length := by cases items <;> exact Nat.succ_pos _
  have read := values item (writeItems items ++ rest) whole (stops_writeItems items rest) (by omega)
  cases items with
  | nil => exact readItems?_last read
  | cons next items =>
    simp only [itemsWhole, Bool.and_eq_true] at wholes
    have more := later next items rest wholes.1 wholes.2
      (by simp only [writeItems, List.length_append, List.length_cons] at enough; omega)
    rw [writeItems_cons] at read ⊢
    exact readItems?_more read more

theorem readsMembers_succ (values : ReadsValues bound) (later : ReadsMembers bound) :
    ReadsMembers (bound + 1) := by
  intro name value members rest whole wholes enough
  have read := values value (writeMembers members ++ rest) whole (stops_writeMembers members rest)
    (by omega)
  have key := readString?_name name (':' :: (write value ++ (writeMembers members ++ rest)))
  have back : String.ofList name.toList = name := String.ofList_toList
  rw [memberText, writeString_append]
  cases members with
  | nil =>
    have last := readMembers?_last key read
    rwa [back] at last
  | cons next members =>
    simp only [membersWhole, Bool.and_eq_true] at wholes
    have more := later next.1 next.2 members rest wholes.1 wholes.2
      (by simp only [writeMembers, List.length_append, List.length_cons] at enough; omega)
    rw [writeMembers_cons] at read key ⊢
    have all := readMembers?_more key read more
    rwa [back] at all

/-- What the readers do with a text that is written, by induction on the bound that they share. -/
theorem reads (bound : Nat) : ReadsValues bound ∧ ReadsItems bound ∧ ReadsMembers bound := by
  induction bound with
  | zero =>
    refine ⟨fun j rest whole stops enough => ?_, fun item items rest whole wholes enough => ?_,
      fun name value members rest whole wholes enough => ?_⟩
    · obtain ⟨c, s, written, _⟩ := head_write whole
      simp [written] at enough
    · obtain ⟨c, s, written, _⟩ := head_write whole
      simp [written] at enough
    · omega
  | succ bound ih =>
    obtain ⟨values, items, members⟩ := ih
    exact ⟨readsValues_succ items members, readsItems_succ values items,
      readsMembers_succ values members⟩

/-- A value whose numbers are integers is what its text is read as. -/
theorem read?_write {j : Json} (whole : j.isWhole = true) : read? (write j) = some j := by
  have read := (reads (2 * (write j).length + 2)).1 j [] whole rfl (by omega)
  rw [List.append_nil] at read
  simp [read?, read, skipSpace]

theorem parse?_compact {j : Json} (whole : j.isWhole = true) : parse? j.compact = some j := by
  rw [parse?, compact, String.toList_ofList, read?_write whole]

end Json

end MarkupActions
