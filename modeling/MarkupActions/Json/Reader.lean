import MarkupActions.Json.Basic
import MarkupActions.Text.Digit

/-!
# Reading JSON

The grammar of RFC 8259. Each reader takes what it reads off the head of a text and returns the
rest. How deep values may be nested is bounded by the length of the text, so the bound never shows.
-/

namespace MarkupActions.Json

/-- White space of the format: blank, tab, line feed, carriage return. -/
def isSpace (c : Char) : Bool := c == ' ' || c == '\t' || c == '\n' || c == '\r'

def skipSpace (s : Text) : Text := s.dropWhile isSpace

/-- The character of one or two UTF-16 units after a `\u`. Half a pair is refused. -/
def readUnicode? (s : Text) : Option (Char × Text) := do
  let (unit, s) ← Text.hexNumber? 4 s
  if 0xDC00 ≤ unit ∧ unit < 0xE000 then none
  else if 0xD800 ≤ unit ∧ unit < 0xDC00 then
    match s with
    | '\\' :: 'u' :: s =>
      let (low, s) ← Text.hexNumber? 4 s
      if 0xDC00 ≤ low ∧ low < 0xE000 then
        some (Char.ofNat (0x10000 + (unit - 0xD800) * 1024 + (low - 0xDC00)), s)
      else none
    | _ => none
  else some (Char.ofNat unit, s)

def escapes : List (Char × Char) :=
  [('"', '"'), ('\\', '\\'), ('/', '/'), ('b', '\x08'), ('f', '\x0c'), ('n', '\n'), ('r', '\r'),
    ('t', '\t')]

/-- The character at the head of the inside of a string. -/
def readChar? : Text → Option (Char × Text)
  | '\\' :: 'u' :: s => readUnicode? s
  | '\\' :: c :: s => (escapes.lookup c).map (·, s)
  | c :: s => if c = '"' ∨ c = '\\' ∨ c.val < 0x20 then none else some (c, s)
  | [] => none

/-- The inside of a string and its closing quote; at most `bound` characters. -/
def readString? : (bound : Nat) → Text → Option (Text × Text)
  | _, '"' :: s => some ([], s)
  | 0, _ => none
  | bound + 1, s => do
    let (c, s) ← readChar? s
    let (rest, s) ← readString? bound s
    some (c :: rest, s)

/-- Digits after a mark, if the mark is there; none where digits are missing. -/
def readFraction? : Text → Option (Text × Text)
  | '.' :: s =>
    let digits := s.takeWhile Char.isDigit
    if digits.isEmpty then none else some ('.' :: digits, s.drop digits.length)
  | s => some ([], s)

def readExponent? (s : Text) : Option (Text × Text) :=
  match s with
  | [] => some ([], s)
  | e :: rest =>
    if e ≠ 'e' ∧ e ≠ 'E' then some ([], s)
    else
      let sign := (rest.take 1).filter fun c => c == '+' || c == '-'
      let digits := (rest.drop sign.length).takeWhile Char.isDigit
      if digits.isEmpty then none
      else some (e :: sign ++ digits, rest.drop (sign.length + digits.length))

/-- A number. A zero with a sign is no integer. -/
def readNumber? (s : Text) : Option (Json × Text) := do
  let sign := (s.take 1).filter (· == '-')
  let digits := (s.drop sign.length).takeWhile Char.isDigit
  if digits.isEmpty || (digits.head? == some '0' && digits.length ≠ 1) then none
  else
    let (point, rest) ← readFraction? (s.drop (sign.length + digits.length))
    let (exponent, rest) ← readExponent? rest
    if point.isEmpty && exponent.isEmpty && (sign.isEmpty || digits ≠ ['0']) then
      let n : Int := Text.numberOf 10 digits
      some (integer (if sign.isEmpty then n else -n), rest)
    else some (fraction (String.ofList (sign ++ digits ++ point ++ exponent)), rest)

def words : List (Text × Json) := [("null".toList, null), ("true".toList, bool true),
      ("false".toList, bool false)]

def readScalar? (s : Text) : Option (Json × Text) :=
  match s with
  | '"' :: rest =>
    (readString? rest.length rest).map fun (value, rest) => (string (String.ofList value), rest)
  | _ =>
    match words.findSome? fun (word, value) => (word.isPrefixOf? s).map (value, ·) with
    | some found => some found
    | none => readNumber? s

mutual

/-- A value; `bound` limits the nesting. -/
def readValue? : (bound : Nat) → Text → Option (Json × Text)
  | 0, _ => none
  | bound + 1, s =>
    match skipSpace s with
    | '[' :: s =>
      match skipSpace s with
      | ']' :: s => some (array [], s)
      | s => (readItems? bound s).map fun (items, s) => (array items, s)
    | '\x7b' :: s =>
      match skipSpace s with
      | '\x7d' :: s => some (object [], s)
      | s => (readMembers? bound s).map fun (members, s) => (object members, s)
    | s => readScalar? s

/-- One item or more, and the bracket that closes the array. -/
def readItems? : (bound : Nat) → Text → Option (List Json × Text)
  | 0, _ => none
  | bound + 1, s => do
    let (item, s) ← readValue? bound s
    match skipSpace s with
    | ']' :: s => some ([item], s)
    | ',' :: s =>
      let (items, s) ← readItems? bound s
      some (item :: items, s)
    | _ => none

/-- One member or more, and the brace that closes the object. -/
def readMembers? : (bound : Nat) → Text → Option (List (String × Json) × Text)
  | 0, _ => none
  | bound + 1, s => do
    match skipSpace s with
    | '"' :: s =>
      let (name, s) ← readString? s.length s
      match skipSpace s with
      | ':' :: s =>
        let (value, s) ← readValue? bound s
        let member := (String.ofList name, value)
        match skipSpace s with
        | '\x7d' :: s => some ([member], s)
        | ',' :: s =>
          let (members, s) ← readMembers? bound s
          some (member :: members, s)
        | _ => none
      | _ => none
    | _ => none

end

def read? (s : Text) : Option Json := do
  let (value, rest) ← readValue? (2 * s.length + 2) s
  if (skipSpace rest).isEmpty then some value else none

def parse? (s : String) : Option Json := read? s.toList

end MarkupActions.Json
