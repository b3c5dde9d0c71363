import MarkupActions.Text.Digit

/-!
# Strings in TOML

Four ways to write one: between single or double quotes, on one line or on many. Double quotes allow
escapes, single quotes do not. The writer takes the first way that needs no escape, in an order of
its own, and escapes only where all of them would fail.
-/

namespace MarkupActions.Toml

inductive QuoteStyle where
  | basic
  | literal
  | longBasic
  | longLiteral
deriving DecidableEq

/-- The character with that code point in `n` hexadecimal digits. -/
def codePoint? (n : Nat) (s : Text) : Option (Char × Text) := do
  let (code, s) ← Text.hexNumber? n s
  if code.isValidChar then some (Char.ofNat code, s) else none

def letterEscapes : List (Char × Char) :=
  [('b', '\x08'), ('t', '\t'), ('n', '\n'), ('f', '\x0c'), ('r', '\r'), ('"', '"'), ('\\', '\\')]

/-- The character that an escape stands for; the text begins after the backslash. -/
def readEscape? : Text → Option (Char × Text)
  | 'u' :: s => codePoint? 4 s
  | 'U' :: s => codePoint? 8 s
  | c :: s => (letterEscapes.lookup c).map (·, s)
  | [] => none

/-- What may stand for itself: no control character but the tab. -/
def isPlain (c : Char) : Bool := c == '\t' || (0x20 ≤ c.val && c.val ≠ 0x7F)

/-- The inside of a string on one line and its closing quote. -/
def readShort? (escapes : Bool) (quote : Char) : (bound : Nat) → Text → Option (Text × Text)
  | _, [] => none
  | 0, _ => none
  | bound + 1, c :: s =>
    if c = quote then some ([], s)
    else if escapes && c == '\\' then do
      let (d, s) ← readEscape? s
      let (rest, s) ← readShort? escapes quote bound s
      some (d :: rest, s)
    else if isPlain c then (readShort? escapes quote bound s).map fun (rest, s) => (c :: rest, s)
    else none

/-- A text less the blanks and newlines at its head. -/
def skipLines : Text → Text
  | ' ' :: s => skipLines s
  | '\t' :: s => skipLines s
  | '\n' :: s => skipLines s
  | '\r' :: '\n' :: s => skipLines s
  | s => s

/-- The inside of a string on many lines and its three closing quotes, before which up to two more
may stand. -/
def readLong? (escapes : Bool) (quote : Char) : (bound : Nat) → Text → Option (Text × Text)
  | _, [] => none
  | 0, _ => none
  | bound + 1, c :: s =>
    let run := ((c :: s).takeWhile (· == quote)).length
    if 3 ≤ run then some (List.replicate (min (run - 3) 2) quote, (c :: s).drop (min run 5))
    else match Text.afterNewline? (c :: s) with
      | some s => (readLong? escapes quote bound s).map fun (rest, s) => ('\n' :: rest, s)
      | none =>
        if escapes && c == '\\' then
          match Text.afterNewline? (s.dropWhile Text.isSpaceOrTab) with
          | some s => readLong? escapes quote bound (skipLines s)
          | none => do
            let (d, s) ← readEscape? s
            let (rest, s) ← readLong? escapes quote bound s
            some (d :: rest, s)
        else if isPlain c then (readLong? escapes quote bound s).map fun (rest, s) => (c :: rest, s)
        else none

def readKeyString? : Text → Option (Text × Text)
  | '"' :: s => readShort? true '"' s.length s
  | '\'' :: s => readShort? false '\'' s.length s
  | _ => none

def readString? (s : Text) : Option (Text × Text) :=
  match s with
  | '"' :: '"' :: '"' :: s => readLong? true '"' s.length ((Text.afterNewline? s).getD s)
  | '\'' :: '\'' :: '\'' :: s => readLong? false '\'' s.length ((Text.afterNewline? s).getD s)
  | _ => readKeyString? s

/-- The longest run of a character, `seen` of them having just been passed. -/
def longestRun (c : Char) : (seen : Nat) → Text → Nat
  | seen, [] => seen
  | seen, d :: s => if d = c then longestRun c (seen + 1) s else max seen (longestRun c 0 s)

/-- Whether only an escape can write a character: the control characters but tab and newline. -/
def needsEscape (c : Char) : Bool := (c.val < 0x20 && c != '\t' && c != '\n') || c.val == 0x7F

def styleOf (s : Text) : QuoteStyle :=
  let control := s.any needsEscape
  let escape := control || s.any (· == '\\')
  let newline := s.any (· == '\n')
  let doubles := longestRun '"' 0 s
  let singles := longestRun '\'' 0 s
  if !escape && doubles == 0 && !newline then .basic
  else if !control && singles == 0 && !newline then .literal
  else if !escape && doubles ≤ 2 then .longBasic
  else if !control && singles ≤ 2 then .longLiteral
  else if newline then .longBasic
  else .basic

/-- The last two of the four hexadecimal digits of a character, in upper case. -/
def codeDigits (c : Char) : Text :=
  [(Text.hexDigit (c.toNat / 16)).toUpper, (Text.hexDigit (c.toNat % 16)).toUpper]

/-- The escape of a character, if it is written with one. -/
def escapeOf? (c : Char) : Option Text :=
  match letterEscapes.find? fun entry => entry.2 == c with
  | some (letter, _) => some ['\\', letter]
  | none =>
    if needsEscape c then some ("\\u00".toList ++ codeDigits c) else none

/-- A string with its escapes. `spare` double quotes may follow on each other without one; `seen` of
them have just been written. On many lines a newline stands for itself. -/
def escapeAll (long : Bool) (spare : Nat) : (seen : Nat) → Text → Text
  | _, [] => []
  | seen, c :: s =>
    if c = '"' ∧ seen < spare then c :: escapeAll long spare (seen + 1) s
    else if c = '\n' ∧ long then c :: escapeAll long spare 0 s
    else match escapeOf? c with
      | some escape => escape ++ escapeAll long spare 0 s
      | none => c :: escapeAll long spare 0 s

/-- The newline that follows the opening quotes of a string on many lines, if it has any. -/
def leadingNewline (s : Text) : Text := if s.any (· == '\n') then ['\n'] else []

def writeAs (style : QuoteStyle) (s : Text) : Text :=
  match style with
  | .basic => ['"'] ++ escapeAll false 0 0 s ++ ['"']
  | .literal => ['\''] ++ s ++ ['\'']
  | .longBasic => ['"', '"', '"'] ++ leadingNewline s ++ escapeAll true 2 0 s ++ ['"', '"', '"']
  | .longLiteral => ['\'', '\'', '\''] ++ leadingNewline s ++ s ++ ['\'', '\'', '\'']

def writeString (s : Text) : Text := writeAs (styleOf s) s

end MarkupActions.Toml
