import MarkupActions.Text.Digit
import MarkupActions.Toml.Basic

/-!
# Numbers, dates and times in TOML

Each reader takes what it reads off the head of a text and returns the rest. An integer has 64 bits.
A float may not be so great that it rounds to infinity, unless infinity is spelled out.
-/

namespace MarkupActions.Toml

/-- Digits with single underscores between them; the underscores are left out. -/
def moreDigits (p : Char → Bool) : Text → Text × Text
  | [] => ([], [])
  | c :: s =>
    if p c then
      let (digits, rest) := moreDigits p s
      (c :: digits, rest)
    else if c = '_' then
      match s with
      | [] => ([], [c])
      | d :: t =>
        if p d then
          let (digits, rest) := moreDigits p t
          (d :: digits, rest)
        else ([], c :: s)
    else ([], c :: s)

/-- At least one digit, and more with underscores between them. -/
def digits? (p : Char → Bool) : Text → Option (Text × Text)
  | [] => none
  | c :: s =>
    if p c then
      let (digits, rest) := moreDigits p s
      some (c :: digits, rest)
    else none

/-- Digits of a decimal integer: a zero alone, or digits that begin with another. -/
def decimal? (s : Text) : Option (Text × Text) :=
  match s with
  | '0' :: rest => some (['0'], rest)
  | _ => digits? Char.isDigit s

def sign (s : Text) : Text := (s.take 1).filter fun c => c == '+' || c == '-'

def word? (n : Int) : Option Toml :=
  if Int64.minValue.toInt ≤ n ∧ n ≤ Int64.maxValue.toInt then some (.integer n) else none

def readInteger? (s : Text) : Option (Toml × Text) :=
  let based (base : Nat) (p : Char → Bool) (s : Text) : Option (Toml × Text) := do
    let (digits, rest) ← digits? p s
    some (← word? (Text.numberOf base digits), rest)
  match s with
  | '0' :: 'x' :: s => based 16 Text.isHexDigit s
  | '0' :: 'o' :: s => based 8 Text.isOctalDigit s
  | '0' :: 'b' :: s => based 2 Text.isBinaryDigit s
  | _ => do
    let sign := sign s
    let (digits, rest) ← decimal? (s.drop sign.length)
    let n : Int := Text.numberOf 10 digits
    some (← word? (if sign = ['-'] then -n else n), rest)

/-- Whether digits times a power of ten stay below what a double rounds to infinity. -/
def isFinite (digits : Text) (exponent : Int) : Bool :=
  let n := Text.numberOf 10 digits
  let size : Int := (digits.dropWhile (· == '0')).length + exponent
  n == 0 || size < 309 ||
    (size == 309 && n * Nat.pow 10 exponent.toNat < (Nat.pow 2 1024 - Nat.pow 2 970) * Nat.pow 10
      (-exponent).toNat)

def fraction? : Text → Option (Text × Text)
  | '.' :: s => digits? Char.isDigit s
  | s => some ([], s)

def exponent? (s : Text) : Option (Option Int × Text) :=
  match s with
  | [] => some (none, s)
  | e :: rest =>
    if e ≠ 'e' ∧ e ≠ 'E' then some (none, s)
    else do
      let sign := sign rest
      let (digits, rest) ← digits? Char.isDigit (rest.drop sign.length)
      let n : Int := Text.numberOf 10 digits
      some (some (if sign = ['-'] then -n else n), rest)

def readFloat? (s : Text) : Option (Toml × Text) :=
  let sign := sign s
  let body := s.drop sign.length
  let written (rest : Text) : Toml := .float (String.ofList (s.take (s.length - rest.length)))
  match ["inf".toList, "nan".toList].findSome? (·.isPrefixOf? body) with
  | some rest => some (written rest, rest)
  | none => do
    let (digits, rest) ← decimal? body
    let (decimals, rest) ← fraction? rest
    let (exponent, rest) ← exponent? rest
    if decimals.isEmpty && exponent.isNone then none
    else if sign = ['-'] ∨ isFinite (digits ++ decimals) (exponent.getD 0 - decimals.length) then
      some (written rest, rest)
    else none

/-- The number of exactly `n` digits. -/
def fixed? (n : Nat) (s : Text) : Option (Nat × Text) :=
  let digits := s.take n
  if digits.length = n ∧ digits.all Char.isDigit then some (Text.numberOf 10 digits, s.drop n)
    else none

def after? (c : Char) : Text → Option Text
  | [] => none
  | d :: s => if d = c then some s else none

def daysOf (year month : Nat) : Nat :=
  if month = 2 then
    if year % 4 = 0 ∧ (year % 100 ≠ 0 ∨ year % 400 = 0) then 29 else 28
  else if month = 4 ∨ month = 6 ∨ month = 9 ∨ month = 11 then 30
  else 31

def afterDate? (s : Text) : Option Text := do
  let (year, s) ← fixed? 4 s
  let (month, s) ← fixed? 2 (← after? '-' s)
  let (day, s) ← fixed? 2 (← after? '-' s)
  if 1 ≤ month ∧ month ≤ 12 ∧ 1 ≤ day ∧ day ≤ daysOf year month then some s else none

def afterHourMinute? (s : Text) : Option Text := do
  let (hour, s) ← fixed? 2 s
  let (minute, s) ← fixed? 2 (← after? ':' s)
  if hour ≤ 23 ∧ minute ≤ 59 then some s else none

def afterTime? (s : Text) : Option Text := do
  let (second, s) ← fixed? 2 (← after? ':' (← afterHourMinute? s))
  if 60 < second then none
  else match s with
    | '.' :: s =>
      let digits := s.takeWhile Char.isDigit
      if digits.isEmpty then none else some (s.drop digits.length)
    | _ => some s

/-- What follows an offset from universal time, which may be missing. -/
def afterOffset? (s : Text) : Option Text :=
  match s with
  | [] => some s
  | c :: rest =>
    if c = 'Z' ∨ c = 'z' then some rest
    else if c = '+' ∨ c = '-' then afterHourMinute? rest
    else some s

/-- What follows the time of a date, which may be missing. A blank may part the two. -/
def afterTimeOfDate? (s : Text) : Option Text :=
  match s with
  | [] => some s
  | c :: rest =>
    if c = 'T' ∨ c = 't' then (afterTime? rest).bind afterOffset?
    else if c = ' ' then
      match afterTime? rest with
      | some rest => afterOffset? rest
      | none => some s
    else some s

def readMoment? (s : Text) : Option (Toml × Text) := do
  let rest ← match afterDate? s with
    | some rest => afterTimeOfDate? rest
    | none => afterTime? s
  some (.moment (String.ofList (s.take (s.length - rest.length))), rest)

/-- A date or time, a float, or an integer. -/
def readNumber? (s : Text) : Option (Toml × Text) :=
  match readMoment? s with
  | some found => some found
  | none =>
    match readFloat? s with
    | some found => some found
    | none => readInteger? s

end MarkupActions.Toml
