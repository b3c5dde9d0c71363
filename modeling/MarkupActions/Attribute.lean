import MarkupActions.Text.Digit
import MarkupActions.Text.Word
import MarkupActions.Text.Fold

/-!
# Attributes

What a sub-parser reads off an opening tag: `name="value"`, `name='value'` and `name=value`, in any
order, and names that stand alone. Names are equal up to letter case, and a hyphen equals an
underscore. The reader steps over whatever is no attribute, the tag name included.
-/

namespace MarkupActions

structure Attribute where
  name : Text
  value : Text
deriving DecidableEq

namespace Attribute

def isQuote (c : Char) : Bool := c == '"' || c == '\''

/-- What a value without quotes is made of, slashes aside. -/
def isBare (c : Char) : Bool := !(Text.isBlank c || isQuote c || c == '<' || c == '>' || c == '/')

/-- Length of the value without quotes at the head of a text. A slash belongs to it if more of the
value follows, so that the slash of `/>` does not. -/
def bareLength : Text → Nat
  | [] => 0
  | [c] => if isBare c then 1 else 0
  | c :: d :: s =>
    if isBare c then bareLength (d :: s) + 1
    else if c = '/' ∧ isBare d then bareLength (d :: s) + 1
    else 0

/-- The text up to the next `quote`. -/
def quoted? (quote : Char) : Text → Option Text
  | [] => none
  | c :: s => if c = quote then some [] else (quoted? quote s).map (c :: ·)

/-- The value at the head of a text, and its length as written. -/
def value? (s : Text) : Option (Text × Nat) :=
  match s with
  | [] => none
  | c :: rest =>
    if isQuote c then (quoted? c rest).map fun v => (v, v.length + 2)
    else
      let n := bareLength s
      if n = 0 then none else some (s.take n, n)

def startsName (c : Char) : Bool := c.isAlpha || c == '_'

def continuesName (c : Char) : Bool := Text.isNameChar c || c == ':'

/-- The attribute at the head of a text, and its length as written. -/
def read? (s : Text) : Option (Attribute × Nat) :=
  match s with
  | [] => none
  | c :: rest =>
    if !startsName c then none
    else
      let name := c :: rest.takeWhile continuesName
      match Text.trimStart (s.drop name.length) with
      | '=' :: tail =>
        let tail := Text.trimStart tail
        (value? tail).map fun (v, n) => (⟨name, v⟩, s.length - tail.length + n)
      | _ => none

def all : Text → List Attribute
  | [] => []
  | c :: s =>
    match read? (c :: s) with
    | some (found, n) => found :: all (s.drop (n - 1))
    | none => all s
termination_by s => s.length
decreasing_by all_goals (simp only [List.length_drop, List.length_cons]; omega)

def nameKey (c : Char) : Char := if c = '-' then '_' else c.toLower

def sameName (a b : Text) : Bool := a.map nameKey == b.map nameKey

def find? (tag name : Text) : Option Text := ((all tag).find? (sameName ·.name name)).map (·.value)

/-- The tag with each quoted string replaced by a blank. -/
def withoutQuoted (tag : Text) : Text :=
  Text.patchAll (fun s =>
    match s with
    | [] => none
    | c :: rest => if isQuote c then (quoted? c rest).map fun v => (v.length + 2, [' ']) else none)
        tag

/-- Whether a name stands alone after the tag's name. -/
def isFlag (tag name : Text) : Bool :=
  let words := Text.splitBy (fun c => Text.isBlank c || c == '/' || c == '>') (withoutQuoted tag)
  words.tail.any (sameName · name)

/-- Whether an attribute says yes: by its value, or by standing alone. -/
def holds (tag name : Text) : Bool :=
  match find? tag name with
  | some v => ["true".toList, "1".toList, "yes".toList].contains (Text.lower (Text.trim v))
  | none => isFlag tag name

/-- Whether an attribute says yes or no, if it has a value or stands alone. -/
def decision? (tag name : Text) : Option Bool := (find? tag name).map fun _ => holds tag name

/-- The value of an attribute less the white space around it, if anything is left. -/
def trimmed? (tag name : Text) : Option Text := (find? tag name).bind Text.trimmed?

/-- The first of the names that has such a value. -/
def first? (tag : Text) (names : List Text) : Option Text := names.findSome? (trimmed? tag)

/-- A number below 2^64, in decimal digits, after a plus sign if one likes. -/
def parseNumber? (s : Text) : Option UInt64 :=
  let digits := match s with
    | '+' :: rest => rest
    | _ => s
  if digits.isEmpty || !digits.all Char.isDigit then none
  else
    let n := Text.numberOf 10 digits
    if n < UInt64.size then some (UInt64.ofNat n) else none

/-- The number that an attribute gives; one that is malformed counts as absent. -/
def number? (tag name : Text) : Option UInt64 := (trimmed? tag name).bind parseNumber?

end Attribute

end MarkupActions
