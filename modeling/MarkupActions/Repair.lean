import MarkupActions.Attribute
import MarkupActions.Spelling
import MarkupActions.Layout

/-!
# Repairs

Malformed tags that can be mended in one way only. Each repair is built for some tags and touches no
others; it goes through a text from left to right and does not look at what it has written.
-/

namespace MarkupActions

inductive Repair where
  /-- `<search">` becomes `<search>`. -/
  | strayQuote (tags : List Text)
  /-- `</edit` at the end, or before white space that no `>` follows, becomes `</edit>`. -/
  | unterminatedClosing (tags : List Text)
  /-- `<read path="a"` at the end of a line becomes `<read path="a"/>`. -/
  | unterminatedSelfClosing (tags : List Text)
  /-- Each occurrence of a text becomes another. -/
  | literal (old new : Text)
deriving DecidableEq

namespace Repair

/-- The names that a repair looks for, in order. For no tags at all this is the empty name. -/
def names (tags : List Text) : List Text :=
  match Spelling.ofTags tags with
  | [] => [[]]
  | spellings => spellings

/-- How many quotes stand before a `>` at the head of a text, the `>` counted. -/
def quotesLength? (s : Text) : Option Nat :=
  let n := (s.takeWhile Attribute.isQuote).length
  match s.drop n with
  | '>' :: _ => if n = 0 then none else some (n + 1)
  | _ => none

/-- A name, `start` characters into a text, that only quotes part from its `>`. -/
def strayQuoteAt? (names : List Text) (s : Text) (start : Nat) : Option (Nat × Text) :=
  names.findSome? fun name => do
    let n ← quotesLength? (← Text.afterFolded? name (s.drop start))
    some (start + name.length + n, s.take (start + name.length) ++ ['>'])

def strayQuoteRule (names : List Text) : Text.Patch
  | '<' :: '/' :: s =>
    (strayQuoteAt? names ('<' :: '/' :: s) 2).or (strayQuoteAt? names ('<' :: '/' :: s) 1)
  | '<' :: s => strayQuoteAt? names ('<' :: s) 1
  | _ => none

def unterminatedClosingRule (names : List Text) : Text.Patch
  | '<' :: '/' :: s =>
    names.findSome? fun name => do
      let rest ← Text.afterFolded? name s
      let blanks := rest.takeWhile Text.isBlank
      let closed := ('<' :: '/' :: s.take name.length) ++ ['>']
      match rest.drop blanks.length with
      | [] => some (2 + name.length + blanks.length, closed)
      | c :: _ =>
        if blanks.isEmpty || c == '>' then none
        else some (2 + name.length + blanks.length + 1, closed ++ blanks ++ [c])
  | _ => none

/-- Length of a quoted value that stays within its line. -/
def quotedLength? (quote : Char) (s : Text) : Option Nat :=
  (Attribute.quoted? quote s).bind fun v => if v.any (· == '\n') then none else some (v.length + 2)

/-- Length of the value at the head of a text. One without quotes has no slash here. -/
def valueLength? (s : Text) : Option Nat :=
  match s with
  | [] => none
  | c :: rest =>
    if Attribute.isQuote c then quotedLength? c rest
    else
      let n := (s.takeWhile Attribute.isBare).length
      if n = 0 then none else some n

/-- What follows `name =` at the head of a text, white space around the equals sign included. -/
def afterEquals? (s : Text) : Option Text :=
  let name := s.takeWhile Text.isNameChar
  if name.isEmpty then none
  else match Text.trimStart (s.drop name.length) with
    | '=' :: rest => some (Text.trimStart rest)
    | _ => none

/-- Length of the attribute at the head of a text, the white space before it included. -/
def attributeLength? (s : Text) : Option Nat :=
  let rest := Text.trimStart s
  if rest.length = s.length then none
  else do
    let tail ← afterEquals? rest
    let n ← valueLength? tail
    some (s.length - tail.length + n)

/-- Whether a line ends here, blanks aside. -/
def endsLine (s : Text) : Bool := (s.dropWhile Text.isSpaceOrTab).head?.all (· == '\n')

/-- Length of as many attributes at the head of a text as reach the end of a line; at least one. -/
def attributesLength? : Text → Option Nat
  | [] => none
  | c :: s =>
    match attributeLength? (c :: s) with
    | none => none
    | some n =>
      let rest := s.drop (n - 1)
      match attributesLength? rest with
      | some m => some (n + m)
      | none => if endsLine rest then some n else none
termination_by s => s.length
decreasing_by simp only [List.length_drop, List.length_cons]; omega

/-- Whether a tag goes on: with an attribute, or with its own `>`. -/
def goesOn (s : Text) : Bool :=
  match Text.trimStart s with
  | '>' :: _ => true
  | '/' :: '>' :: _ => true
  | s => (afterEquals? s).isSome

def unterminatedSelfClosingRule (names : List Text) : Text.Patch
  | '<' :: s =>
    names.findSome? fun name => do
      let rest ← Text.afterFolded? name s
      let n ← attributesLength? rest
      let tag := '<' :: s.take (name.length + n)
      let blanks := (rest.drop n).takeWhile Text.isSpaceOrTab
      let after := rest.drop (n + blanks.length)
      some (tag.length + blanks.length, tag ++ if goesOn after then blanks else ['/', '>'])
  | _ => none

def apply : Repair → Text → Text
  | strayQuote tags => Text.patchAll (strayQuoteRule (names tags))
  | unterminatedClosing tags => Text.patchAll (unterminatedClosingRule (names tags))
  | unterminatedSelfClosing tags => Text.patchAll (unterminatedSelfClosingRule (names tags))
  | literal old new => Text.replaceAll old new

def applyAll (repairs : List Repair) (s : Text) : Text :=
  repairs.foldl (fun s repair => repair.apply s) s

/-- A text mended in the gaps of a layout, each on its own. -/
def applyOutside {Part : Type} (repairs : List Repair) (write : Part → Text)
    (layout : Layout Part) : Text :=
  (layout.mapGaps (applyAll repairs)).text write

end Repair

end MarkupActions
