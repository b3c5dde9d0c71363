import MarkupActions.Text.Word
import MarkupActions.Text.Fold

/-!
# Opening tags

`<name attributes>`, where the attributes run to the first `>` outside quotes. A `<` outside quotes,
or a quote that is never closed, means that no tag opens here.
-/

namespace MarkupActions

structure OpeningTag where
  name : Text
  attributes : Text
deriving DecidableEq

namespace OpeningTag

def text (tag : OpeningTag) : Text := '<' :: (tag.name ++ tag.attributes ++ ['>'])

def key (tag : OpeningTag) : Text := Text.lower tag.name

/-- Whether the tag ends in a slash, white space aside. -/
def closesItself (tag : OpeningTag) : Bool := (Text.trimEnd tag.attributes).getLast? == some '/'

/-- The text up to the first `>` outside quotes. The first argument is the quote that is open. -/
def attributes? : Option Char → Text → Option Text
  | _, [] => none
  | some quote, c :: s => (attributes? (if c = quote then none else some quote) s).map (c :: ·)
  | none, c :: s =>
    if c = '>' then some []
    else if c = '<' then none
    else (attributes? (if c = '"' ∨ c = '\'' then some c else none) s).map (c :: ·)

def read? : Text → Option OpeningTag
  | '<' :: c :: s =>
    if c.isAlpha then
      (attributes? none (s.dropWhile Text.isNameChar)).map (⟨c :: s.takeWhile Text.isNameChar, ·⟩)
    else none
  | _ => none

/-- Whether `name`, in lower case, opens at the head of a text, be the tag complete or not. -/
def opens (name : Text) (s : Text) : Bool :=
  match Text.afterLower? ('<' :: name) s with
  | some (c :: _) => Text.isBlank c || c == '/' || c == '>'
  | _ => false

end OpeningTag

end MarkupActions
