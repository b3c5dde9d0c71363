import MarkupActions.Tag.Opening

/-!
# Blocks

A block is an opening tag with what belongs to it. Its text is put together from its parts, so a
block that was found in a text cannot differ from what stands there.
-/

namespace MarkupActions

/-- How far the body of a block may reach. -/
inductive ScanMode where
  /-- To the first closing tag outside code and outside an unfinished hunk, whatever else the body
  holds. -/
  | content
  /-- To the first closing tag outside code. A body in which the same tag opens again counts as
  unclosed. -/
  | structural
deriving DecidableEq

/-- What belongs to an opening tag. -/
inductive Extent where
  | closesItself
  | unclosed
  | closed (body closing : Text)
deriving DecidableEq

structure Block where
  tag : OpeningTag
  extent : Extent
deriving DecidableEq

namespace Block

def text (block : Block) : Text :=
  match block.extent with
  | .closed body closing => block.tag.text ++ (body ++ closing)
  | _ => block.tag.text

def name (block : Block) : Text := block.tag.key

def body? (block : Block) : Option Text :=
  match block.extent with
  | .closed body _ => some body
  | _ => none

def isClosed (block : Block) : Bool := block.body?.isSome

def isSelfClosing (block : Block) : Bool := block.extent == .closesItself

end Block

/-- Names of tags, in lower case, with the mode that each is scanned in. -/
structure Matcher where
  modes : List (Text × ScanMode)

namespace Matcher

def empty : Matcher := ⟨[]⟩

def isEmpty (m : Matcher) : Bool := m.modes.isEmpty

/-- The mode that a lower case name is scanned in. -/
def mode? (m : Matcher) (name : Text) : Option ScanMode := m.modes.lookup name

/-- Adds a name. A name already present keeps its mode. -/
def add (mode : ScanMode) (m : Matcher) (name : Text) : Matcher :=
  let name := Text.lower name
  if (m.mode? name).isSome then m else ⟨m.modes ++ [(name, mode)]⟩

def addAll (m : Matcher) (names : List Text) (mode : ScanMode) : Matcher := names.foldl (add mode) m

def of (mode : ScanMode) (names : List Text) : Matcher := empty.addAll names mode

/-- Whether a name, in any letter case, is one of the matcher's. -/
def contains (m : Matcher) (name : Text) : Bool := (m.mode? (Text.lower name)).isSome

end Matcher

end MarkupActions
