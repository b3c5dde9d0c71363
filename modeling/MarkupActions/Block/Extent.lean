import MarkupActions.Block.Basic
import MarkupActions.Tag.Closing
import MarkupActions.Code
import MarkupActions.Hunk.Marker
import MarkupActions.Layout

/-!
# Where a block ends

A closing tag does not end a block while it is shadowed: while it stands in a code region that opens
in the body or, in a content block, in an unfinished hunk. `closing?` jumps over what casts the
shadow; `firstUnshadowed?` looks at one closing tag after the other.
-/

namespace MarkupActions

/-- What covers the place `pos` of a body, given by the place where it ends. -/
def shadow (mode : ScanMode) (body : Text) (pos : Nat) : Option Nat :=
  match Code.shadow false body pos, mode with
  | some stop, _ => some stop
  | none, .content => Hunk.shadow body pos
  | none, .structural => none

/-- Looks for a closing tag from the place `pos` of a body, where `rest` begins, after passing over
`skip` characters; `closes?` gives the length of one that stands at the head of a text. After a
shadowed one the search goes on where the shadow ends. -/
def closingFrom? (mode : ScanMode) (closes? : Text → Option Nat) (body : Text) :
    (skip pos : Nat) → (rest : Text) → Option (Nat × Nat)
  | _, _, [] => none
  | skip + 1, pos, _ :: rest => closingFrom? mode closes? body skip (pos + 1) rest
  | 0, pos, c :: rest =>
    match closes? (c :: rest) with
    | none => closingFrom? mode closes? body 0 (pos + 1) rest
    | some n =>
      match shadow mode body pos with
      | none => some (pos, n)
      | some resume => closingFrom? mode closes? body (resume - pos - 1) (pos + 1) rest

/-- Place and length of the closing tag that ends the body at the head of a text. -/
def closing? (mode : ScanMode) (closes? : Text → Option Nat) (body : Text) : Option (Nat × Nat) :=
  closingFrom? mode closes? body 0 0 body

/-- The first closing tag from the place `pos` of a body, where `rest` begins, that nothing covers.
-/
def unshadowedFrom? (mode : ScanMode) (closes? : Text → Option Nat) (body : Text) :
    (pos : Nat) → (rest : Text) → Option (Nat × Nat)
  | _, [] => none
  | pos, c :: rest =>
    match closes? (c :: rest) with
    | some n =>
      if (shadow mode body pos).isNone then some (pos, n)
      else unshadowedFrom? mode closes? body (pos + 1) rest
    | none => unshadowedFrom? mode closes? body (pos + 1) rest

/-- Place and length of the first closing tag of a body that nothing covers. -/
def firstUnshadowed? (mode : ScanMode) (closes? : Text → Option Nat) (body : Text) :
    Option (Nat × Nat) :=
  unshadowedFrom? mode closes? body 0 body

/-- Whether the tag opens anew somewhere in a body that a closing tag follows. -/
def opensAgain (name : Text) : (body : Text) → Bool
  | [] => false
  | c :: body => OpeningTag.opens name (c :: body) || opensAgain name body

def extentOf (mode : ScanMode) (tag : OpeningTag) (rest : Text) : Extent :=
  if tag.closesItself then .closesItself
  else match closing? mode (ClosingTag.length? tag.key) rest with
    | none => .unclosed
    | some (pos, n) =>
      let body := rest.take pos
      if mode = .structural ∧ opensAgain tag.key body then .unclosed
      else .closed body ((rest.drop pos).take n)

namespace Matcher

/-- The block at the head of a text, if its tag is one of the matcher's. -/
def blockOf? (m : Matcher) (tag : OpeningTag) (s : Text) : Option Block :=
  (m.mode? tag.key).map fun mode => ⟨tag, extentOf mode tag (s.drop tag.text.length)⟩

def blockAt? (m : Matcher) (s : Text) : Option Block :=
  (OpeningTag.read? s).bind fun tag => m.blockOf? tag s

/-- A text cut at its blocks; what stands inside of a block or of another tag is not looked at. -/
def layout (m : Matcher) : Text → Layout Block
  | [] => .last []
  | c :: s =>
    match OpeningTag.read? (c :: s) with
    | none => (m.layout s).prepend [c]
    | some tag =>
      match m.blockOf? tag (c :: s) with
      | some block => .next [] block (m.layout (s.drop (block.text.length - 1)))
      | none => (m.layout (s.drop (tag.text.length - 1))).prepend tag.text
termination_by s => s.length
decreasing_by all_goals (simp only [List.length_drop, List.length_cons]; omega)

def blocks (m : Matcher) (s : Text) : List Block := (m.layout s).parts

def removeBlocks (m : Matcher) (s : Text) : Text := (m.layout s).gaps

end Matcher

end MarkupActions
