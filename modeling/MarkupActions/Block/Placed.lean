import MarkupActions.Block.Extent

/-!
# Blocks and their places

Where the blocks of a text are, in bytes of its UTF-8 form, and which block begins at a given byte.
-/

namespace MarkupActions.Matcher

/-- The blocks of a text in their order, with the bytes that they take up. -/
def placed (m : Matcher) (s : Text) : List (Block × Span) := (m.layout s).spans Block.text 0

/-- The block that begins at a byte of a text, with the bytes that it takes up. None begins inside
of a character or behind the end. -/
def placedAt? (m : Matcher) (s : Text) (start : Nat) : Option (Block × Span) :=
  let (before, rest) := Text.splitAtByte start s
  if Text.byteSize before = start then
    (m.blockAt? rest).map fun block => (block, ⟨start, start + Text.byteSize block.text⟩)
  else none

end MarkupActions.Matcher
