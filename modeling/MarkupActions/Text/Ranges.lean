import MarkupActions.Text.Basic

/-!
# Ranges of characters

A Unicode property is kept as a list of code point ranges.
-/

namespace MarkupActions.Text

/-- First and last code point, both included. -/
abbrev Range := Nat × Nat

def inRanges (ranges : List Range) (c : Char) : Bool :=
  ranges.any fun r => r.1 ≤ c.toNat && c.toNat ≤ r.2

end MarkupActions.Text
