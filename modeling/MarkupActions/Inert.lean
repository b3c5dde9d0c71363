import MarkupActions.Block.Extent

/-!
# Inert regions

Fenced blocks, inline code spans and `<literal>` blocks show tags without meaning them. `strip`
takes them out of a text. Blocks of the protected tags are copied as they are, so that backticks in
a file or in a shell command are not taken for code marks.
-/

namespace MarkupActions.Inert

def literalName : Text := "literal".toList

/-- Length of the literal block at the head of a text. One that is never closed reaches to the end.
-/
def literalLength? (s : Text) : Option Nat :=
  match Text.afterLower? ('<' :: literalName) s with
  | some (c :: _) =>
    if c = '>' || Text.isBlank c then some ((ClosingTag.firstEnd? literalName s).getD s.length)
      else none
  | _ => none

/-- Length of the inert region that opens at the head of a text. -/
def regionLength? (lineStart : Bool) (s : Text) : Option Nat :=
  match Code.regionLength? lineStart s with
  | some n => some n
  | none => literalLength? s

/-- A text without its inert regions. `lineStart` says whether it begins at the start of a line. -/
def strip (guarded : Matcher) (lineStart : Bool) : Text → Text
  | [] => []
  | c :: s =>
    match regionLength? lineStart (c :: s) with
    | some n => strip guarded false (s.drop (n - 1))
    | none =>
      match guarded.blockAt? (c :: s) with
      | some block => block.text ++ strip guarded false (s.drop (block.text.length - 1))
      | none =>
        let n := Code.plainLength (c :: s)
        (c :: s.take (n - 1)) ++ strip guarded (c == '\n') (s.drop (n - 1))
termination_by s => s.length
decreasing_by all_goals (simp only [List.length_drop, List.length_cons]; omega)

end MarkupActions.Inert
