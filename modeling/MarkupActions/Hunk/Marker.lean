import MarkupActions.Text.Word

/-!
# Hunk markers

A hunk opens with `<<<<<<< SEARCH` and is finished by `>>>>>>> REPLACE`. Between the two a closing
tag belongs to the hunk and ends nothing.
-/

namespace MarkupActions.Hunk

/-- Length of the marker at the head of a text: seven of `mark`, blanks, and `word` as a whole word.
-/
def markerLength? (mark : Char) (word : Text) (s : Text) : Option Nat :=
  match (List.replicate 7 mark).isPrefixOf? s with
  | none => none
  | some rest =>
    match word.isPrefixOf? (rest.dropWhile Text.isSpaceOrTab) with
    | none => none
    | some rest => if rest.head?.any Text.isWord then none else some (s.length - rest.length)

def opening? : Text → Option Nat := markerLength? '<' "SEARCH".toList

def finish? : Text → Option Nat := markerLength? '>' "REPLACE".toList

/-- How many places of a text have a marker. -/
def count (marker? : Text → Option Nat) : Text → Nat
  | [] => 0
  | c :: s => (if (marker? (c :: s)).isSome then 1 else 0) + count marker? s

/-- Where the first finishing marker ends. -/
def finishEnd? : Text → Option Nat
  | [] => none
  | c :: s =>
    match finish? (c :: s) with
    | some n => some n
    | none => (finishEnd? s).map (· + 1)

/-- If more hunks have opened than finished before the place `pos`, where the open one is finished;
the end of the text if it never is. -/
def shadow (s : Text) (pos : Nat) : Option Nat :=
  let before := s.take pos
  if count opening? before ≤ count finish? before then none
  else some (((finishEnd? (s.drop pos)).map (pos + ·)).getD s.length)

end MarkupActions.Hunk
