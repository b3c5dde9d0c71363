import MarkupActions.Text.Basic

/-!
# Code regions

Fenced blocks, which open at the start of a line, and inline code spans, which stay within one.
`regionLength?` says what region opens at a point; `shadow` walks a text from region to region and
says which of them, if any, covers a given place.
-/

namespace MarkupActions.Code

def tick : Char := '\x60'

/-- How many of `mark` stand at the head of a text. -/
def runLength (mark : Char) (s : Text) : Nat := (s.takeWhile (· == mark)).length

/-- The mark and the length of the fence that a line opens: at most three spaces, then three or more
backticks or tildes. Backticks that are closed on the line are an inline span and no fence. -/
def fence? (line : Text) : Option (Char × Nat) :=
  let rest := line.dropWhile (· == ' ')
  if 3 < line.length - rest.length then none
  else match rest with
    | [] => none
    | mark :: _ =>
      let run := runLength mark rest
      if mark ≠ tick ∧ mark ≠ '~' then none
      else if run < 3 then none
      else if mark = tick ∧ Text.contains [tick, tick, tick] (rest.drop run) then none
      else some (mark, run)

/-- Whether a line closes a fence: white space aside, nothing but its mark, at least as often. -/
def closesFence (mark : Char) (run : Nat) (line : Text) : Bool :=
  let rest := Text.trim line
  run ≤ rest.length && rest.all (· == mark)

/-- How far a fenced block goes into the lines after its first: to the end of the line that closes
it, the newline left out, or to the end of the text. -/
def fencedLength (mark : Char) (run : Nat) : List Text → Nat
  | [] => 0
  | [line] => line.length
  | line :: lines =>
    if closesFence mark run line then line.length else line.length + 1 + fencedLength mark run lines

/-- Length of the fenced block that opens at the head of a text. -/
def fenceLength? (s : Text) : Option Nat :=
  match Text.rows s with
  | [] => none
  | line :: lines =>
    (fence? line).map fun (mark, run) =>
      if lines.isEmpty then line.length else line.length + 1 + fencedLength mark run lines

/-- Where, on the same line, a run of exactly `run` backticks ends; `seen` of them have just been
passed. -/
def spanEnd? (run : Nat) : (seen : Nat) → Text → Option Nat
  | seen, [] => if seen = run then some 0 else none
  | seen, c :: s =>
    if c = tick then (spanEnd? run (seen + 1) s).map (· + 1)
    else if seen = run then some 0
    else if c = '\n' then none
    else (spanEnd? run 0 s).map (· + 1)

/-- Length of the inline span that opens at the head of a text. -/
def spanLength? (s : Text) : Option Nat :=
  let run := runLength tick s
  if run = 0 then none else (spanEnd? run 0 (s.drop run)).map (run + ·)

/-- Length of the code region that opens at the head of a text. -/
def regionLength? (lineStart : Bool) (s : Text) : Option Nat :=
  match if lineStart then fenceLength? s else none with
  | some n => some n
  | none => spanLength? s

/-- How many characters are passed over where no region opens: a whole run of backticks, or one. -/
def plainLength : Text → Nat
  | [] => 0
  | c :: s => if c = tick then runLength tick s + 1 else 1

/-- Where the code region ends that covers the place `pos`, if one does. `lineStart` says whether
the text begins at the start of a line. -/
def shadow (lineStart : Bool) (s : Text) (pos : Nat) : Option Nat :=
  match pos, s with
  | 0, _ => none
  | _ + 1, [] => none
  | pos + 1, c :: s =>
    match regionLength? lineStart (c :: s) with
    | some n =>
      if pos + 1 < n then some n
      else (shadow false (s.drop (n - 1)) (pos + 1 - n)).map (n + ·)
    | none =>
      let n := plainLength (c :: s)
      (shadow (c == '\n') (s.drop (n - 1)) (pos + 1 - n)).map (n + ·)
termination_by s.length
decreasing_by all_goals (simp only [List.length_drop, List.length_cons]; omega)

end MarkupActions.Code
