import MarkupActions.Payload
import MarkupActions.Text.Fold

/-!
# Hunks

An edit says what to look for and what to put in its place: between markers, or in a pair of
`<search>` and `<replace>` tags. Both readers go from left to right and take the nearest end each
time. Pairs are looked for only where no marked hunk is found.
-/

namespace MarkupActions.Hunk

structure Change where
  search : Text
  replace : Text
deriving DecidableEq

/-- What stands before the first place where `ends?` finds something, and what follows it. -/
def upTo? (ends? : Text → Option Text) : Text → Option (Text × Text)
  | [] => (ends? []).map ([], ·)
  | c :: s =>
    match ends? (c :: s) with
    | some rest => some ([], rest)
    | none => (upTo? ends? s).map fun (front, rest) => (c :: front, rest)

/-- A text less one newline at its head, or one half of it. -/
def skipNewline (s : Text) : Text :=
  let s := match s with
    | '\r' :: rest => rest
    | _ => s
  match s with
  | '\n' :: rest => rest
  | _ => s

def afterOpening? (s : Text) : Option Text := do
  let s ← (List.replicate 7 '<').isPrefixOf? s
  let s ← "SEARCH".toList.isPrefixOf? (Text.trimStart s)
  Text.afterNewline? (s.dropWhile Text.isSpaceOrTab)

/-- The line that parts what is looked for from what replaces it, with the newline before it. -/
def afterSeparator? (s : Text) : Option Text := do
  let s ← (List.replicate 7 '=').isPrefixOf? (skipNewline s)
  Text.afterNewline? (s.dropWhile Text.isSpaceOrTab)

/-- The marker that finishes a hunk, with the newline before it. -/
def afterFinish? (s : Text) : Option Text := do
  let s ← (List.replicate 7 '>').isPrefixOf? (skipNewline s)
  "REPLACE".toList.isPrefixOf? (Text.trimStart s)

def marked? (s : Text) : Option (Change × Text) := do
  let (search, s) ← upTo? afterSeparator? (← afterOpening? s)
  let (replace, s) ← upTo? afterFinish? s
  some (⟨search, replace⟩, s)

/-- What ends the first half of a pair and begins the second. -/
def afterMiddle? (s : Text) : Option Text := do
  let s ← Text.afterFolded? "</search>".toList s
  Text.afterFolded? "<replace>".toList (Text.trimStart s)

def pair? (s : Text) : Option (Change × Text) := do
  let (search, s) ← upTo? afterMiddle? (← Text.afterFolded? "<search>".toList s)
  let (replace, s) ← upTo? (Text.afterFolded? "</replace>".toList) s
  some (⟨search, replace⟩, s)

/-- All that a reader finds in a text, one after the other. -/
def collect {α : Type} (read? : Text → Option (α × Text)) : Text → List α
  | [] => []
  | c :: s =>
    match read? (c :: s) with
    | some (found, rest) => found :: collect read? (s.drop (s.length - rest.length))
    | none => collect read? s
termination_by s => s.length
decreasing_by all_goals (simp only [List.length_drop, List.length_cons]; omega)

/-- The changes that the body of an edit asks for. -/
def changes (body : Text) : List Change :=
  match collect marked? body with
  | [] =>
    (collect pair? body).map fun change =>
      ⟨Entity.decode (Payload.trimNewlines change.search),
        Entity.decode (Payload.trimNewlines change.replace)⟩
  | marked => marked.map fun change => ⟨Entity.decode change.search, Entity.decode change.replace⟩

end MarkupActions.Hunk
