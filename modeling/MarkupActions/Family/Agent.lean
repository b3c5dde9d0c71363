import MarkupActions.Family.Search
import MarkupActions.Hunk.Reader

/-!
# Agents

The end of a turn, tasks for other agents, plans and skills. A plan is taken out of the text once it
has been read, so that the tags which its steps mention are not read after it.
-/

namespace MarkupActions.Family

/-- Every end is an action, with a summary or without. -/
def finishAction (block : Block) : Action :=
  .finish ((block.payload?.or (block.value? ["summary"])).map String.ofList)

def finish : Family where
  tags := names ["end"]
  selfClosing := names ["end"]
  aliases := aliasesOf "end" ["done"]
  bearsContent := true
  repairs := [.unterminatedClosing (names ["end", "done"])]
  extract _ s := (contentBlocks ["end"] s).map finishAction

def taskAction? (block : Block) : Option Action :=
  block.payload?.map fun prompt =>
    .task ⟨String.ofList prompt, block.string? ["description"], block.string? ["agent", "subagent"]⟩

def task : Family where
  tags := names ["task"]
  aliases := aliasesOf "task" ["subtask"]
  bearsContent := true
  repairs := [.unterminatedClosing (names ["task", "subtask"])]
  extract _ s := (contentBlocks ["task"] s).filterMap taskAction?

def afterStepOpening? (s : Text) : Option Text := do
  match ← Text.afterFolded? "<step".toList s with
  | '>' :: rest => some rest
  | c :: rest =>
    if Text.isBlank c then
      match rest.dropWhile (· != '>') with
      | _ :: rest => some rest
      | [] => none
    else none
  | [] => none

def afterStepClosing? (s : Text) : Option Text := do
  match Text.trimStart (← Text.afterFolded? "</step".toList s) with
  | '>' :: rest => some rest
  | _ => none

def step? (s : Text) : Option (Text × Text) :=
  do Hunk.upTo? afterStepClosing? (← afterStepOpening? s)

def dropReturn (s : Text) : Text := (Text.beforeSuffix? ['\r'] s).getD s

/-- Rows as lines: a carriage return before a newline belongs to it, and nothing follows the last
newline. -/
def linesOfRows : List Text → List Text
  | [] => []
  | [row] => if row.isEmpty then [] else [row]
  | row :: rows => dropReturn row :: linesOfRows rows

/-- What follows the bullet or the number of a list item. -/
def afterBullet? (s : Text) : Option Text :=
  match Text.trimStart s with
  | [] => none
  | c :: rest =>
    if c = '-' ∨ c = '*' ∨ c = '+' then some rest
    else
      let digits := (c :: rest).takeWhile Text.isDigit
      match (c :: rest).drop digits.length with
      | d :: rest => if !digits.isEmpty && (d == '.' || d == ')') then some rest else none
      | [] => none

/-- The text of a list item. Where white space is all that follows the bullet, the last of it is the
text. -/
def listItem? (line : Text) : Option Text := do
  let rest ← afterBullet? line
  let text := Text.trimStart rest
  if text.length = rest.length then none
  else if text.isEmpty then if rest.length < 2 then none else some (rest.drop (rest.length - 1))
  else some (Text.trimEnd text)

/-- The steps of a plan: its `<step>` tags, or else the items of a list. -/
def planSteps (body : Text) : List Text :=
  match (Hunk.collect step? body).filterMap fun step =>
    nonempty? (Entity.decode (Text.trim step)) with
  | [] => ((linesOfRows (Text.rows body)).filterMap listItem?).map Entity.decode
  | steps => steps

def planAction? (block : Block) : Option Action :=
  match (block.body?.map planSteps).getD [] with
  | [] => none
  | steps => some (.plan ⟨block.string? ["title"], steps.map String.ofList⟩)

def plan : Family where
  tags := names ["plan"]
  repairs := [.unterminatedClosing (names ["plan"])]
  retired := names ["plan"]
  extract _ s := (structuralBlocks ["plan"] s).filterMap planAction?

def skillAction? (block : Block) : Option Action :=
  (block.value? ["name"]).map fun name =>
    let arguments := (block.raw? "args").bind fun v => nonempty? (Entity.decode (Text.trim v))
    .skill ⟨String.ofList name, (arguments.or block.bodyText?).map String.ofList⟩

def skill : Family where
  tags := names ["skill"]
  selfClosing := names ["skill"]
  repairs := usualRepairs ["skill"]
  extract _ s := (structuralBlocks ["skill"] s).filterMap skillAction?

end MarkupActions.Family
