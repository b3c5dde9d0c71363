import MarkupActions.Family.Basic
import MarkupActions.Hunk.Reader

/-!
# Files

Reading, writing, creating and editing. What is written has been screened first: a payload that
looks corrupted yields no action.
-/

namespace MarkupActions.Family

def pathNames : List String := ["path", "file"]

def bodyPath? (block : Block) : Option Text :=
  block.body?.bind fun body =>
    (Text.trimmed? body).bind fun path => if path.any (· == '<') then none else some path

def readAction? (block : Block) : Option Action :=
  ((block.value? pathNames).or (bodyPath? block)).map fun path =>
    .read ⟨String.ofList path, block.number? "offset", block.number? "limit"⟩

def read : Family where
  tags := names ["read"]
  selfClosing := names ["read"]
  aliases := aliasesOf "read" ["read-file", "cat"]
  repairs :=
    [.unterminatedSelfClosing (names ["read", "read-file", "cat"]),
      .unterminatedClosing (names ["read", "read-file", "cat"])]
  extract _ s := (structuralBlocks ["read"] s).filterMap readAction?

/-- The path and the raw body of a block that has both. -/
def pathAndBody? (inherited : Option Text) (block : Block) : Option (Text × Text) := do
  some (← (block.value? pathNames).or inherited, ← block.body?)

/-- The file that a block holds, unless its body looks corrupted. -/
def file? (screening : Screening) (block : Block) : Option FileContent := do
  let (path, body) ← pathAndBody? none block
  match screening.check body path with
  | some _ => none
  | none => some ⟨String.ofList path, String.ofList (Payload.clean body)⟩

def write : Family where
  tags := names ["write"]
  aliases := aliasesOf "write" ["write-file"]
  bearsContent := true
  repairs := [.unterminatedClosing (names ["write", "write-file"])]
  extract screening s := ((contentBlocks ["write"] s).filterMap (file? screening)).map .write

def create : Family where
  tags := names ["create"]
  aliases := aliasesOf "create" ["create-file"]
  bearsContent := true
  repairs := [.unterminatedClosing (names ["create", "create-file"])]
  extract screening s := ((contentBlocks ["create"] s).filterMap (file? screening)).map .create

/-- The changes of one edit. A path that it lacks is inherited. -/
def edits (screening : Screening) (inherited : Option Text) (block : Block) : List Action :=
  match pathAndBody? inherited block with
  | none => []
  | some (path, body) =>
    match screening.check body path with
    | some _ => []
    | none =>
      (Hunk.changes body).map fun change =>
        .edit ⟨String.ofList path, String.ofList change.search, String.ofList change.replace,
          block.holds "replace_all"⟩

/-- The names of an edit inside a multi-edit, where other spellings have been left as they were. -/
def innerEditNames : List Text := Spelling.ofTags (names ["edit", "edit-file"])

/-- The changes of all edits in a multi-edit, which may leave it to the outer tag to name the file.
-/
def multiEdits (screening : Screening) (block : Block) : List Action :=
  match block.body? with
  | none => []
  | some body =>
    ((Matcher.of .content innerEditNames).blocks body).flatMap
      (edits screening (block.value? pathNames))

def editActions (screening : Screening) (block : Block) : List Action :=
  if block.name = "multi-edit".toList then multiEdits screening block
    else edits screening none block

def edit : Family where
  tags := names ["edit", "multi-edit"]
  aliases := aliasesOf "edit" ["edit-file"]
  bearsContent := true
  repairs :=
    [.strayQuote (names ["search", "replace"]),
      .unterminatedClosing (names ["edit", "edit-file", "multi-edit"])]
  extract screening s := (contentBlocks ["edit", "multi-edit"] s).flatMap (editActions screening)

end MarkupActions.Family
