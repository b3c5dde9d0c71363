import MarkupActions.Toml.Number
import MarkupActions.Toml.Quoted

/-!
# Reading TOML

The grammar of TOML 1.0. A line adds a key to the table of the last header, or it is a header; a
line that adds what is there already makes the document invalid. So does a key of too many parts,
and so do arrays and inline tables that are nested too deep.
-/

namespace MarkupActions.Toml

def skipBlanks (s : Text) : Text := s.dropWhile Text.isSpaceOrTab

def isBareKey (c : Char) : Bool := c.isAlphanum || c == '_' || c == '-'

def isCommentChar (c : Char) : Bool := isPlain c

def skipComment : Text → Text
  | '#' :: s => s.dropWhile isCommentChar
  | s => s

/-- What follows the end of a line, before which blanks and a comment may stand. -/
def afterLine? (s : Text) : Option Text :=
  match skipComment (skipBlanks s) with
  | [] => some []
  | s => Text.afterNewline? s

/-- A text less the blanks, comments and newlines at its head; at most `bound` lines. -/
def skipTrivia : (bound : Nat) → Text → Text
  | 0, s => s
  | bound + 1, s =>
    let s := skipBlanks s
    match s with
    | '#' :: _ =>
      match Text.afterNewline? (skipComment s) with
      | some s => skipTrivia bound s
      | none => s
    | _ =>
      match Text.afterNewline? s with
      | some s => skipTrivia bound s
      | none => s

def maxKeyParts : Nat := 79

def maxDepth : Nat := 79

def readKeyPart? (s : Text) : Option (String × Text) :=
  let bare := s.takeWhile isBareKey
  if bare.isEmpty then (readKeyString? s).map fun (key, s) => (String.ofList key, s)
  else some (String.ofList bare, s.drop bare.length)

/-- A key of at most `bound` parts with the blanks after it; all parts but the last, and the last.
-/
def readParts? : (bound : Nat) → Text → Option ((List String × String) × Text)
  | 0, _ => none
  | bound + 1, s => do
    let (part, s) ← readKeyPart? (skipBlanks s)
    match skipBlanks s with
    | '.' :: s =>
      let ((path, key), s) ← readParts? bound s
      some ((part :: path, key), s)
    | s => some (([], part), s)

def readKey? (s : Text) : Option ((List String × String) × Text) := readParts? maxKeyParts s

def keywords : List (Text × Toml) :=
  [("true".toList, boolean true), ("false".toList, boolean false)]

def readScalar? (s : Text) : Option (Toml × Text) :=
  match readString? s with
  | some (value, s) => some (string (String.ofList value), s)
  | none =>
    match keywords.findSome? fun (word, value) => (word.isPrefixOf? s).map (value, ·) with
    | some found => some found
    | none => readNumber? s

mutual

/-- A value with at most `depth` arrays and inline tables in one another; `bound` limits the steps.
-/
def readValue? : (bound depth : Nat) → Text → Option (Toml × Text)
  | 0, _, _ => none
  | bound + 1, depth, s =>
    match s, depth with
    | '[' :: _, 0 => none
    | '\x7b' :: _, 0 => none
    | '[' :: s, depth + 1 =>
      match skipTrivia s.length s with
      | ']' :: s => some (array [], s)
      | s => (readItems? bound depth s).map fun (items, s) => (array items, s)
    | '\x7b' :: s, depth + 1 =>
      match skipBlanks s with
      | '\x7d' :: s => some (table .inline [], s)
      | s => (readMembers? bound depth [] s).map fun (members, s) => (table .inline members, s)
    | s, _ => readScalar? s

/-- One item or more, and the bracket that closes the array; a comma may stand before it. -/
def readItems? : (bound depth : Nat) → Text → Option (List Toml × Text)
  | 0, _, _ => none
  | bound + 1, depth, s => do
    let (item, s) ← readValue? bound depth s
    match skipTrivia s.length s with
    | ']' :: s => some ([item], s)
    | ',' :: s =>
      match skipTrivia s.length s with
      | ']' :: s => some ([item], s)
      | s =>
        let (items, s) ← readItems? bound depth s
        some (item :: items, s)
    | _ => none

/-- One member or more, added to those that have been read, and the brace that closes the table. -/
def readMembers? : (bound depth : Nat) → Members → Text → Option (Members × Text)
  | 0, _, _, _ => none
  | bound + 1, depth, members, s => do
    let ((path, key), s) ← readKey? s
    let (value, s) ← readValue? bound depth (skipBlanks (← after? '=' s))
    let members ← addKey path key value .header members
    match skipBlanks s with
    | '\x7d' :: s => some (members, s)
    | ',' :: s => readMembers? bound depth members s
    | _ => none

end

/-- A document as far as it has been read: its members, and the path of the last header. -/
structure Draft where
  members : Members := []
  path : List String := []

def readEntry? (draft : Draft) (s : Text) : Option (Draft × Text) := do
  match s with
  | '[' :: '[' :: s =>
    let ((path, key), s) ← readKey? s
    let s ← after? ']' (← after? ']' s)
    some (⟨← addToTables path key .header draft.members, path ++ [key]⟩, s)
  | '[' :: s =>
    let ((path, key), s) ← readKey? s
    let s ← after? ']' s
    some (⟨← addTable path key .header draft.members, path ++ [key]⟩, s)
  | s =>
    let ((path, key), s) ← readKey? s
    let s := skipBlanks (← after? '=' s)
    let (value, s) ← readValue? (2 * s.length + 2) maxDepth s
    some (⟨← editAt false (addKey path key value) draft.path .header draft.members, draft.path⟩, s)

def readLines? : (bound : Nat) → Draft → Text → Option Members
  | 0, draft, s => if s.isEmpty then some draft.members else none
  | bound + 1, draft, s =>
    match skipBlanks s with
    | [] => some draft.members
    | s =>
      match afterLine? s with
      | some s => readLines? bound draft s
      | none => do
        let (draft, s) ← readEntry? draft s
        readLines? bound draft (← afterLine? s)

/-- The table that a document is. A byte order mark in front is passed over. -/
def read? (s : Text) : Option Members :=
  let s := match s with
    | '\uFEFF' :: rest => rest
    | _ => s
  readLines? (s.length + 1) {} s

end MarkupActions.Toml
