import MarkupActions.Attribute

/-!
# Screening of payloads

A writer that loses track of its own format leaves action tags in a file, or spells newlines as a
backslash and an n. Payloads that show it are turned down before they become an action.
-/

namespace MarkupActions

/-- How strictly payloads are screened. Zero turns a threshold off. -/
structure Screening where
  /-- From how many different raw tags on a payload is turned down. -/
  maxDistinctTags : UInt64 := 3
  /-- How many spelled newlines a payload may have. -/
  maxEscapedNewlines : UInt64 := 2
  /-- Whether an edit of the very file that the payload goes to is looked for. -/
  selfEdits : Bool := true
deriving DecidableEq

inductive Corruption where
  | nestedEdit (path : Text)
  | tagSoup (distinct : Nat)
  | escapedNewlines (escaped newlines : Nat)
deriving DecidableEq

def Corruption.message : Corruption → String
  | nestedEdit path => "payload contains a nested edit of " ++ String.ofList path
  | tagSoup distinct => "payload contains " ++ toString distinct ++ " distinct action tag patterns"
  | escapedNewlines escaped newlines =>
    "payload uses " ++ toString escaped ++ " escaped newlines against " ++ toString newlines ++
      " real ones"

namespace Screening

/-- A path as it is compared: forward slashes, and no `./` in front. -/
def normalPath (path : Text) : Text :=
  let path := (Text.trim path).map fun c => if c = '\\' then '/' else c
  ("./".toList.isPrefixOf? path).getD path

/-- An edit tag at the head of a text, as far as its first `>`. -/
def editTag? (s : Text) : Option Text :=
  match Text.afterFolded? "<edit".toList s with
  | some (c :: rest) =>
    if Text.isBlank c then some (s.take 5 ++ c :: rest.takeWhile (· != '>')) else none
  | _ => none

/-- The edit tags of a payload, each as far as its first `>`. -/
def editTags : Text → List Text
  | [] => []
  | c :: s =>
    match editTag? (c :: s) with
    | some tag => tag :: editTags (s.drop (tag.length - 1))
    | none => editTags s
termination_by s => s.length
decreasing_by all_goals (simp only [List.length_drop, List.length_cons]; omega)

def editTarget? (tag : Text) : Option Text :=
  (Attribute.find? tag "path".toList).or (Attribute.find? tag "file".toList)

def nestedEdit? (payload path : Text) : Option Corruption :=
  let target := normalPath path
  (editTags payload).findSome? fun tag =>
    (editTarget? tag).bind fun nested =>
      if normalPath nested = target then some (.nestedEdit target) else none

/-- A raw tag that is counted: how it begins, and whether white space may stand for its final `>`.
-/
structure RawTag where
  start : Text
  mayHaveAttributes : Bool

def rawTags : List RawTag :=
  [⟨"<edit".toList, true⟩, ⟨"</edit".toList, false⟩, ⟨"<bash".toList, true⟩,
    ⟨"</bash".toList, false⟩, ⟨"<say".toList, false⟩, ⟨"</say".toList, false⟩,
    ⟨"<write".toList, true⟩, ⟨"</write".toList, false⟩, ⟨"<create".toList, true⟩,
    ⟨"</create".toList, false⟩]

/-- Whether a raw tag stands at the head of a text. -/
def RawTag.startsHere (tag : RawTag) (s : Text) : Bool :=
  match Text.afterFolded? tag.start s with
  | some (c :: _) => c == '>' || (tag.mayHaveAttributes && Text.isBlank c)
  | _ => false

def RawTag.occurs (tag : RawTag) : Text → Bool
  | [] => false
  | c :: s => tag.startsHere (c :: s) || tag.occurs s

def tagSoup? (limit : Nat) (payload : Text) : Option Corruption :=
  let distinct := rawTags.countP (·.occurs payload)
  if limit ≠ 0 ∧ limit ≤ distinct then some (.tagSoup distinct) else none

/-- How many newlines of a payload are spelled: a backslash and an n, followed by an indentation of
two or more. -/
def escapedNewlines : Text → Nat
  | [] => 0
  | c :: s =>
    (match c, s with
      | '\\', 'n' :: d :: e :: _ => if Text.isSpaceOrTab d ∧ Text.isSpaceOrTab e then 1 else 0
      | _, _ => 0) + escapedNewlines s

def escapedNewlines? (limit : Nat) (payload : Text) : Option Corruption :=
  let escaped := escapedNewlines payload
  let newlines := Text.occurrences '\n' payload
  if limit ≠ 0 ∧ limit < escaped ∧ newlines < escaped then some (.escapedNewlines escaped newlines)
    else none

/-- Why a payload bound for `path` is turned down, if it is. -/
def check (screening : Screening) (payload path : Text) : Option Corruption :=
  (if screening.selfEdits then nestedEdit? payload path else none).or
    ((tagSoup? screening.maxDistinctTags.toNat payload).or
      (escapedNewlines? screening.maxEscapedNewlines.toNat payload))

end Screening

end MarkupActions
