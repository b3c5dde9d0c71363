import MarkupActions.Text.Fold

/-!
# Closing tags

`</name>` in any letter case, with white space allowed before the `>`.
-/

namespace MarkupActions.ClosingTag

/-- How long the closing tag of `name`, in lower case, is that stands at the head of a text. -/
def length? (name : Text) (s : Text) : Option Nat :=
  match Text.afterLower? ('<' :: '/' :: name) s with
  | none => none
  | some rest =>
    let blanks := (rest.takeWhile Text.isBlank).length
    match rest.drop blanks with
    | '>' :: _ => some (name.length + 2 + blanks + 1)
    | _ => none

def firstEnd? (name : Text) : Text → Option Nat
  | [] => none
  | c :: s =>
    match length? name (c :: s) with
    | some n => some n
    | none => (firstEnd? name s).map (· + 1)

end MarkupActions.ClosingTag
