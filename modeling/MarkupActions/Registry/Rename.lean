import MarkupActions.Registry.Table

/-!
# Renaming

Every name of a tag that a table knows becomes its canonical tag. The body of a closed block that
bears content is left alone, so a payload may speak of any tag.
-/

namespace MarkupActions

/-- `<name` or `</name`. -/
structure TagToken where
  closing : Bool
  name : Text

namespace TagToken

/-- How many characters stand before the name. -/
def lead (token : TagToken) : Nat := if token.closing then 2 else 1

def startsName (c : Char) : Bool := (Text.fold c).isLower

def name? : Text → Option Text
  | [] => none
  | c :: s => if startsName c then some (c :: s.takeWhile Text.isNameChar) else none

def read? : Text → Option TagToken
  | '<' :: '/' :: s => (name? s).map (⟨true, ·⟩)
  | '<' :: s => (name? s).map (⟨false, ·⟩)
  | _ => none

/-- Whether the tag that goes on like this ends in a slash: the last character before its `>` that
is neither blank nor in quotes. The first argument is the quote that is open, the second whether
that character was a slash. -/
def endsInSlash : Option Char → Bool → Text → Bool
  | _, _, [] => false
  | some quote, slash, c :: s => endsInSlash (if c = quote then none else some quote) slash s
  | none, slash, c :: s =>
    if c = '"' ∨ c = '\'' then endsInSlash (some c) slash s
    else if c = '>' then slash
    else if c = '<' then false
    else endsInSlash none (if Text.isBlank c then slash else c == '/') s

end TagToken

namespace SpellingTable

/-- Length, without the `>`, of a closing tag at the head of a text whose name stands for `tag`. -/
def closes? (table : SpellingTable) (tag : Text) (s : Text) : Option Nat :=
  match TagToken.read? s with
  | some ⟨true, name⟩ =>
    match Text.trimStart (s.drop (name.length + 2)) with
    | '>' :: _ => if table.canonical? name = some tag then some (name.length + 2) else none
    | _ => none
  | _ => none

def rename (table : SpellingTable) : Text → Text
  | [] => []
  | c :: s =>
    match TagToken.read? (c :: s) with
    | none => c :: table.rename s
    | some token =>
      match table.canonical? token.name with
      | none => c :: table.rename s
      | some tag =>
        let front := (c :: s).take token.lead ++ tag
        let rest := s.drop (token.lead + token.name.length - 1)
        if token.closing || !table.isContent tag || TagToken.endsInSlash none false rest then
          front ++ table.rename rest
        else match closing? .content (table.closes? tag) rest with
          | none => front ++ table.rename rest
          | some (pos, n) =>
            front ++ rest.take (pos + 2) ++ tag ++ table.rename (rest.drop (pos + n))
termination_by s => s.length
decreasing_by all_goals (simp only [List.length_drop, List.length_cons]; omega)

end SpellingTable

end MarkupActions
