import MarkupActions.Text.Fold

/-!
# Spellings

A tag may be written with hyphens or with underscores. Its spellings are the tag as given and the
two forms in which all separators are of one kind, in lower case.
-/

namespace MarkupActions.Spelling

def swap (old new : Char) (s : Text) : Text := s.map fun c => if c = old then new else c

def ofTag (tag : Text) : List Text :=
  let tag := Text.lower tag
  [tag, swap '-' '_' tag, swap '_' '-' tag].eraseDups

/-- The ways to write some tags, each once, in the order of the tags. -/
def ofTags (tags : List Text) : List Text := (tags.flatMap ofTag).eraseDups

end MarkupActions.Spelling
