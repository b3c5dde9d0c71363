import MarkupActions.Family.Basic

/-!
# Spelling tables

Which canonical tag a name stands for. A spelling belongs to the family that came first with it, and
within a family to the tag or alias that came first. `canonical?` looks into the table; `earliest?`
goes through the families themselves.
-/

namespace MarkupActions

structure SpellingTable where
  /-- Spellings with their canonical tags, each spelling once. -/
  entries : List (Text × Text) := []
  /-- Canonical tags of blocks that bear content. -/
  contentTags : List Text := []
  guardedTags : List Text := []

namespace SpellingTable

/-- Enters one spelling, unless it is taken. -/
def enter (canonical : Text) (entries : List (Text × Text)) (spelling : Text) :
    List (Text × Text) :=
  if (entries.lookup spelling).isSome then entries else entries ++ [(spelling, canonical)]

def insert (entries : List (Text × Text)) (entry : Text × Text) : List (Text × Text) :=
  (Spelling.ofTag entry.1).foldl (enter entry.2) entries

/-- The names of a family with the tags that they stand for. -/
def entriesOf (family : Family) : List (Text × Text) :=
  (family.canonicalTags.map fun tag => (tag, tag)) ++ family.aliases

def add (table : SpellingTable) (family : Family) : SpellingTable where
  entries := (entriesOf family).foldl insert table.entries
  contentTags := table.contentTags ++ if family.bearsContent then family.canonicalTags else []
  guardedTags := table.guardedTags ++ family.guarded

/-- The table of some families, those in front first. -/
def ofFamilies (families : List Family) : SpellingTable := families.foldl add {}

/-- The canonical tag of a name in any letter case. -/
def canonical? (table : SpellingTable) (name : Text) : Option Text :=
  table.entries.lookup (Text.lower name)

/-- The canonical tag of the first name, in the order of the families, that may be written like
this. -/
def earliest? (families : List Family) (name : Text) : Option Text :=
  ((families.flatMap entriesOf).find? fun entry =>
    (Spelling.ofTag entry.1).contains (Text.lower name)).map (·.2)

def isContent (table : SpellingTable) (tag : Text) : Bool := table.contentTags.contains tag

def size (table : SpellingTable) : Nat := table.entries.length

def isEmpty (table : SpellingTable) : Bool := table.entries.isEmpty

/-- The blocks that bear content, under their canonical tags. -/
def contentMatcher (table : SpellingTable) : Matcher := .of .content table.contentTags

/-- The blocks that bear content, however they are spelled. -/
def anySpellingMatcher (table : SpellingTable) : Matcher :=
  .of .content ((table.entries.filter fun entry => table.isContent entry.2).map (·.1))

/-- The blocks that keep their code marks. -/
def guardedMatcher (table : SpellingTable) : Matcher :=
  table.contentMatcher.addAll table.guardedTags .structural

end SpellingTable

end MarkupActions
