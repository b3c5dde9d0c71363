import MarkupActions.Action.Basic
import MarkupActions.Block.Extent
import MarkupActions.Payload
import MarkupActions.Repair
import MarkupActions.Screening

/-!
# Families

A family is what one kind of tag contributes: the names it goes by, how it takes part in the
preparation of a text, and what it reads off the prepared text.
-/

namespace MarkupActions

structure Family where
  /-- The canonical tags. -/
  tags : List Text
  /-- Tags that may be written `<tag/>`. -/
  selfClosing : List Text := []
  /-- Other names, each with the canonical tag that it stands for. -/
  aliases : List (Text × Text) := []
  /-- Whether the blocks bear content. Such blocks are read first and cut out before any other
  family reads. -/
  bearsContent : Bool := false
  /-- Tags whose blocks keep their code marks. -/
  guarded : List Text := []
  repairs : List Repair := []
  /-- Tags whose blocks are taken out once the family has read the text. -/
  retired : List Text := []
  /-- The actions that a prepared text holds. -/
  extract : Screening → Text → List Action

namespace Family

def inLowerCase (family : Family) : Family :=
  { family with
    tags := family.tags.map Text.lower
    selfClosing := family.selfClosing.map Text.lower
    aliases := family.aliases.map fun (other, tag) => (Text.lower other, Text.lower tag)
    guarded := family.guarded.map Text.lower
    retired := family.retired.map Text.lower }

/-- The canonical tags, those that may close themselves included, each once. -/
def canonicalTags (family : Family) : List Text := (family.tags ++ family.selfClosing).eraseDups

/-- Whether a name, in any letter case, is one of the canonical tags. -/
def owns (family : Family) (name : Text) : Bool := family.canonicalTags.contains (Text.lower name)

/-- A text without the blocks that the family takes out. -/
def retire (family : Family) (s : Text) : Text :=
  if family.retired.isEmpty then s else (Matcher.of .structural family.retired).removeBlocks s

end Family

def names (list : List String) : List Text := list.map String.toList

def aliasesOf (tag : String) (list : List String) : List (Text × Text) :=
  list.map fun other => (other.toList, tag.toList)

/-- The blocks of some tags whose bodies are plain text. -/
def contentBlocks (tags : List String) (s : Text) : List Block :=
  (Matcher.of .content (names tags)).blocks s

/-- The blocks of some tags that do not nest. -/
def structuralBlocks (tags : List String) (s : Text) : List Block :=
  (Matcher.of .structural (names tags)).blocks s

namespace Block

def raw? (block : Block) (name : String) : Option Text := Attribute.find? block.tag.text name.toList

def value? (block : Block) (list : List String) : Option Text :=
  Attribute.first? block.tag.text (names list)

def holds (block : Block) (name : String) : Bool := Attribute.holds block.tag.text name.toList

def decision? (block : Block) (name : String) : Option Bool :=
  Attribute.decision? block.tag.text name.toList

def number? (block : Block) (name : String) : Option UInt64 :=
  Attribute.number? block.tag.text name.toList

end Block

def nonempty? (s : Text) : Option Text := if s.isEmpty then none else some s

namespace Block

def bodyText? (block : Block) : Option Text :=
  block.body?.bind fun body => nonempty? (Entity.decode (Text.trim body))

def payload? (block : Block) : Option Text :=
  block.body?.bind fun body => nonempty? (Payload.clean (Text.trim body))

/-- The decoded value of an attribute, or else the body. -/
def valueOrBody? (block : Block) (list : List String) : Option Text :=
  ((block.value? list).map Entity.decode).or block.bodyText?

def string? (block : Block) (list : List String) : Option String :=
  (block.value? list).map String.ofList

end Block

end MarkupActions
