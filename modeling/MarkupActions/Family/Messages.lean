import MarkupActions.Family.Search

/-!
# Messages
-/

namespace MarkupActions.Family

def sayAction? (block : Block) : Option Action :=
  block.payload?.map fun text => .say (String.ofList text)

def say : Family where
  tags := names ["say"]
  bearsContent := true
  repairs := [.unterminatedClosing (names ["say"])]
  extract _ s := (contentBlocks ["say"] s).filterMap sayAction?

def notifyAction? (block : Block) : Option Action :=
  (block.valueOrBody? ["message"]).map fun message =>
    .notify ⟨String.ofList message, block.string? ["title"], block.string? ["priority"]⟩

def notify : Family where
  tags := names ["notify"]
  selfClosing := names ["notify"]
  repairs := usualRepairs ["notify"]
  extract _ s := (structuralBlocks ["notify"] s).filterMap notifyAction?

end MarkupActions.Family
