import MarkupActions.Family.Search

/-!
# Fetching

The address is an attribute, and then the body is a question about what is there; or the body is the
address.
-/

namespace MarkupActions.Family

def isWebAddress (s : Text) : Bool :=
  ("http://".toList.isPrefixOf s || "https://".toList.isPrefixOf s) && !s.any Text.isBlank

def fetchAction? (block : Block) : Option Action :=
  let body := block.bodyText?
  match block.value? ["url", "href"] with
  | some url => some (.fetch ⟨String.ofList (Entity.decode url), body.map String.ofList⟩)
  | none =>
    body.bind fun url => if isWebAddress url then some (.fetch ⟨String.ofList url, none⟩) else none

def fetch : Family where
  tags := names ["fetch"]
  selfClosing := names ["fetch"]
  aliases := aliasesOf "fetch" ["web-fetch"]
  repairs := usualRepairs ["fetch", "web-fetch"]
  extract _ s := (structuralBlocks ["fetch"] s).filterMap fetchAction?

end MarkupActions.Family
