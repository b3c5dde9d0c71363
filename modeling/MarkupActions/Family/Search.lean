import MarkupActions.Family.Basic

/-!
# Searching and listing
-/

namespace MarkupActions.Family

/-- The two repairs of a tag that may close itself. -/
def usualRepairs (list : List String) : List Repair :=
  [.unterminatedSelfClosing (names list), .unterminatedClosing (names list)]

def grepAction? (block : Block) : Option Action :=
  (block.valueOrBody? ["pattern", "query"]).map fun pattern =>
    .grep
      { pattern := String.ofList pattern
        path := block.string? ["path", "dir"]
        files := block.string? ["include", "glob"]
        ignoreCase := block.holds "case_insensitive" || block.holds "ignore_case" }

def grep : Family where
  tags := names ["grep"]
  selfClosing := names ["grep"]
  aliases := aliasesOf "grep" ["search-files"]
  repairs := usualRepairs ["grep", "search-files"]
  extract _ s := (structuralBlocks ["grep"] s).filterMap grepAction?

def globAction? (block : Block) : Option Action :=
  (block.valueOrBody? ["pattern"]).map fun pattern =>
    .glob ⟨String.ofList pattern, block.string? ["path", "dir"]⟩

def glob : Family where
  tags := names ["glob"]
  selfClosing := names ["glob"]
  aliases := aliasesOf "glob" ["find-files"]
  repairs := usualRepairs ["glob", "find-files"]
  extract _ s := (structuralBlocks ["glob"] s).filterMap globAction?

/-- Lists the current directory where none is named. -/
def listAction (block : Block) : Action :=
  .list ⟨String.ofList (((block.value? ["path", "dir"]).or block.bodyText?).getD ['.']),
    block.holds "recursive"⟩

def list : Family where
  tags := names ["list"]
  selfClosing := names ["list"]
  aliases := aliasesOf "list" ["ls", "list-dir"]
  repairs := usualRepairs ["list", "ls", "list-dir"]
  extract _ s := (structuralBlocks ["list"] s).map listAction

end MarkupActions.Family
