import MarkupActions.Family.Basic

/-!
# Shell commands

The body of a command keeps its backticks, so its blocks are guarded.
-/

namespace MarkupActions.Family

def bashAction? (block : Block) : Option Action :=
  (block.valueOrBody? ["command", "cmd"]).map fun command =>
    .bash
      { command := String.ofList command
        timeout := (block.number? "timeout").or (block.number? "timeout_ms")
        background := block.holds "background"
        description := block.string? ["description"]
        directory := block.string? ["cwd", "workdir"] }

def bash : Family where
  tags := names ["bash"]
  selfClosing := names ["bash"]
  aliases := aliasesOf "bash" ["shell", "run"]
  guarded := names ["bash"]
  repairs := [.unterminatedClosing (names ["bash", "shell", "run"])]
  extract _ s := (structuralBlocks ["bash"] s).filterMap bashAction?

end MarkupActions.Family
