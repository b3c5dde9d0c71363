import MarkupActions.Text.Basic
import MarkupActions.Code

/-!
# Payloads

How the body of a block becomes the text that a handler gets: one newline on either side goes, then
a fence that holds the whole of it, and last the entities are decoded.
-/

namespace MarkupActions

namespace Entity

/-- The entities that are decoded, in the order of decoding. The ampersand is last, so that what it
yields is not decoded again. -/
def table : List (Text × Char) :=
  [("&lt;".toList, '<'), ("&gt;".toList, '>'), ("&quot;".toList, '"'), ("&#39;".toList, '\''),
    ("&apos;".toList, '\''), ("&amp;".toList, '&')]

/-- Decodes one entity after the other, each in the whole text. -/
def decode (s : Text) : Text := table.foldl (fun s (entity, c) => Text.replaceAll entity [c] s) s

/-- Decodes all entities in one pass from left to right. -/
def decodeOnce (s : Text) : Text :=
  Text.patchAll (fun rest => table.findSome? fun (entity, c) =>
    if entity.isPrefixOf rest then some (entity.length, [c]) else none) s

end Entity

namespace Payload

def dropNewline (s : Text) : Text := (Text.afterNewline? s).getD s

def dropLastNewline (s : Text) : Text :=
  match s.reverse with
  | '\n' :: '\r' :: rest => rest.reverse
  | '\n' :: rest => rest.reverse
  | _ => s

def trimNewlines (s : Text) : Text := dropLastNewline (dropNewline s)

def afterRow? : Text → Option Text
  | [] => none
  | c :: s => if c = '\n' then some s else afterRow? s

/-- The inside of a text that is nothing but one fenced block. -/
def unfence? (s : Text) : Option Text := do
  let s := Text.trim s
  let mark ← s.head?
  let fence := [mark, mark, mark]
  if (mark ≠ Code.tick ∧ mark ≠ '~') ∨ !fence.isPrefixOf s then none
  else
    let rest ← afterRow? s
    let inside ← Text.beforeSuffix? fence rest
    if Text.contains fence inside then none
    else some ((Text.beforeSuffix? ['\n'] inside).getD inside)

def clean (body : Text) : Text :=
  let s := trimNewlines body
  Entity.decode ((unfence? s).getD s)

end Payload

end MarkupActions
