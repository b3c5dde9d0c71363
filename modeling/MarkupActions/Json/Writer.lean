import MarkupActions.Json.Basic
import MarkupActions.Text.Digit

/-!
# Writing JSON

Two layouts: `compact` without any white space, and `pretty` with two blanks a level. Escaped are
the quote, the backslash and the control characters below U+0020, and nothing else.
-/

namespace MarkupActions.Json

/-- The control characters that have an escape of one letter. -/
def letterEscapes : List (Char × Char) :=
  [('\x08', 'b'), ('\t', 't'), ('\n', 'n'), ('\x0c', 'f'), ('\r', 'r')]

def writeChar (c : Char) : Text :=
  if c = '"' ∨ c = '\\' then ['\\', c]
  else match letterEscapes.lookup c with
    | some letter => ['\\', letter]
    | none =>
      if c.val < 0x20 then ['\\', 'u', '0', '0', Text.hexDigit (c.toNat / 16),
        Text.hexDigit (c.toNat % 16)]
      else [c]

def writeString (s : String) : Text := '"' :: (s.toList.flatMap writeChar ++ ['"'])

def writeInteger (n : Int) : Text := (toString n).toList

mutual

def write : Json → Text
  | null => "null".toList
  | bool true => "true".toList
  | bool false => "false".toList
  | integer n => writeInteger n
  | fraction written => written.toList
  | string s => writeString s
  | array [] => ['[', ']']
  | array (item :: items) => '[' :: (write item ++ writeItems items)
  | object [] => ['\x7b', '\x7d']
  | object ((name, value) :: members) =>
    '\x7b' :: (writeString name ++ ':' :: write value ++ writeMembers members)

def writeItems : List Json → Text
  | [] => [']']
  | item :: items => ',' :: (write item ++ writeItems items)

def writeMembers : List (String × Json) → Text
  | [] => ['\x7d']
  | (name, value) :: members =>
    ',' :: (writeString name ++ ':' :: write value ++ writeMembers members)

end

def newline (level : Nat) : Text := '\n' :: List.replicate (2 * level) ' '

mutual

def layOut (level : Nat) : Json → Text
  | array (item :: items) =>
    '[' :: (newline (level + 1) ++ layOut (level + 1) item ++ layOutItems level items)
  | object ((name, value) :: members) =>
    '\x7b' :: (newline (level + 1) ++ writeString name ++ ':' :: ' ' :: layOut (level + 1) value ++
      layOutMembers level members)
  | j => write j

def layOutItems (level : Nat) : List Json → Text
  | [] => newline level ++ [']']
  | item :: items =>
    ',' :: (newline (level + 1) ++ layOut (level + 1) item ++ layOutItems level items)

def layOutMembers (level : Nat) : List (String × Json) → Text
  | [] => newline level ++ ['\x7d']
  | (name, value) :: members =>
    ',' :: (newline (level + 1) ++ writeString name ++ ':' :: ' ' :: layOut (level + 1) value ++
      layOutMembers level members)

end

def compact (j : Json) : String := String.ofList (write j)

def pretty (j : Json) : String := String.ofList (layOut 0 j)

end MarkupActions.Json
