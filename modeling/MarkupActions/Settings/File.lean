import MarkupActions.Settings.Basic
import MarkupActions.Toml.Reader

/-!
# Settings files

Settings are kept in a TOML file with one table for each section. What is saved can be loaded again;
a threshold that no TOML integer can hold makes saving fail before anything is written.
-/

namespace MarkupActions.Settings

/-- The settings that the text of a file gives. A section may be an array, however long. -/
def parse? (s : Text) : Option Settings :=
  (Toml.read? s).bind fun members => ofJson? .ignored (.object (Toml.membersToJson members))

def textOf? (bytes : ByteArray) : Option Text := (String.fromUTF8? bytes).map String.toList

/-- Loads settings from the content of a file, if there is such a file. -/
def load (content : Option ByteArray) : Except SettingsError Settings :=
  match content with
  | none => .error (.io FileFault.missing.message)
  | some bytes =>
    match textOf? bytes with
    | none => .error (.io FileFault.notUtf8.message)
    | some s =>
      match parse? s with
      | none => .error (.invalid none)
      | some settings => .ok settings

def loadOrDefault (content : Option ByteArray) : Settings :=
  match load content with
  | .ok settings => settings
  | .error _ => {}

/-- An array of strings: on one line if it has at most one, else one on a line. -/
def writeStrings : List String → Text
  | [] => ['[', ']']
  | [s] => ['['] ++ Toml.writeString s.toList ++ [']']
  | items =>
    "[\n".toList ++ items.flatMap (fun s =>
      "    ".toList ++ Toml.writeString s.toList ++ ",\n".toList) ++ [']']

def writeBool (b : Bool) : Text := if b then "true".toList else "false".toList

def writeWord (n : UInt64) : Text := (toString n.toNat).toList

def maxInteger : Nat := 9223372036854775807

def fits (settings : Settings) : Bool :=
  settings.parser.screening.maxDistinctTags.toNat ≤ maxInteger &&
    settings.parser.screening.maxEscapedNewlines.toNat ≤ maxInteger

def line (key : String) (value : Text) : Text := key.toList ++ " = ".toList ++ value ++ ['\n']

def write (settings : Settings) : Text :=
  let screening := settings.parser.screening
  "[general]\n".toList ++ line "log_level" (Toml.writeString settings.logLevel.toList) ++
    "\n[parser]\n".toList ++ line "disabled_tags" (writeStrings settings.parser.disabledTags) ++
    line "max_distinct_action_tags" (writeWord screening.maxDistinctTags) ++
    line "max_escaped_newlines" (writeWord screening.maxEscapedNewlines) ++
    line "detect_self_edit" (writeBool screening.selfEdits) ++
    "\n[executor]\n".toList ++ line "one_at_a_time" (writeBool settings.oneAtATime)

def save (settings : Settings) : Except SettingsError Text :=
  if settings.fits then .ok settings.write else .error (.invalid none)

/-- Saves settings to a file, whose content is the state. Nothing is written before there is a text
to write. That the folder of the file is there or can be made, and that the file can be written, is
taken for granted: the error that the system gives where it is not so is left out. -/
def saveTo (settings : Settings) : ExceptT SettingsError (StateM (Option ByteArray)) Unit := do
  let s ← ofExcept settings.save
  set (some (String.ofList s).toUTF8)

end MarkupActions.Settings
