import MarkupActions.Json.Record
import MarkupActions.Registry.Basic

/-!
# Settings

Three sections, each with defaults for what it does not mention. Unknown names are passed over; a
value of the wrong type makes the whole invalid.
-/

namespace MarkupActions

/-- Which families are off, and how payloads are screened. -/
structure ParserSettings where
  disabledTags : List String := []
  screening : Screening := {}
deriving DecidableEq

structure Settings where
  logLevel : String := "info"
  parser : ParserSettings := {}
  oneAtATime : Bool := true
deriving DecidableEq

inductive FileFault where
  | missing
  | notUtf8
deriving DecidableEq

def FileFault.message : FileFault → String
  | missing => "No such file or directory (os error 2)"
  | notUtf8 => "stream did not contain valid UTF-8"

/-- Why settings cannot be loaded or saved. What the library for the file format says of a file that
it cannot read or write is not known here. -/
inductive SettingsError where
  | invalid (reason : Option String)
  | io (reason : String)
deriving DecidableEq

def SettingsError.message : SettingsError → String
  | invalid reason => "Configuration error: " ++ reason.getD ""
  | io reason => "I/O error: " ++ reason

namespace ParserSettings

open Json (withDefault? strings? word? bool?)

def ofJson? (surplus : Json.Surplus) (j : Json) : Option ParserSettings := do
  let m ← j.record? surplus
    ["disabled_tags", "max_distinct_action_tags", "max_escaped_newlines", "detect_self_edit"]
  some
    { disabledTags := ← withDefault? strings? [] "disabled_tags" m
      screening :=
        { maxDistinctTags := ← withDefault? word? 3 "max_distinct_action_tags" m
          maxEscapedNewlines := ← withDefault? word? 2 "max_escaped_newlines" m
          selfEdits := ← withDefault? bool? true "detect_self_edit" m } }

def toJson (settings : ParserSettings) : Json :=
  .object
    [("disabled_tags", Json.strings settings.disabledTags),
      ("max_distinct_action_tags", Json.ofWord settings.screening.maxDistinctTags),
      ("max_escaped_newlines", Json.ofWord settings.screening.maxEscapedNewlines),
      ("detect_self_edit", .bool settings.screening.selfEdits)]

/-- The built-in families less those that are off. -/
def registry (settings : ParserSettings) : Registry :=
  Registry.builtIn.unregister (settings.disabledTags.map String.toList)

end ParserSettings

namespace Settings

open Json (withDefault? bool? string?)

def logLevelOfJson? (surplus : Json.Surplus) (j : Json) : Option String := do
  withDefault? string? "info" "log_level" (← j.record? surplus ["log_level"])

def oneAtATimeOfJson? (surplus : Json.Surplus) (j : Json) : Option Bool := do
  withDefault? bool? true "one_at_a_time" (← j.record? surplus ["one_at_a_time"])

def ofJson? (surplus : Json.Surplus) (j : Json) : Option Settings := do
  let m ← j.record? surplus ["general", "parser", "executor"]
  some
    { logLevel := ← withDefault? (logLevelOfJson? surplus) "info" "general" m
      parser := ← withDefault? (ParserSettings.ofJson? surplus) {} "parser" m
      oneAtATime := ← withDefault? (oneAtATimeOfJson? surplus) true "executor" m }

def toJson (settings : Settings) : Json :=
  .object
    [("general", .object [("log_level", .string settings.logLevel)]),
      ("parser", settings.parser.toJson),
      ("executor", .object [("one_at_a_time", .bool settings.oneAtATime)])]

end Settings

end MarkupActions
