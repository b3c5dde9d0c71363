import MarkupActions.Action.Form
import MarkupActions.CommandLine.Arguments
import MarkupActions.Registry.Extract
import MarkupActions.Settings.File
import MarkupActions.Staging

/-!
# Sessions

What one run of the program does. It sees files, variables and its input only through a `World`, so
the same definition serves the program and any account of what it would do. Bad arguments end with
code 2, an input that cannot be read with code 1.
-/

namespace MarkupActions.CommandLine

/-- What a session can look at. -/
structure World (m : Type → Type) where
  /-- The content of a file; none if it cannot be read. -/
  content? : String → m (Option ByteArray)
  lookup? : String → m (Option String)
  input : m ByteArray

structure Ending where
  code : UInt32
  output : String
deriving DecidableEq

def versionLine : String := "actiontag 0.1.0\n"

def usage : String :=
  "Usage: actiontag [--config PATH] [--log-level LEVEL] parse [FILE] | run [FILE] [--all] | tags\n"

variable {m : Type → Type} [Monad m]

def inDirectory (directory file : String) : String :=
  if directory = "" || directory.endsWith "/" then directory ++ file else directory ++ "/" ++ file

/-- Where the settings are: as the arguments say, or a variable, or in the home directory, or right
here. -/
def settingsPath (world : World m) (config : Option String) : m String := do
  match config with
  | some path => pure path
  | none =>
    match ← world.lookup? "ACTIONTAG_CONFIG" with
    | some path => pure path
    | none =>
      match ← world.lookup? "HOME" with
      | some home => pure (inDirectory home ".actiontag/config.toml")
      | none => pure "config.toml"

/-- The text of a file, or of the input where none is named. -/
def readText (world : World m) (file : Option String) : m (Option Text) := do
  let bytes ← match file with
    | some name => world.content? name
    | none => some <$> world.input
  pure (bytes.bind Settings.textOf?)

/-- The actions that a text asks for under some settings. -/
def actionsOf (settings : ParserSettings) (s : Text) : List Action :=
  settings.registry.extract settings.screening s

def printed (items : List Json) : Ending := ⟨0, (Json.array items).pretty ++ "\n"⟩

def dryRun (oneAtATime : Bool) (actions : List Action) : List ActionResult :=
  ((Staging.handlers Unit).run oneAtATime actions ()).1

/-- One line for each canonical tag, with the part that its family takes. -/
def tagLines (registry : Registry) : String :=
  String.join (registry.families.flatMap fun family =>
    family.canonicalTags.map fun tag =>
      String.ofList tag ++ "\t" ++ (if family.bearsContent then "content" else "structural") ++
        "\n")

def runCommand (world : World m) (settings : Settings) (command : Command) : m Ending := do
  match command with
  | .tags => pure ⟨0, tagLines settings.parser.registry⟩
  | .parse file =>
    match ← readText world file with
    | none => pure ⟨1, ""⟩
    | some s => pure (printed ((actionsOf settings.parser s).map Action.toJson))
  | .run file all =>
    match ← readText world file with
    | none => pure ⟨1, ""⟩
    | some s =>
      let results := dryRun (settings.oneAtATime && !all) (actionsOf settings.parser s)
      pure (printed (results.map ActionResult.toJson))

def session (world : World m) (arguments : List String) : m Ending := do
  match read arguments with
  | .error _ => pure ⟨2, ""⟩
  | .ok .version => pure ⟨0, versionLine⟩
  | .ok .help => pure ⟨0, usage⟩
  | .ok (.command config _ command) =>
    let path ← settingsPath world config
    runCommand world (Settings.loadOrDefault (← world.content? path)) command

end MarkupActions.CommandLine
