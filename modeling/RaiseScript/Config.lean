import RaiseScript.Files.Basic
import RaiseScript.Files.Path
import RaiseScript.Settings

/-!
# Where options come from

The options for a program are the defaults, changed by the settings file beside the program, changed
by what the command line says.
-/

namespace RaiseScript

/-- Why there are no options. -/
inductive ConfigError where
  | unreadable (path : String) (e : ReadError)
  | invalid (path : String) (e : SettingsError)
  | refused (e : OptionsError)
deriving DecidableEq, Repr

/-- The wording of a missing configuration. -/
def ConfigError.message : ConfigError → String
  | .unreadable path e => "error reading config '" ++ path ++ "': " ++ e.message
  | .invalid path e => "invalid config '" ++ path ++ "': " ++ e.message
  | .refused e => e.message

/-- The settings file for a program. -/
def configPath (input : String) : String :=
  Path.join ((Path.parent? input).getD ".") "tryexpr.toml"

variable {m : Type → Type} [Monad m]

/-- The options in a settings file, the defaults if there is none. -/
def configured (fs : Files m) (path : String) : ExceptT ConfigError m Options := do
  if (← fs.kind? path) != some .file then return {}
  else
    match ← fs.read path with
    | .error e => throw (.unreadable path e)
    | .ok text =>
      match readSettings text with
      | .error e => throw (.invalid path e)
      | .ok options => return options

/-- The options for a program. A beginning for temporaries given on the command line wins. -/
def loadOptions (fs : Files m) (input : String) (tempPrefix : Option String) :
    ExceptT ConfigError m Options := do
  let options ← configured fs (configPath input)
  let options := { options with tempPrefix := tempPrefix.getD options.tempPrefix }
  match options.check with
  | .error e => throw (.refused e)
  | .ok _ => return options

end RaiseScript
