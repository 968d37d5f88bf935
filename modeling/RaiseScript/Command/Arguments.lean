/-!
# Command line arguments

`parseArguments` reads the arguments of a command line from left to right. Flags may stand before
and after the name of the command; where both set a value, the later one wins, but no flag may be
given twice on the same side. After `--` everything is a plain argument.

A value that stands in an argument of its own is looked at when the next flag comes or the side
ends. So a bad value right before the name of a command does not keep that command from showing its
help.
-/

namespace RaiseScript

/-- How answers are written. -/
inductive Format where
  | text
  | json
deriving DecidableEq, Repr

/-- The commands. -/
inductive Verb where
  | lower
  | check
  | run
  | test
deriving DecidableEq, Repr

/-- The command with the given name. -/
def Verb.ofName? : String → Option Verb
  | "lower" => some .lower
  | "check" => some .check
  | "run" => some .run
  | "test" => some .test
  | _ => none

/-- The flags on one side of the command's name. -/
structure Flags where
  format : Option Format := none
  quiet : Bool := false
  verbose : Bool := false
  tempPrefix : Option String := none
deriving DecidableEq, Repr

/-- The flags of both sides; where both set a value, that of `inner` counts. -/
def Flags.over (inner outer : Flags) : Flags where
  format := inner.format <|> outer.format
  quiet := inner.quiet || outer.quiet
  verbose := inner.verbose || outer.verbose
  tempPrefix := inner.tempPrefix <|> outer.tempPrefix

/-- What a command line asks for. -/
inductive Request where
  | invoke (verb : Verb) (path : String) (flags : Flags)
  | version
  | help
  /-- The arguments make no sense. -/
  | usage
deriving DecidableEq, Repr

namespace Flags

/-- Sets the flag that shows less. -/
def setQuiet? (f : Flags) : Option Flags :=
  if f.quiet then none else some { f with quiet := true }

/-- Sets the flag that shows more. -/
def setVerbose? (f : Flags) : Option Flags :=
  if f.verbose then none else some { f with verbose := true }

/-- Sets the format by its name. -/
def setFormat? (f : Flags) (name : String) : Option Flags :=
  if f.format.isSome then none
  else if name == "text" then some { f with format := some .text }
  else if name == "json" then some { f with format := some .json }
  else none

/-- Sets the beginning of temporaries. -/
def setTempPrefix? (f : Flags) (text : String) : Option Flags :=
  if f.tempPrefix.isSome then none else some { f with tempPrefix := some text }

end Flags

/-- Whether an argument is a flag and not a plain argument. -/
def isFlag (arg : String) : Bool :=
  match arg.toList with
  | '-' :: _ :: _ => true
  | _ => false

/-- What a flag does. -/
inductive FlagEffect where
  | set (flags : Flags)
  /-- The flag takes the next argument as its value. -/
  | needsValue (set? : String → Option Flags)
  | stop (request : Request)

/-- A flag that could be set or not. -/
def FlagEffect.ofOption : Option Flags → FlagEffect
  | some f => .set f
  | none => .stop .usage

/-- What a flag with a long name does. The version can be asked for only at the top. -/
def longFlag (top : Bool) (f : Flags) (name : String) (value : Option String) : FlagEffect :=
  match name, value with
  | "quiet", none => .ofOption f.setQuiet?
  | "verbose", none => .ofOption f.setVerbose?
  | "output", none => .needsValue f.setFormat?
  | "output", some v => .ofOption (f.setFormat? v)
  | "temp-prefix", none => .needsValue f.setTempPrefix?
  | "temp-prefix", some v => .ofOption (f.setTempPrefix? v)
  | "version", none => .stop (if top then .version else .usage)
  | "help", none => .stop .help
  | _, _ => .stop .usage

/-- What flags with short names do, one after the other. -/
def shortFlags (top : Bool) (f : Flags) : List Char → FlagEffect
  | [] => .set f
  | 'v' :: cs =>
    match f.setVerbose? with
    | some f => shortFlags top f cs
    | none => .stop .usage
  | 'V' :: _ => .stop (if top then .version else .usage)
  | 'h' :: _ => .stop .help
  | _ => .stop .usage

/-- What an argument that is a flag does. -/
def flagEffect (top : Bool) (f : Flags) (arg : String) : FlagEffect :=
  match arg.toList with
  | '-' :: '-' :: cs =>
    let name := String.ofList (cs.takeWhile (· != '='))
    match cs.dropWhile (· != '=') with
    | [] => longFlag top f name none
    | _ :: value => longFlag top f name (some (String.ofList value))
  | _ :: cs => shortFlags top f cs
  | [] => .stop .usage

/-- The request when a command has all its arguments. Only the suite has a default. -/
def finish (verb : Verb) (path : Option String) (flags : Flags) : Request :=
  match verb, path with
  | _, some path => if path == "" then .usage else .invoke verb path flags
  | .test, none => .invoke .test "conformance" flags
  | _, none => .usage

/-- The arguments after the command's name. -/
def parseInner (verb : Verb) (outer : Flags) : Option String → Flags → List String → Request
  | path, f, [] => finish verb path (f.over outer)
  | path, f, arg :: rest =>
    if arg == "--" then
      match path, rest with
      | _, [] => finish verb path (f.over outer)
      | none, [arg] => finish verb (some arg) (f.over outer)
      | _, _ => .usage
    else if isFlag arg then
      match flagEffect false f arg with
      | .set f => parseInner verb outer path f rest
      | .stop request => request
      | .needsValue set? =>
        match rest with
        | [] => .usage
        | value :: rest =>
          if isFlag value then .usage
          else
            match set? value with
            | some f => parseInner verb outer path f rest
            | none => .usage
    else
      match path with
      | some _ => .usage
      | none => if arg == "" then .usage else parseInner verb outer (some arg) f rest

/-- The request for help, after the word. At most one command can be named, and nothing else. -/
def parseHelp : List String → Request
  | [] => .help
  | [name] => if name == "help" || (Verb.ofName? name).isSome then .help else .usage
  | _ => .usage

/-- The arguments up to the command's name. There are no flags if the last value was refused. -/
def parseOuter : Option Flags → List String → Request
  | _, [] => .usage
  | f, arg :: rest =>
    if arg == "--" then .usage
    else if isFlag arg then
      match f.map fun f => flagEffect true f arg with
      | none => .usage
      | some (.set f) => parseOuter (some f) rest
      | some (.stop request) => request
      | some (.needsValue set?) =>
        match rest with
        | [] => .usage
        | value :: rest => if isFlag value then .usage else parseOuter (set? value) rest
    else if arg == "help" then parseHelp rest
    else
      match Verb.ofName? arg, f with
      | some verb, some f => parseInner verb f none {} rest
      | some verb, none => if parseInner verb {} none {} rest = .help then .help else .usage
      | none, _ => .usage

/-- What a command line asks for. -/
def parseArguments (args : List String) : Request :=
  parseOuter (some {}) args

end RaiseScript
