import ServerPages.Text.Basic

/-! The options of a check, as arguments give them. Settings have a value, either after `=` or as the
next argument; a value that comes as the next argument is looked at only when the next known option
starts or the arguments end, and so is a repetition of the setting. -/

namespace ServerPages

inductive OutputFormat where
  | human
  | humanVerbose
  | json
  | machine
  deriving DecidableEq, Repr

namespace OutputFormat

def label : OutputFormat → String
  | .human => "human"
  | .humanVerbose => "human-verbose"
  | .json => "json"
  | .machine => "machine"

def ofLabel? (t : Text) : Option OutputFormat :=
  [human, humanVerbose, json, machine].find? (·.label.toList == t)

end OutputFormat

structure Options where
  workspace : Text := ['.']
  /-- the file with the configuration, when it is not the one in the workspace -/
  config : Option Text := none
  output : OutputFormat := .human
  ignore : List Text := []
  emitTree : Bool := false
  timings : Bool := false
  deriving DecidableEq, Repr

inductive UsageError where
  | unknownArgument
  | invalidValue
  | tooManyValues
  | argumentConflict
  | displayHelp
  | displayVersion
  deriving DecidableEq, Repr

namespace Options

inductive Setting where
  | workspace
  | config
  | output
  | ignore
  deriving DecidableEq, Repr

inductive Switch where
  | emitTree
  | timings
  | help
  | version
  deriving DecidableEq, Repr

inductive Key where
  | setting (s : Setting)
  | switch (s : Switch)
  deriving DecidableEq, Repr

def keys : List (String × Key) :=
  [("workspace", .setting .workspace), ("config", .setting .config), ("output", .setting .output),
   ("ignore", .setting .ignore), ("emit-tree", .switch .emitTree), ("timings", .switch .timings),
   ("help", .switch .help), ("version", .switch .version)]

def Key.ofName? (name : Text) : Option Key :=
  (keys.find? fun entry => entry.1.toList == name).map Prod.snd

inductive Argument where
  /-- `--`, after which no option comes -/
  | separator
  /-- `--name` or `--name=value` -/
  | long (name : Text) (value : Option Text)
  /-- `-c`, whatever may follow the letter -/
  | short (letter : Char)
  | plain (text : Text)
  deriving DecidableEq, Repr

def Argument.ofText : Text → Argument
  | ['-', '-'] => .separator
  | '-' :: '-' :: option =>
    match Text.cut? option ['='] with
    | some (name, value) => .long name (some value)
    | none => .long option none
  | '-' :: letter :: _ => .short letter
  | text => .plain text

structure Reading where
  options : Options := {}
  /-- the options that may not come again -/
  given : List Key := []
  /-- a setting that is still to be looked at, and its value once it has come -/
  pending : Option (Setting × Option Text) := none
  deriving Repr

def set (o : Options) (setting : Setting) (value : Text) : Except UsageError Options :=
  match setting with
  | .workspace => .ok { o with workspace := value }
  | .config => .ok { o with config := some value }
  | .ignore => .ok { o with ignore := o.ignore ++ [value] }
  | .output =>
    match OutputFormat.ofLabel? value with
    | some output => .ok { o with output }
    | none => .error .invalidValue

namespace Reading

/-- Only patterns to ignore may be given more than once. -/
def give (r : Reading) (key : Key) : Except UsageError Reading :=
  if key = .setting .ignore then .ok r
  else if key ∈ r.given then .error .argumentConflict
  else .ok { r with given := key :: r.given }

def assign (r : Reading) (setting : Setting) (value : Text) : Except UsageError Reading := do
  let r ← r.give (.setting setting)
  return { r with options := ← r.options.set setting value }

/-- Looks at a setting that was left for later. -/
def settle (r : Reading) : Except UsageError Reading :=
  match r.pending with
  | none => .ok r
  | some (_, none) => .error .invalidValue
  | some (setting, some value) => assign { r with pending := none } setting value

def turnOn (r : Reading) (switch : Switch) : Except UsageError Reading := do
  match switch with
  | .help => .error .displayHelp
  | .version => .error .displayVersion
  | .emitTree =>
    let r ← r.give (.switch .emitTree)
    return { r with options := { r.options with emitTree := true } }
  | .timings =>
    let r ← r.give (.switch .timings)
    return { r with options := { r.options with timings := true } }

/-- One argument more. Nothing is looked at before an argument that is unknown or has a value too
many. -/
def take (r : Reading) : Argument → Except UsageError Reading
  | .separator => .ok r
  | .long name value =>
    match Key.ofName? name, value with
    | none, _ => .error .unknownArgument
    | some (.setting setting), some value => do (← r.settle).assign setting value
    | some (.setting setting), none => do return { ← r.settle with pending := some (setting, none) }
    | some (.switch _), some _ => .error .tooManyValues
    | some (.switch switch), none => do (← r.settle).turnOn switch
  | .short 'h' => do (← r.settle).turnOn .help
  | .short 'V' => do (← r.settle).turnOn .version
  | .short _ => .error .unknownArgument
  | .plain text =>
    match r.pending with
    | some (setting, none) => .ok { r with pending := some (setting, some text) }
    | _ => .error .unknownArgument

/-- All arguments in turn. After the separator there may be none. -/
def takeAll (r : Reading) : List Text → Except UsageError Options
  | [] => (·.options) <$> r.settle
  | argument :: arguments =>
    if argument = ['-', '-'] ∧ arguments ≠ [] then .error .unknownArgument
    else do takeAll (← r.take (.ofText argument)) arguments

end Reading

def ofArguments (arguments : List Text) : Except UsageError Options := Reading.takeAll {} arguments

end Options

end ServerPages
