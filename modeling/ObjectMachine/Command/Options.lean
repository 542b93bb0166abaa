import ObjectMachine.Text.Based
import ObjectMachine.Text.Quoted

/-! The options of the command line. An option starts with one or two hyphens, its value
follows after an equals sign or, when it needs one, as the next argument. The first
argument that is no option ends them, and so do two hyphens alone. -/

namespace ObjectMachine.Command

structure Options where
  verbosity : Int64 := 0
  logFile : Text := []
  /-- Print the listing instead of running. -/
  listing : Bool := false
  /-- Write an image instead of running. -/
  compile : Bool := false
  /-- Where to write the image, empty for the usual place. -/
  output : Text := []
  classes : Bool := false
  /-- The profile database, empty for none. -/
  profile : Text := []
  /-- List the saved runs. -/
  runs : Bool := false
  /-- A pool size above zero counts. -/
  poolSize : Int64 := 0
  debugMethods : Bool := false
  deriving DecidableEq

/-- An option by the kind of its value. -/
inductive OptionKind
  | switch (set : Options → Bool → Options)
  /-- A level that every use without a value raises by one. -/
  | level
  | text (set : Options → Text → Options)
  | integer (set : Options → Int64 → Options)

def known : List (Text × OptionKind) :=
  [("v", .level),
   ("log", .text fun o t => { o with logFile := t }),
   ("d", .switch fun o b => { o with listing := b }),
   ("c", .switch fun o b => { o with compile := b }),
   ("o", .text fun o t => { o with output := t }),
   ("classes", .switch fun o b => { o with classes := b }),
   ("profile", .text fun o t => { o with profile := t }),
   ("runs", .switch fun o b => { o with runs := b }),
   ("pool", .integer fun o n => { o with poolSize := n }),
   ("debug-methods", .switch fun o b => { o with debugMethods := b })]

/-- Why the arguments are not understood. -/
inductive OptionError
  /-- Help was asked for. -/
  | help
  | badForm (argument : Text)
  | unknown (name : Text)
  | noValue (name : Text)
  | badSwitch (name value : Text)
  | badLevel (name value : Text)
  | badInteger (name value : Text) (error : Text.IntegerError)
  deriving DecidableEq

/-- What is printed above the usage; nothing when help was asked for. -/
def OptionError.message : OptionError → Text
  | help => []
  | badForm argument => "bad flag syntax: " ++ argument ++ "\n"
  | unknown name => "flag provided but not defined: -" ++ name ++ "\n"
  | noValue name => "flag needs an argument: -" ++ name ++ "\n"
  | badSwitch name value =>
    "invalid boolean value " ++ value.quote ++ " for -" ++ name ++ ": parse error\n"
  | badLevel name value =>
    "invalid boolean value " ++ value.quote ++ " for -" ++ name ++ ": bad verbosity "
      ++ value.quote ++ "\n"
  | badInteger name value error =>
    let why : Text := if error = .outOfRange then "value out of range" else "parse error"
    "invalid value " ++ value.quote ++ " for flag -" ++ name ++ ": " ++ why ++ "\n"

def readSwitch? (value : Text) : Option Bool :=
  if (["1", "t", "T", "TRUE", "true", "True"] : List Text).contains value then some true
  else if (["0", "f", "F", "FALSE", "false", "False"] : List Text).contains value then
    some false
  else none

/-- Sets a level: up by one for the word of a switch that is on, else a number from
zero on. -/
def setLevel? (o : Options) (value : Text) : Option Options :=
  if value = Text.ofString "true" then some { o with verbosity := o.verbosity + 1 }
  else do
    let n ← Text.readInt64? value
    if n < 0 then none else return { o with verbosity := n }

/-- Whether an option takes the next argument when it has no value of its own. -/
def OptionKind.needsValue : OptionKind → Bool
  | switch _ => false
  | level => false
  | text _ => true
  | integer _ => true

def OptionKind.apply (k : OptionKind) (o : Options) (name value : Text) :
    Except OptionError Options :=
  match k with
  | switch set =>
    match readSwitch? value with
    | some b => .ok (set o b)
    | none => .error (.badSwitch name value)
  | level =>
    match setLevel? o value with
    | some o => .ok o
    | none => .error (.badLevel name value)
  | text set => .ok (set o value)
  | integer set =>
    match Text.readBased value with
    | .ok n => .ok (set o n)
    | .error e => .error (.badInteger name value e)

/-- What an argument is. -/
inductive Argument
  /-- No option, nor are the arguments after it. -/
  | operand
  /-- The end of the options, itself left out. -/
  | stop
  | bad
  | option (name : Text) (value : Option Text)

/-- Splits the text after the hyphens at its first equals sign. -/
def splitOption (t : Text) : Argument :=
  let isStart := fun (b : UInt8) => b == Text.byte '-' || b == Text.byte '='
  if (t.head?.map isStart).getD true then .bad
  else match t.cut (Text.byte '=') with
    | some (name, value) => .option name (some value)
    | none => .option t none

def Argument.of : Text → Argument
  | a :: b :: rest =>
    if a != Text.byte '-' then .operand
    else if b != Text.byte '-' then splitOption (b :: rest)
    else if rest.isEmpty then .stop
    else splitOption rest
  | _ => .operand

/-- Reads the options; the answer has the arguments after them. -/
def parse (o : Options) : List Text → Except OptionError (Options × List Text)
  | [] => .ok (o, [])
  | argument :: rest =>
    match Argument.of argument with
    | .operand => .ok (o, argument :: rest)
    | .stop => .ok (o, rest)
    | .bad => .error (.badForm argument)
    | .option name value =>
      match known.lookup name with
      | none =>
        if name = Text.ofString "help" ∨ name = Text.ofString "h" then .error .help
        else .error (.unknown name)
      | some kind =>
        match value, rest with
        | some value, rest => do parse (← kind.apply o name value) rest
        | none, [] =>
          if kind.needsValue then .error (.noValue name)
          else do return (← kind.apply o name "true", [])
        | none, next :: after =>
          if kind.needsValue then do parse (← kind.apply o name next) after
          else do parse (← kind.apply o name "true") (next :: after)

/-- The lines printed when the arguments are not understood. -/
def usageLines : List Text :=
  ["Usage: embery [options] [file.easm|file.ebi]",
   "",
   "Runs a code block. Without a file, the entry of the nearest embery.toml is used.",
   "",
   "Options:",
   "  -c\tWrite an image instead of running",
   "  -classes",
   "    \tPrint the class tree after the run",
   "  -d\tPrint the disassembly instead of running",
   "  -debug-methods",
   "    \tInstall object_id, instance_methods and friends",
   "  -log string",
   "    \tWrite the log to this file instead of stderr",
   "  -o string",
   "    \tImage path for -c (default: input with .ebi)",
   "  -pool int",
   "    \tMemory pool size in bytes",
   "  -profile string",
   "    \tSave the dispatch profile to this sqlite database",
   "  -runs",
   "    \tList the runs saved in the profile database",
   "  -v\tVerbose logging (repeat for more detail)",
   "",
   "Examples:",
   "  embery main.easm                    # Run a script",
   "  embery -d main.ebi                  # Disassemble an image",
   "  embery -c main.easm -o main.ebi     # Assemble to an image",
   "  embery -profile prof.db main.easm   # Run and save the dispatch profile",
   "  embery -profile prof.db -runs       # List saved profiles"]

def usage : Text := usageLines.flatMap (· ++ "\n")

end ObjectMachine.Command
