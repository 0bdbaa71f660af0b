import BoolPoly.Config
import BoolPoly.Text.Index

namespace BoolPoly.Cli

/-- What is to be done, and with which files. Every command reads one file, and only one of them writes another. -/
inductive Command where
  | karnaugh (input : String)
  | cnf (input output : String)
  | simplify (input : String)
deriving DecidableEq, Repr

/-- The file that a command reads. -/
def Command.input : Command → String
  | karnaugh input | cnf input _ | simplify input => input

/-- What the arguments say: the settings, which come first, and then the command with its files. -/
structure Options where
  config : Config
  command : Command
deriving DecidableEq, Repr

/-- An option with a value. Each one sets one bound of the configuration, and may be given once. -/
inductive Setting where
  | tableCapacity
  | tableCutoff
  | chunkLength
  | maxConflicts
deriving DecidableEq, Repr

/-- The setting with a long option's name. -/
def Setting.ofName? : String → Option Setting
  | "karnaugh-capacity" => some .tableCapacity
  | "karnaugh-cutoff" => some .tableCutoff
  | "xor-cut-len" => some .chunkLength
  | "max-conflicts" => some .maxConflicts
  | _ => none

def Setting.apply (config : Config) (value : Nat) : Setting → Config
  | tableCapacity => { config with tableCapacity := value }
  | tableCutoff => { config with tableCutoff := value }
  | chunkLength => { config with chunkLength := value }
  | maxConflicts => { config with maxConflicts := value }

/-- The options read so far. The verbosity is counted in the configuration, as its flag may occur several times. -/
structure Given where
  config : Config
  /-- The settings that have occurred. -/
  seen : List Setting

def Given.raiseVerbosity (g : Given) (n : Nat) : Given :=
  { g with config := { g.config with verbosity := g.config.verbosity + n } }

/-- Notes that a setting occurs, which it may do once. Its second occurrence makes the arguments unreadable. -/
def Given.mark? (g : Given) (s : Setting) : Option Given :=
  if s ∈ g.seen then none else some { g with seen := s :: g.seen }

/-- An unsigned number of 64 bits, with or without a plus sign. A greater number is refused, not cut off. -/
def readValue? (cs : List Char) : Option Nat :=
  let digits := match cs with
    | '+' :: rest => rest
    | _ => cs
  (Text.readNumber UInt64.size digits).toOption

def Given.set? (g : Given) (s : Setting) (value : List Char) : Option Given := do
  let g ← g.mark? s
  let n ← readValue? value
  return { g with config := s.apply g.config n }

/-- Whether an argument is an option rather than a value. A single dash is a value. -/
def isOption (arg : String) : Bool :=
  match arg.toList with
  | '-' :: _ :: _ => true
  | _ => false

/-- The arguments that are no options, when no option occurs before a double dash. -/
def operands? : List String → Option (List String)
  | [] => some []
  | arg :: rest =>
    if arg = "--" then some rest
    else if isOption arg then none
    else (operands? rest).map (arg :: ·)

def Command.ofArgs? (name : String) (args : List String) : Option Command := do
  match name, ← operands? args with
  | "karnaugh", [input] => some (.karnaugh input)
  | "cnf", [input, output] => some (.cnf input output)
  | "simplify", [input] => some (.simplify input)
  | _, _ => none

/-- The name of a long option and the value after its equals sign. How many dashes stand in front of the name, and how
many equals signs behind it, makes no difference. -/
def splitLong (arg : String) : String × Option (List Char) :=
  let cs := arg.toList.dropWhile (· == '-')
  let name := String.ofList (cs.takeWhile (· != '='))
  match cs.dropWhile (· != '=') with
  | [] => (name, none)
  | rest => (name, some (rest.dropWhile (· == '=')))

/-- Reads options and then the command. An option is followed by its value, either after an equals sign or as the next
argument; a setting without a value, because another option follows, keeps its default. The flag for verbosity may be
repeated. -/
def readArgs (g : Given) : List String → Option Options
  | [] => none
  | arg :: rest =>
    if arg.startsWith "--" then
      match splitLong arg with
      | ("verbose", _) => readArgs (g.raiseVerbosity 1) rest
      | (name, some value) => do readArgs (← g.set? (← Setting.ofName? name) value) rest
      | (name, none) => do
        let setting ← Setting.ofName? name
        match rest with
        | [] => none
        | value :: rest' =>
          if isOption value then readArgs (← g.mark? setting) (value :: rest')
          else readArgs (← g.set? setting value.toList) rest'
    else if isOption arg then
      let flags := arg.toList.drop 1
      if flags.all (· == 'v') then readArgs (g.raiseVerbosity flags.length) rest else none
    else do return { config := g.config, command := ← Command.ofArgs? arg rest }

/-- The options given by the arguments; none if the arguments are not understood. -/
def Options.ofArgs? (args : List String) : Option Options := readArgs { config := {}, seen := [] } args

end BoolPoly.Cli
