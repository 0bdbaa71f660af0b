import BoolPoly.Cli.Options
import BoolPoly.Cnf.Dimacs
import BoolPoly.EquationSystem.Text
import BoolPoly.Simplify
import BoolPoly.Solver.ProbingSolver

namespace BoolPoly.Cli

/-- What a file that is to be read turns out to be: its bytes, or the reason why it cannot be opened or read. -/
inductive FileView where
  | bytes (content : List UInt8)
  /-- The file cannot be opened. -/
  | unopened (reason : String)
  /-- The file is open but cannot be read. -/
  | unreadable (reason : String)

/-- The files that a run meets. A run is a function of them: it reads one file, and it may ask for another one to be
created and written. -/
structure Files where
  view : String → FileView
  /-- Whether a file can be created under a path, or the reason why not. -/
  create : String → Except String Unit
  /-- Whether a text can be written to the file created under a path, or the reason why not. -/
  write : String → String → Except String Unit

/-- How a run fails: with a message and its causes, by an overflow or a failed assertion, or because the arguments are
not understood. -/
inductive Failure where
  /-- An error: a message and its causes, the nearest one first. -/
  | reported (message : String) (causes : List String)
  /-- An overflow or an assertion that does not hold ends the run on the spot. -/
  | panicked (message : String)
  /-- The arguments are not understood. -/
  | usage

/-- What is said about a failure. Several causes are numbered. -/
def Failure.text : Failure → String
  | reported message causes =>
    let causes := match causes with
      | [] => ""
      | [cause] => "\n\nCaused by:\n    " ++ cause
      | causes => "\n\nCaused by:\n" ++
          "\n".intercalate (causes.mapIdx fun i cause => "    " ++ Nat.repr i ++ ": " ++ cause)
    "Error: " ++ message ++ causes ++ "\n"
  | panicked message => "panicked: " ++ message ++ "\n"
  | usage =>
    "error: The arguments are not understood\n\nUSAGE:\n    [OPTIONS] karnaugh|cnf|simplify FILE [OUTPUT]\n"

/-- The exit code of a run that fails. A run that ends on the spot has one of its own. -/
def Failure.exitCode : Failure → UInt32
  | panicked _ => 101
  | _ => 1

/-- An error of a table is reported, but for a width above the capacity: that the width fits is asserted where a table
is set up. -/
def Failure.ofTable : Karnaugh.TableError → Failure
  | .widthExceeded width capacity => .panicked (Karnaugh.TableError.widthExceeded width capacity).message
  | e => .reported e.message []

/-- Only the errors of the table are reported; the other ones are assertions and overflows. -/
def Failure.ofEncoding : EncodingError → Failure
  | .table e => .ofTable e
  | e => .panicked e.message

def Failure.ofSimplify : SimplifyError → Failure
  | .encoding e => .ofEncoding e
  | .missingModel => .panicked SimplifyError.missingModel.message
  | e => .reported e.message e.cause?.toList

/-- What a run leaves behind: what is printed and logged, which file is written, and how the run fails if it does. -/
structure Transcript where
  /-- The lines logged, in their order. -/
  log : List String := []
  stdout : String := ""
  /-- The file written: its path and its content. -/
  written : Option (String × String) := none
  failure : Option Failure := none

/-- The text on standard error: the log, and the failure after it. -/
def Transcript.stderr (t : Transcript) : String :=
  String.join (t.log.map (· ++ "\n")) ++ (t.failure.map Failure.text).getD ""

def Transcript.exitCode (t : Transcript) : UInt32 := (t.failure.map Failure.exitCode).getD 0

/-- A run that may fail and adds to a transcript. What was added before a failure stays there. -/
abbrev Session := ExceptT Failure (StateM Transcript)

namespace Session

def fail {α : Type} (message : String) (causes : List String) : Session α :=
  throw (.reported message causes)

def print (text : String) : Session Unit := modify fun t => { t with stdout := t.stdout ++ text }

/-- Logs a line when the verbosity reaches the level. The lines go to standard error, in the order in which they come
up. -/
def log (config : Config) (level : Nat) (line : String) : Session Unit :=
  if level ≤ config.verbosity then modify fun t => { t with log := t.log ++ [line] } else pure ()

/-- The verbosity from which on summaries are logged. -/
def info : Nat := 1

/-- The verbosity from which on single steps are logged. -/
def debug : Nat := 2

/-- Logs that facts are known, if there are any. -/
def logFacts (config : Config) (s : EquationSystem) : Session Unit :=
  let known := s.values.size + s.replacements.size
  if known = 0 then pure ()
  else log config debug ("DEBUG recorded " ++ Nat.repr known ++ " values and replacements")

/-- Logs that equations have been converted through tables, if any have. -/
def logTables (config : Config) (e : Encoding) (equations : List Polynomial) : Session Unit :=
  let converted := (equations.take e.equations.length).countP e.usesTable
  if converted = 0 then pure ()
  else log config debug ("DEBUG converted " ++ Nat.repr converted ++ " equations through tables")

/-- Reads the system in a file. An overflow ends the run, and any other problem is reported with its causes; the facts
that were known by then are logged in either case. -/
def readSystem (files : Files) (config : Config) (path : String) : Session EquationSystem := do
  let malformed {α : Type} : List String → Session α := fail ("Unable to parse ANF from " ++ path)
  match files.view path with
  | .unopened reason => fail ("Unable to open file: " ++ path) [reason]
  | .unreadable reason => malformed [EquationSystem.ParseError.unreadable.message, reason]
  | .bytes content =>
    let (s, error?) := EquationSystem.readLines (EquationSystem.decodeLines content)
    logFacts config s
    match error? with
    | none => return s
    | some .overflow => throw (.panicked EquationSystem.ParseError.overflow.message)
    | some e => malformed (e.message :: e.causes)

/-- Encodes a system. How many equations went through the table is logged also when a later one cannot be encoded. -/
def encode (config : Config) (s : EquationSystem) : Session Encoding := do
  match Encoding.new s config with
  | .error e => throw (.ofEncoding e)
  | .ok e =>
    let (e, error?) := e.addEquations s.equations
    logTables config e s.equations
    match error? with
    | none => return e
    | some e => throw (.ofEncoding e)

/-- Prints the conversion of every equation. One table serves them all, and a conversion that fails leaves it as it
was. -/
def karnaugh (files : Files) (config : Config) (input : String) : Session Unit := do
  let s ← readSystem files config input
  match Karnaugh.Table.new config.tableCapacity with
  | .error e => fail "Invalid --karnaugh-capacity" [e.message]
  | .ok start =>
    let mut table := start
    for p in s.equations do
      let converted := table.convert p
      print (Karnaugh.report p (converted.map (·.1)) ++ "\n")
      if let .ok (_, next) := converted then table := next

/-- The clauses of an encoding together with its assumptions, each of which becomes a clause of its own. -/
def assertedClauses (e : Encoding) : Cnf := e.clauses ++ e.assumptions.map ([·])

/-- Writes the clauses of a system to a file. The file is created only after the system could be encoded. -/
def cnf (files : Files) (config : Config) (input output : String) : Session Unit := do
  let s ← readSystem files config input
  let e ← encode config s
  log config info ("INFO encoded " ++ Nat.repr s.equations.length ++ " equations into " ++
    Nat.repr e.numVars ++ " variables and " ++ Nat.repr e.numClauses ++ " clauses")
  match files.create output with
  | .error reason => fail ("Unable to create file: " ++ output) [reason]
  | .ok () =>
    let content := (assertedClauses e).dimacs e.numVars
    match files.write output content with
    | .error reason => fail reason []
    | .ok () => modify fun t => { t with written := some (output, content) }

/-- The values of a solution on one line. -/
def solutionText (solution : Solution) : String :=
  " ".intercalate (solution.toList.mapIdx fun v b => Var.text v ++ "=" ++ (if b then "1" else "0"))

/-- Simplifies a system once and prints what is left of it, and a solution if one was found. -/
def simplify (files : Files) (config : Config) (input : String) : Session Unit := do
  let given ← readSystem files config input
  -- The attempt makes the same encoding; here it is made for what is logged on the way.
  if given.consistent then let _ ← encode config given
  let attempt := given.simplify given config probingSolver
  match attempt.result with
  | .error e => throw (.ofSimplify e)
  | .ok .unsat => print "UNSAT\n"
  | .ok (.learnt n solution?) =>
    print ("c learnt " ++ Nat.repr n ++ " facts\n" ++ attempt.system.text)
    match solution? with
    | none => pure ()
    | some solution => print ("c solution " ++ solutionText solution ++ "\n")

/-- Carries out a command. -/
def execute (files : Files) (options : Options) : Session Unit :=
  match options.command with
  | .karnaugh input => karnaugh files options.config input
  | .cnf input output => cnf files options.config input output
  | .simplify input => simplify files options.config input

end Session

/-- Runs the program on its arguments. The transcript of a run that fails ends with the failure, whose exit code tells
an overflow or a failed assertion from an error that is reported. -/
def run (files : Files) (args : List String) : Transcript :=
  match Options.ofArgs? args with
  | none => { failure := some .usage }
  | some options =>
    match (Session.execute files options).run.run {} with
    | (.ok (), t) => t
    | (.error f, t) => { t with failure := some f }

end BoolPoly.Cli
