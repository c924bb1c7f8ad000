import Determinize.Description.Yaml
import Determinize.WorkingCopy
import Determinize.Subset

/-!
# The command line

Reads the arguments of a run, and runs: the description in a file is read, the automaton
determinized and perhaps minimized, or only freed of empty moves, and described again.
-/

namespace Determinize

namespace CommandLine

structure Options where
  minimize : Bool := false
  merge : MergeMode := .singlePass
  steps : Option Nat := none
  eliminateOnly : Bool := false
  file : String
deriving DecidableEq

inductive Failure
  | usage
  /-- The file is missing or not a text. -/
  | unreadable
  /-- The text is not a description, or a description cannot be written. -/
  | description
  | automaton (error : Error)
deriving DecidableEq

def Failure.message : Failure → String
  | usage => "the arguments are not understood"
  | unreadable => "cannot read the file"
  | description => "cannot parse the description"
  | automaton e => e.message

/-! ### Arguments -/

/-- The arguments seen so far: each option at most once, and the other arguments. -/
structure Given where
  minimize : Option Unit := none
  merge : Option MergeMode := none
  steps : Option Nat := none
  eliminateOnly : Option Unit := none
  files : List String := []

/-- A number of at most 64 bits in decimal digits, perhaps after a plus sign. -/
def stepCount? (text : String) : Option Nat :=
  let digits := match text.toList with
    | '+' :: rest => rest
    | characters => characters
  if digits.all Char.isDigit then
    (Yaml.Number.value? 10 digits).bind fun n => if n < Nat.pow 2 64 then some n else none
  else none

def setOnce {α : Type} (before : Option α) (value : α) : Option (Option α) :=
  if before.isSome then none else some (some value)

def Given.withValue? (g : Given) (name value : String) : Option Given :=
  if name = "--merge" then do
    let mode ← MergeMode.ofName? value
    return { g with merge := ← setOnce g.merge mode }
  else if name = "--steps" then do
    let n ← stepCount? value
    return { g with steps := ← setOnce g.steps n }
  else none

def Given.withFlag? (g : Given) (name : String) : Option Given :=
  if name = "--minimize" then do return { g with minimize := ← setOnce g.minimize () }
  else if name = "--eliminate-only" then do
    return { g with eliminateOnly := ← setOnce g.eliminateOnly () }
  else none

/-- An argument that names a file; the empty one does not. -/
def Given.withFile? (g : Given) (file : String) : Option Given :=
  if file = "" then none else some { g with files := g.files ++ [file] }

/-- An option and its value, joined by an equals sign. -/
def splitValue (argument : String) : String × Option String :=
  let (name, value) := argument.toList.span fun c => c != '='
  (String.ofList name, match value with
    | [] => none
    | _ :: rest => some (String.ofList rest))

def takesValue (name : String) : Bool := name == "--merge" || name == "--steps"

/-- Whether an argument is written like an option. A single dash is not. -/
def isOption (argument : String) : Bool :=
  match argument.toList with
  | '-' :: _ :: _ => true
  | _ => false

/-- Takes the arguments in turn; after two dashes alone all of them name files. -/
def readArguments (g : Given) : List String → Option Given
  | [] => some g
  | argument :: rest =>
    if argument = "--" then rest.foldlM Given.withFile? g
    else if isOption argument then
      match splitValue argument with
      | (name, some value) => (g.withValue? name value).bind fun g => readArguments g rest
      | (name, none) =>
        if takesValue name then
          match rest with
          | value :: rest =>
            if isOption value then none
            else (g.withValue? name value).bind fun g => readArguments g rest
          | [] => none
        else (g.withFlag? name).bind fun g => readArguments g rest
    else (g.withFile? argument).bind fun g => readArguments g rest

/-- The options that all arguments together say, if they name one file. -/
def Given.options? (g : Given) : Option Options :=
  match g.files with
  | [file] => some {
      minimize := g.minimize.isSome
      merge := g.merge.getD .singlePass
      steps := g.steps
      eliminateOnly := g.eliminateOnly.isSome
      file := file }
  | _ => none

def options (arguments : List String) : Except Failure Options :=
  match (readArguments {} arguments).bind Given.options? with
  | some o => .ok o
  | none => .error .usage

/-! ### Runs -/

/-- The automaton that a run with these options makes of the one in the file. -/
def transform (o : Options) (a : Automaton) : Automaton :=
  if o.eliminateOnly then a.eliminateEpsilon
  else
    let dfa := (a.determinize o.steps).dfa
    if o.minimize then dfa.minimize o.merge else dfa

/-- The outcome of the construction, as a run reports it. -/
def outcome (c : Construction) : Event :=
  if c.interrupted then .stopped c.steps else .finished c.steps

def events (o : Options) (a : Automaton) : List Event :=
  if o.eliminateOnly then a.eliminationEvents
  else
    let c := a.determinize o.steps
    a.determinizeEvents o.steps ++ [outcome c]
      ++ if o.minimize then c.dfa.minimizeEvents o.merge else []

/-- How descriptions are read and written. -/
structure TextFormat where
  read? : String → Option Description
  write? : Description → Option String

def TextFormat.yaml : TextFormat := ⟨Description.ofYaml?, fun d => some d.toYaml⟩

def load (format : TextFormat) (bytes : Option ByteArray) : Except Failure Automaton :=
  match bytes.bind String.fromUTF8? with
  | none => .error .unreadable
  | some text =>
    match format.read? text with
    | none => .error .description
    | some d => d.toAutomaton.mapError .automaton

structure Output where
  text : String
  events : List Event
deriving DecidableEq

/-- Runs on the bytes of the file, if there is one. -/
def runWith (format : TextFormat) (o : Options) (bytes : Option ByteArray) : Except Failure Output := do
  let a ← load format bytes
  match format.write? (Description.ofAutomaton (transform o a)) with
  | none => .error .description
  | some text => return ⟨text, events o a⟩

def run (o : Options) (bytes : Option ByteArray) : Except Failure Output := runWith .yaml o bytes

end CommandLine

end Determinize
