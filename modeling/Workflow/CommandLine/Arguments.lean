import Workflow.Engine.Basic

/-!
The arguments of the command line: a process, optionally a context, and options in any order.
-/

namespace Workflow

/-- What a call of the program asks for. -/
structure Invocation where
  definitionPath : String
  contextPath : Option String
  element : Option String
  run : Bool
  artifact : Bool
  compile : Option String
  settings : Settings
deriving DecidableEq

/-- Why there is nothing to execute: the program is asked about itself, or a mistake was made. -/
inductive Refusal where
  | help
  | version
  | unknownArgument (argument : String)
  | missingValue (option : String)
  | unexpectedValue (option : String)
  | repeated (option : String)
  | notANumber (value : String)
  | missingDefinition
deriving DecidableEq

namespace Refusal

def usage : String :=
  "Usage: workflow [OPTIONS] <DEFINITION> [CONTEXT]\n\n" ++
  "Resolves an element of a process for the data of a context, or runs the whole process.\n\n" ++
  "  -e, --element <NAME>        the element to resolve, instead of the start\n" ++
  "      --run                   run the process from its start\n" ++
  "      --artifact              the definition is an artifact, not a text\n" ++
  "      --compile <PATH>        write the definition as an artifact\n" ++
  "      --reject-string-ordering  give texts no order\n" ++
  "      --project-fields        read the fields of a condition before evaluating it\n" ++
  "      --strict-end-flags      refuse tasks whose end flag disagrees with their link\n" ++
  "      --max-steps <N>         the most elements a run may visit, 1000 if not given\n" ++
  "  -h, --help                  print this text\n" ++
  "  -V, --version               print the version"

def message : Refusal → String
  | help => usage
  | version => "workflow 0.1.0"
  | unknownArgument argument => s!"unexpected argument '{argument}'"
  | missingValue option => s!"a value is required for '{option}'"
  | unexpectedValue option => s!"a value for '{option}' is not expected"
  | repeated option => s!"'{option}' cannot be used more than once"
  | notANumber value => s!"'{value}' is not a number of steps"
  | missingDefinition => "the path of a definition is required"

/-- It was asked for, and is no mistake. -/
def isRequested : Refusal → Bool
  | help | version => true
  | _ => false

def exitCode (r : Refusal) : Nat := if r.isRequested then 0 else 2

end Refusal

/-- Options that take no value. -/
inductive Switch where
  | run
  | artifact
  | rejectStringOrdering
  | projectFields
  | strictEndFlags
deriving DecidableEq

/-- Options that take a value. -/
inductive Setting where
  | element
  | compile
  | maxSteps
deriving DecidableEq

inductive LongOption where
  | switch (s : Switch)
  | setting (s : Setting)
  | help
  | version
deriving DecidableEq

namespace LongOption

def ofName? : String → Option LongOption
  | "run" => some (switch .run)
  | "artifact" => some (switch .artifact)
  | "reject-string-ordering" => some (switch .rejectStringOrdering)
  | "project-fields" => some (switch .projectFields)
  | "strict-end-flags" => some (switch .strictEndFlags)
  | "element" => some (setting .element)
  | "compile" => some (setting .compile)
  | "max-steps" => some (setting .maxSteps)
  | "help" => some help
  | "version" => some version
  | _ => none

end LongOption

/-- The arguments read so far. -/
structure Arguments where
  positional : List String
  switches : List Switch
  element : Option String
  compile : Option String
  maxSteps : Option Nat

namespace Arguments

def none : Arguments := ⟨[], [], .none, .none, .none⟩

/-- Decimal digits, a plus sign before them allowed, of a number below `2 ^ 64`. -/
def steps? (s : String) : Option Nat :=
  let ds := match s.toList with
    | '+' :: r => r
    | r => r
  if ds.isEmpty || !ds.all Char.isDigit then .none
  else
    let n := ds.foldl (fun n c => n * 10 + (c.toNat - '0'.toNat)) 0
    if n < wordLimit then some n else .none

def addPositional (a : Arguments) (s : String) : Except Refusal Arguments :=
  if a.positional.length < 2 then .ok { a with positional := a.positional ++ [s] }
  else .error (.unknownArgument s)

def addSwitch (a : Arguments) (name : String) (s : Switch) : Except Refusal Arguments :=
  if s ∈ a.switches then .error (.repeated name) else .ok { a with switches := s :: a.switches }

def addSetting (a : Arguments) (name : String) (s : Setting) (value : String) :
    Except Refusal Arguments :=
  match s with
  | .element =>
    if a.element.isSome then .error (.repeated name) else .ok { a with element := some value }
  | .compile =>
    if a.compile.isSome then .error (.repeated name) else .ok { a with compile := some value }
  | .maxSteps =>
    if a.maxSteps.isSome then .error (.repeated name)
    else
      match steps? value with
      | some n => .ok { a with maxSteps := some n }
      | .none => .error (.notANumber value)

/-- The form of one argument. -/
inductive Form where
  | escape
  | long (name : String) (value : Option String)
  | short (letters : List Char)
  | plain

def form (s : String) : Form :=
  match s.toList with
  | ['-', '-'] => .escape
  | '-' :: '-' :: r =>
    match r.span (· ≠ '=') with
    | (name, _ :: value) => .long (String.ofList name) (some (String.ofList value))
    | (name, []) => .long (String.ofList name) .none
  | '-' :: c :: r => .short (c :: r)
  | _ => .plain

def isPlain (s : String) : Bool :=
  match form s with
  | .plain => true
  | _ => false

/-- A value attached to a letter may follow an equals sign. -/
def attached : List Char → String
  | '=' :: r => String.ofList r
  | r => String.ofList r

/-- Reads arguments in turn up to the first that is refused. -/
def read (a : Arguments) : List String → Except Refusal Arguments
  | [] => .ok a
  | s :: r =>
    match form s with
    | .plain => do read (← a.addPositional s) r
    | .escape => r.foldlM addPositional a
    | .short ('e' :: []) | .long "element" .none => readValue a s .element r
    | .long "compile" .none => readValue a s .compile r
    | .long "max-steps" .none => readValue a s .maxSteps r
    | .short ('e' :: value) => do read (← a.addSetting s .element (attached value)) r
    | .short ('h' :: _) => .error .help
    | .short ('V' :: _) => .error .version
    | .short _ => .error (.unknownArgument s)
    | .long name value =>
      match LongOption.ofName? name, value with
      | some (.setting o), some v => do read (← a.addSetting s o v) r
      | some (.setting _), .none => .error (.missingValue s)
      | some (.switch o), .none => do read (← a.addSwitch s o) r
      | some .help, .none => .error .help
      | some .version, .none => .error .version
      | some _, some _ => .error (.unexpectedValue s)
      | .none, _ => .error (.unknownArgument s)
where
  /-- The value of a setting is the next argument, which must not look like an option. -/
  readValue (a : Arguments) (name : String) (o : Setting) : List String → Except Refusal Arguments
    | [] => .error (.missingValue name)
    | v :: r =>
      if isPlain v then do read (← a.addSetting name o v) r else .error (.missingValue name)

def invocation (a : Arguments) : Except Refusal Invocation :=
  match a.positional with
  | [] => .error .missingDefinition
  | d :: r => .ok {
      definitionPath := d
      contextPath := r.head?
      element := a.element
      run := .run ∈ a.switches
      artifact := .artifact ∈ a.switches
      compile := a.compile
      settings := {
        textOrder := if .rejectStringOrdering ∈ a.switches then .reject else .lexicographic
        projectFields := .projectFields ∈ a.switches
        strictEndFlags := .strictEndFlags ∈ a.switches
        maxSteps := a.maxSteps.getD 1000 } }

end Arguments

/-- The invocation that a list of arguments stands for. -/
def Invocation.ofArguments (args : List String) : Except Refusal Invocation := do
  (← Arguments.none.read args).invocation

end Workflow
