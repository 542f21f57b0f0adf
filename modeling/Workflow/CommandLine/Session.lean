import Workflow.CommandLine.Arguments
import Workflow.Engine.Run
import Workflow.Files
import Workflow.Wire.Loader

/-!
What the program does for an invocation, and what it says. Lines said before a failure stay said.
-/

namespace Workflow

/-- What a time is given for. -/
inductive Stopwatch where
  | evaluation
  | total
deriving DecidableEq

namespace Stopwatch

def label : Stopwatch → String
  | evaluation => "Evaluation"
  | total => "Total Execution"

end Stopwatch

/-- A line of output. -/
inductive Line where
  | text (s : String)
  | elapsed (w : Stopwatch) (nanoseconds : Nat)
deriving DecidableEq

/-- What a call of the program works with: files, and a clock that counts nanoseconds. -/
structure Host (m : Type → Type) where
  files : FileSystem m
  now : m Nat

/-- A directory where no time passes. -/
def Directory.host : Host (StateM Directory) := ⟨Directory.fileSystem, pure 0⟩

/-- The line for a warning. -/
def Warning.line (w : Warning) : String := s!"  -> Warning: {w.message}"

/-- The lines for a resolved element. -/
def Resolution.report (r : Resolution) : List String :=
  let source := r.source
  let next := match r.next with
    | some next => s!"  -> Next element: {next}"
    | none => "  -> Branch ends here"
  let reason := match r.via with
    | .gateway outcome trace =>
      [s!"  -> Condition outcome: {outcome}", "  -> Reason: " ++ trace.render]
    | .task => []
  ["", s!"Resolved '{source}'", next] ++ reason ++ r.warning.toList.map Warning.line

/-- The lines for a run that has halted. -/
def Outcome.report (o : Outcome) : List String :=
  let path := String.intercalate " -> " o.visited
  let fields := String.intercalate ", " o.patchedFields
  let patched := if o.patchedFields.isEmpty then [] else [s!"  -> Patched fields: {fields}"]
  ["", "Run Finished!", s!"  -> Path: {path}"] ++ patched ++ o.warnings.map Warning.line ++
    ["  -> Final context: " ++ o.context.toJson.render]

/-- A part of the program: it may say lines, use files and fail with a message. -/
abbrev Session (m : Type → Type) := ExceptT String (StateT (List Line) m)

namespace Session

variable {m : Type → Type} [Monad m]

def say (ls : List Line) : Session m Unit := modify (· ++ ls)

/-- Fails with a message for the error, if there is one. -/
def orFail (message : ε → String) : Except ε α → Session m α
  | .ok a => pure a
  | .error e => throw (message e)

def perform (a : m α) : Session m α := liftM a

def loadArtifact (fs : FileSystem m) (path : String) : Session m Definition := do
  let a ← perform (Artifact.load fs path)
  let a ← orFail (fun e => s!"Failed to load artifact: {e.message}") a
  return a.definition

def loadText (fs : FileSystem m) (path : String) : Session m Definition := do
  let s ← perform (fs.readText path)
  let s ← orFail (fun e => s!"Failed to read definition file '{path}': {e}") s
  orFail (fun e => s!"Invalid process definition: {e.message}") (Definition.ofText s)

def loadDefinition (fs : FileSystem m) (i : Invocation) : Session m Definition :=
  if i.artifact then loadArtifact fs i.definitionPath else loadText fs i.definitionPath

def loadContext (fs : FileSystem m) : Option String → Session m Context
  | some path => do
    let c ← perform (Context.load fs path)
    orFail (fun e => s!"Failed to load data context: {e.message}") c
  | none => do
    say [.text "No data context file provided. Using an empty context."]
    return .empty

def buildEngine (p : Definition) (s : Settings) : Session m Engine := do
  let g ← orFail (fun e => s!"Invalid process definition: {e.message}") (Engine.build p s)
  let name := p.name
  let count := p.elements.length
  say [.text s!"Loaded process '{name}' with {count} elements"]
  return g

/-- The line for an artifact written to `path`. -/
def written (path : String) : Line := .text s!"  -> Wrote compiled artifact to '{path}'"

def compile (fs : FileSystem m) (p : Definition) : Option String → Session m Unit
  | some path => do
    let a ← orFail (fun e => s!"Failed to write artifact: {e.message}") (Artifact.ofDefinition p)
    let r ← perform (a.save fs path)
    orFail (fun e => s!"Failed to write artifact: {e.message}") r
    say [written path]
  | none => pure ()

/-- The element asked for, or the start of the process. -/
def chooseElement (g : Engine) : Option String → Session m String
  | some name => pure name
  | none => do
    let e ← orFail DefinitionError.message g.start
    return e.name

def resolveElement (h : Host m) (g : Engine) (name : String) (c : Context) : Session m Unit := do
  let started ← perform h.now
  let r ← orFail (fun e => s!"Resolution failed: {e.message}") ((g.resolve name).run c.lookup)
  let finished ← perform h.now
  say (r.report.map .text ++ [.elapsed .evaluation (finished - started)])

def runFromStart (g : Engine) (c : Context) : Session m Unit := do
  let o ← orFail (fun e => s!"Run failed: {e.message}") (g.run Executor.passthrough () c).result
  say (o.report.map .text)

/-- Resolves one element or runs the process. -/
def decide (h : Host m) (i : Invocation) (g : Engine) (c : Context) : Session m Unit :=
  if i.run then runFromStart g c
  else do
    let name ← chooseElement g i.element
    resolveElement h g name c

def whole (h : Host m) (i : Invocation) : Session m Unit := do
  let started ← perform h.now
  let p ← loadDefinition h.files i
  let c ← loadContext h.files i.contextPath
  let g ← buildEngine p i.settings
  compile h.files p i.compile
  decide h i g c
  let finished ← perform h.now
  say [.text "", .elapsed .total (finished - started)]

end Session

/-- What a call said, and why it failed if it did. -/
structure Transcript where
  lines : List Line
  failure : Option String

namespace Transcript

def exitCode (t : Transcript) : Nat := if t.failure.isSome then 1 else 0

/-- A number of nanoseconds in the largest unit of which it has one. -/
def showDuration (n : Nat) : String :=
  let (places, unit) :=
    if powerOfTen 9 ≤ n then (9, "s")
    else if powerOfTen 6 ≤ n then (6, "ms")
    else if powerOfTen 3 ≤ n then (3, "µs")
    else (0, "ns")
  let ds := Layout.digitsOf (n % powerOfTen places)
  let fraction := (List.replicate (places - ds.length) '0' ++ ds).reverse.dropWhile (· = '0')
  let point := if fraction.isEmpty then "" else "."
  toString (n / powerOfTen places) ++ point ++ String.ofList fraction.reverse ++ unit

def showLine : Line → String
  | .text s => s ++ "\n"
  | .elapsed w n => w.label ++ ": " ++ showDuration n ++ "\n"

def standardOutput (t : Transcript) : String := String.join (t.lines.map showLine)

def standardError (t : Transcript) : String :=
  match t.failure with
  | some message => "\nError: " ++ message ++ "\n"
  | none => ""

end Transcript

/-- Executes an invocation. -/
def Invocation.execute {m : Type → Type} [Monad m] (h : Host m) (i : Invocation) :
    m Transcript := do
  let (r, lines) ← ((Session.whole h i).run).run []
  match r with
  | .ok () => return ⟨lines, none⟩
  | .error message => return ⟨lines, some message⟩

end Workflow
