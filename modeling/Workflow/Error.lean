/-!
What can go wrong, and how it is worded.
-/

namespace Workflow

/-- Why a process is refused. -/
inductive DefinitionError where
  | unparsable (reason : String)
  | duplicateElement (name : String)
  | unknownSuccessor (missing referrer : String)
  | unknownOperator (element operator : String)
  | emptyGroup (element : String)
  | missingGroupFlag (element : String)
  | malformedCondition (element problem : String)
  | unsupportedLiteral (element field found : String)
  | endFlagMismatch (element : String)
  | startCount (count : Nat)
  | rejected (reason : String)
deriving DecidableEq

namespace DefinitionError

def message : DefinitionError → String
  | unparsable reason => s!"Failed to parse process definition JSON: {reason}"
  | duplicateElement name => s!"Element name '{name}' is used by more than one element"
  | unknownSuccessor missing referrer =>
    s!"Element '{missing}' not found, which is referenced as a successor by '{referrer}'"
  | unknownOperator element operator =>
    s!"Gateway '{element}' uses an unrecognized operator: '{operator}'"
  | emptyGroup element => s!"Gateway '{element}' has an empty condition group or group list"
  | missingGroupFlag element =>
    s!"Gateway '{element}' has a gateway condition without an 'isGroup' flag"
  | malformedCondition element problem =>
    s!"Gateway '{element}' has a malformed gateway condition: {problem}"
  | unsupportedLiteral element field found =>
    s!"Gateway '{element}' compares field '{field}' against an unsupported literal: {found}"
  | endFlagMismatch element => s!"Task '{element}' has inconsistent 'next' and 'end' values"
  | startCount count => s!"Expected exactly one start element, found {count}"
  | rejected reason => s!"Invalid custom definition: {reason}"

end DefinitionError

/-- Which list of a grouped condition is empty. -/
inductive GroupLevel where
  | conditions
  | groups
deriving DecidableEq

namespace GroupLevel

def name : GroupLevel → String
  | conditions => "Conditions"
  | groups => "Groups"

end GroupLevel

/-- Why an element cannot be resolved, or a run does not finish. -/
inductive EvaluationError where
  | unknownElement (name : String)
  | emptyGroup (level : GroupLevel)
  | stepLimit (limit : Nat)
  | taskFailed (element message : String)
  | definition (e : DefinitionError)
deriving DecidableEq

namespace EvaluationError

def message : EvaluationError → String
  | unknownElement name => s!"Element '{name}' not found in the process definition"
  | emptyGroup level => s!"Cannot evaluate an empty {level.name} list"
  | stepLimit limit => s!"Traversal exceeded the limit of {limit} steps"
  | taskFailed element message => s!"Task '{element}' failed: {message}"
  | definition e => e.message

end EvaluationError

/-- Why an artifact cannot be written or read. -/
inductive ArtifactError where
  | io (path reason : String)
  /-- The bytes end early, or are not the form of a process. -/
  | malformed
  | unsupportedVersion (found expected : Nat)
  | codec (reason : String)
  | definition (e : DefinitionError)
deriving DecidableEq

namespace ArtifactError

def message : ArtifactError → String
  | io path reason => s!"Artifact I/O failed for '{path}': {reason}"
  | malformed => "Artifact codec failure: Deserialization failed: not the form of a process"
  | unsupportedVersion found expected =>
    s!"Artifact codec failure: Unsupported artifact version {found} (expected {expected})"
  | codec reason => s!"Artifact codec failure: {reason}"
  | definition e => e.message

end ArtifactError

/-- Why a text or file gives no context. -/
inductive ContextError where
  | unparsable (reason : String)
  | notAnObject
  | unsupportedValue (field : String)
  | io (path reason : String)
deriving DecidableEq

namespace ContextError

def message : ContextError → String
  | unparsable reason => s!"Failed to parse data context JSON: {reason}"
  | notAnObject => "Data context must be a JSON object"
  | unsupportedValue field =>
    s!"Field '{field}' holds a nested value; only numbers, booleans and strings are allowed"
  | io path reason => s!"Could not read data context file '{path}': {reason}"

end ContextError

end Workflow
