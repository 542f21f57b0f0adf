import Workflow.Artifact.Basic
import Workflow.Context
import Workflow.Path

/-!
Reading and writing files. A file system is what can read and write; a directory of plain files is
one of them.
-/

namespace Workflow

/-- Reads and writes whole files. A failure has a reason. -/
structure FileSystem (m : Type → Type) where
  read : String → m (Except String Bytes)
  write : String → Bytes → m (Except String Unit)

/-- The files that paths from one directory lead to, each under its shortest path. -/
abbrev Directory := Keyed Bytes

namespace Directory

def read (d : Directory) (path : String) : Except String Bytes :=
  match (Path.resolve? path).bind d.find? with
  | some bs => .ok bs
  | none => .error "no such file"

def write (d : Directory) (path : String) (bs : Bytes) : Except String Directory :=
  match Path.resolve? path with
  | some p => .ok (d.insert p bs)
  | none => .error "no such directory"

def fileSystem : FileSystem (StateM Directory) where
  read path := do return (← get).read path
  write path bs := do
    match (← get).write path bs with
    | .ok d => set d; return .ok ()
    | .error e => return .error e

end Directory

variable {m : Type → Type} [Monad m]

/-- A file that is not a text has no text to read. -/
def FileSystem.readText (fs : FileSystem m) (path : String) : m (Except String String) := do
  match ← fs.read path with
  | .error e => return .error e
  | .ok bs =>
    match Codec.ofUtf8? bs with
    | none => return .error "not a text"
    | some s => return .ok s

def Artifact.save (fs : FileSystem m) (path : String) (a : Artifact) :
    m (Except ArtifactError Unit) := do
  match ← fs.write path a.toBytes with
  | .error e => return .error (.io path e)
  | .ok () => return .ok ()

def Artifact.load (fs : FileSystem m) (path : String) : m (Except ArtifactError Artifact) := do
  match ← fs.read path with
  | .error e => return .error (.io path e)
  | .ok bs => return Artifact.ofBytes bs

def Context.load (fs : FileSystem m) (path : String) : m (Except ContextError Context) := do
  match ← fs.readText path with
  | .error e => return .error (.io path e)
  | .ok s => return Context.ofText s

end Workflow
