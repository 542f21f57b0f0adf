import Workflow.CommandLine.Session

/-!
The program on the files of the system: what it says goes to the two outputs, and its exit code
says whether it failed.
-/

namespace Workflow

/-- Files by path. -/
def systemFiles : FileSystem IO where
  read path := do
    try return .ok (← IO.FS.readBinFile path).data.toList
    catch e => return .error (toString e)
  write path bs := do
    try
      IO.FS.writeBinFile path ⟨bs.toArray⟩
      return .ok ()
    catch e => return .error (toString e)

def system : Host IO := ⟨systemFiles, IO.monoNanosNow⟩

end Workflow

def main (args : List String) : IO UInt32 := do
  match Workflow.Invocation.ofArguments args with
  | .error r =>
    if r.isRequested then IO.println r.message else IO.eprintln s!"error: {r.message}"
    return UInt32.ofNat r.exitCode
  | .ok i => do
    let t ← i.execute Workflow.system
    IO.print t.standardOutput
    IO.eprint t.standardError
    return UInt32.ofNat t.exitCode
