import ServoScript.Session

/-!
# The command line tool

Runs a session on the files of the system.
-/

namespace ServoScript.Disk

/-- Names the causes that a session tells apart. -/
def systemFault : IO.Error → SystemFault
  | .noFileOrDirectory .. => .notFound
  | .noSuchThing .. => .notFound
  | .inappropriateType _ 20 _ => .notDirectory
  | .inappropriateType _ 21 _ => .isDirectory
  | .resourceExhausted _ 28 _ => .noSpace
  | .invalidArgument _ 36 _ => .nameTooLong
  | e => .other (toString e)

def attempt {α : Type} (operation : FileOperation) (path : String) (act : IO α) :
    IO (Except FileFault α) := do
  try return .ok (← act)
  catch e => return .error ⟨operation, path, systemFault e⟩

def readSource (path : String) : IO (Except FileFault String) := do
  match ← attempt .opening path (IO.FS.Handle.mk path .read) with
  | .error f => return .error f
  | .ok handle =>
    match ← attempt .reading path handle.readBinToEnd with
    | .error f => return .error f
    | .ok content =>
      match String.fromUTF8? content with
      | some text => return .ok text
      | none => return .error ⟨.reading, path, .notText⟩

def writeProduct (path : String) (content : ByteArray) : IO (Except FileFault Unit) := do
  match ← attempt .creating path (IO.FS.Handle.mk path .write) with
  | .error f => return .error f
  | .ok handle =>
    attempt .writing path do
      handle.write content
      handle.flush

instance : Host IO where
  say s := do
    IO.print s
    (← IO.getStdout).flush
  readText := readSource
  write := writeProduct

end ServoScript.Disk

def main (args : List String) : IO UInt32 := ServoScript.Session.answer args
