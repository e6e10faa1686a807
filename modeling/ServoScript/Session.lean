import ServoScript.Assembly
import ServoScript.Diagnostic
import ServoScript.Dump
import ServoScript.FileTree
import ServoScript.Listing
import ServoScript.Manifest
import ServoScript.Options

/-!
# Sessions

One run of the command line tool: it reads a script, assembles it and writes the image and what else
was asked for, and tells what it does. Where it runs is left open; `Console` is a place that is a
value.
-/

namespace ServoScript

/-- A place to run in: something to write to and files. -/
class Host (m : Type → Type) where
  say : String → m Unit
  readText : String → m (Except FileFault String)
  write : String → ByteArray → m (Except FileFault Unit)

namespace Session

def toolName : String := "msasm"

def versionText : String := s!"{toolName} 0.1.0\n"

def helpText : String :=
  versionText ++
  "  Kanade <kanade.k.1228@gmail.com>
  Assembler for Maestro servo controller scripts

Usage:
  msasm [OPTIONS] [INPUT]

Arguments:
  [INPUT]  Input script [default: main.txt]

Options:
  -o, --output <OUTPUT>    Output image [default: main.bin]
      --mini               Compile for the Mini Maestro 12, 18 and 24
  -d, --dump               Dump disassembled image
  -l, --listing <LISTING>  Write a listing file
  -t, --table <TABLE>      Write the subroutine table as YAML
  -h, --help               Print help
  -V, --version            Print version
"

def banner : String := "Maestro Script Assembler by kanade-k-1228\n"

def summary (p : Program) : String :=
  s!"  {p.image.length} bytes, {p.commands.size} subroutines, CRC 0x{Text.hex 4 p.checksum.toNat}\n"

/-- The files that a run writes, in order. -/
def products (o : Options) (p : Program) : List (String × ByteArray) :=
  (o.output, ⟨p.image.toArray⟩) ::
    (o.listing?.map fun path => (path, p.listing.toUTF8)).toList ++
    (o.table?.map fun path => (path, p.manifest.render.toUTF8)).toList

variable {m : Type → Type} [Monad m] [Host m]

open Host

/-- Writes files until one cannot be written. -/
def writeAll : List (String × ByteArray) → m (Except FileFault Unit)
  | [] => pure (.ok ())
  | (path, content) :: rest => do
    say s!"  > {path}\n"
    match ← write path content with
    | .ok _ => writeAll rest
    | .error f => pure (.error f)

def fail (f : FileFault) : m UInt32 := do
  say (m := m) f.report
  pure 1

/-- Writes the results of an assembly. -/
def deliver (o : Options) (p : Program) : m UInt32 := do
  say (summary p)
  say "3. Write Output\n"
  match ← writeAll (products o p) with
  | .error f => fail f
  | .ok _ =>
    if o.dump then say p.dump
    pure 0

def run (o : Options) : m UInt32 := do
  say banner
  say s!"1. Read Source\n  < {o.input}\n"
  match ← readText o.input with
  | .error f => fail f
  | .ok source =>
    say s!"2. Compile ({o.profile.name} Maestro)\n"
    match assemble o.input source o.profile with
    | .error d =>
      say (d.report (Source.lines source).toArray)
      pure 1
    | .ok p => deliver o p

/-- Answers a command line with an exit code. -/
def answer (args : List String) : m UInt32 :=
  match Request.ofArguments args with
  | .help => do
    say (m := m) helpText
    pure 0
  | .version => do
    say (m := m) versionText
    pure 0
  | .misuse => pure 2
  | .run o => run o

end Session

/-- A file tree and what has been written beside it. -/
structure Console where
  files : FileTree
  output : String := ""

instance : Host (StateM Console) where
  say s := modify fun c => { c with output := c.output ++ s }
  readText path := do return (← get).files.readText path
  write path content := fun c =>
    match c.files.write path content with
    | .ok files => (.ok (), { c with files })
    | .error f => (.error f, c)

/-- Runs a command line on a file tree. -/
def Console.answer (files : FileTree) (args : List String) : UInt32 × Console :=
  (Session.answer args : StateM Console UInt32).run { files }

end ServoScript
