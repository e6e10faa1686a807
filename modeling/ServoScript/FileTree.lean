import ServoScript.Text.Mark
import ServoScript.Text.Pieces

/-!
# File trees

The files and directories that a command line sees, as a value. Paths that start with a slash are
followed from the root of the system, all others from the working directory.
-/

namespace ServoScript

/-- Why the system refuses an operation on a path. -/
inductive SystemFault where
  | notFound
  | notDirectory
  | isDirectory
  | noSpace
  | nameTooLong
  | notText
  | other (text : String)
  deriving DecidableEq

def SystemFault.message : SystemFault → String
  | .notFound => "No such file or directory (os error 2)"
  | .notDirectory => "Not a directory (os error 20)"
  | .isDirectory => "Is a directory (os error 21)"
  | .noSpace => "No space left on device (os error 28)"
  | .nameTooLong => "File name too long (os error 36)"
  | .notText => "stream did not contain valid UTF-8"
  | .other text => text

/-- What was being done to a file. -/
inductive FileOperation where
  | opening
  | reading
  | creating
  | writing
  deriving DecidableEq

def FileOperation.verb : FileOperation → String
  | .opening => "open"
  | .reading => "read"
  | .creating => "create"
  | .writing => "write"

structure FileFault where
  operation : FileOperation
  path : String
  cause : SystemFault
  deriving DecidableEq

def FileFault.message (f : FileFault) : String :=
  s!"Failed to {f.operation.verb} file: {f.path}"

def FileFault.report (f : FileFault) : String :=
  Text.marked [.red, .bold] "error" ++ s!": {f.message}\n  " ++
    Text.marked [.bold] "caused by" ++ s!": {f.cause.message}\n"

inductive Node where
  | file (content : ByteArray)
  | directory
  /-- Swallows what is written to it. -/
  | nullDevice
  /-- Has no room for a single byte. -/
  | fullDevice

/-- The way from the root of the system, one name after the other. -/
abbrev Route := List String

structure FileTree where
  nodes : List (Route × Node)

namespace FileTree

/-- The working directory. -/
def workplace : Route := ["tmp", "work"]

/-- A working directory without files on a system with two devices. -/
def empty : FileTree :=
  ⟨[(["tmp"], .directory), (workplace, .directory), (["dev"], .directory),
    (["dev", "null"], .nullDevice), (["dev", "full"], .fullDevice)]⟩

def node? (t : FileTree) (route : Route) : Option Node :=
  if route.isEmpty then some .directory else t.nodes.lookup route

def put (t : FileTree) (route : Route) (n : Node) : FileTree :=
  ⟨(route, n) :: t.nodes.filter (·.1 ≠ route)⟩

/-- Puts a node and the directories above it. -/
def plant (t : FileTree) (route : Route) (n : Node) : FileTree :=
  let above := (List.range route.length).map (route.take ·)
  (above.foldl (fun t r => if (t.node? r).isSome then t else t.put r .directory) t).put route n

def components (path : String) : List String :=
  (Text.pieces (· == '/') path.toList).map String.ofList

/-- The route of a path that stays in the working directory. -/
def routeOf (path : String) : Route :=
  workplace ++ (components path).filter fun c => c ≠ "" ∧ c ≠ "."

/-- Names have at most so many bytes. -/
def nameLimit : Nat := 255

/-- Paths have at most so many bytes. -/
def pathLimit : Nat := 4095

/-- The components of a path. One that is empty or too long is refused without looking further. -/
def checkedComponents (path : String) : Except SystemFault (List String) :=
  if path.isEmpty then .error .notFound
  else if pathLimit < path.utf8ByteSize then .error .nameTooLong
  else .ok (components path)

/-- Follows a path one component at a time. All that is passed through has to be a directory; there
is nothing above the root of the system. -/
def follow (t : FileTree) (start : Route) : List String → Except SystemFault Route
  | [] => .ok start
  | c :: rest =>
    match t.node? start with
    | none => .error .notFound
    | some .directory =>
      if c = "" || c = "." then follow t start rest
      else if c = ".." then follow t start.dropLast rest
      else if nameLimit < c.utf8ByteSize then .error .nameTooLong
      else follow t (start ++ [c]) rest
    | some _ => .error .notDirectory

/-- Resolves a path. Its last component need not exist. -/
def resolveComponents (t : FileTree) : List String → Except SystemFault Route
  | "" :: rest => t.follow [] rest
  | cs => t.follow workplace cs

def resolve (t : FileTree) (path : String) : Except SystemFault Route :=
  match checkedComponents path with
  | .error e => .error e
  | .ok cs => t.resolveComponents cs

def contentOf? : Node → Option ByteArray
  | .file content => some content
  | .directory => none
  | .nullDevice | .fullDevice => some .empty

/-- Reads a text file. A directory can be opened but not read. -/
def readText (t : FileTree) (path : String) : Except FileFault String :=
  match t.resolve path with
  | .error e => .error ⟨.opening, path, e⟩
  | .ok route =>
    match t.node? route with
    | none => .error ⟨.opening, path, .notFound⟩
    | some n =>
      match contentOf? n with
      | none => .error ⟨.reading, path, .isDirectory⟩
      | some content =>
        match String.fromUTF8? content with
        | some text => .ok text
        | none => .error ⟨.reading, path, .notText⟩

/-- Where a file may be created. A slash at the end asks for a directory, which is no file: the last
name is not looked at then, only the directory that it would be in. -/
def creationRoute (t : FileTree) (path : String) : Except SystemFault Route :=
  match checkedComponents path with
  | .error e => .error e
  | .ok cs =>
    let named := (cs.reverse.dropWhile (· = "")).reverse
    let asked := if named.length < cs.length then named.dropLast ++ ["."] else cs
    match t.resolveComponents asked with
    | .error e => .error e
    | .ok route =>
      match t.node? route with
      | some .directory => .error .isDirectory
      | _ => .ok route

/-- Writes a file in place of what was there. -/
def write (t : FileTree) (path : String) (content : ByteArray) : Except FileFault FileTree :=
  match t.creationRoute path with
  | .error e => .error ⟨.creating, path, e⟩
  | .ok route =>
    match t.node? route with
    | some .nullDevice => .ok t
    | some .fullDevice => if content.isEmpty then .ok t else .error ⟨.writing, path, .noSpace⟩
    | _ => .ok (t.put route (.file content))

/-- The content of a file, if there is one. -/
def content? (t : FileTree) (path : String) : Option ByteArray :=
  match t.resolve path with
  | .ok route =>
    match t.node? route with
    | some (.file content) => some content
    | _ => none
  | .error _ => none

end FileTree

end ServoScript
