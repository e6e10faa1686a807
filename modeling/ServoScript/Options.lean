import ServoScript.Profile

/-!
# Command line options

Arguments are read from left to right, and the first one that settles the matter does: a request for
help or for the version, or a misuse. Every option may be given once.
-/

namespace ServoScript

structure Options where
  input : String := "main.txt"
  output : String := "main.bin"
  profile : Profile := .micro
  dump : Bool := false
  listing? : Option String := none
  table? : Option String := none

/-- What a command line asks for. -/
inductive Request where
  | help
  | version
  | misuse
  | run (options : Options)

namespace Options

/-- The options that take a value. -/
inductive Valued where
  | output
  | listing
  | table

/-- The options that are there or not. -/
inductive Flag where
  | mini
  | dump
  | help
  | version

inductive Name where
  | valued (option : Valued)
  | flag (flag : Flag)

def Name.ofLetter? : Char → Option Name
  | 'o' => some (.valued .output)
  | 'l' => some (.valued .listing)
  | 't' => some (.valued .table)
  | 'd' => some (.flag .dump)
  | 'h' => some (.flag .help)
  | 'V' => some (.flag .version)
  | _ => none

/-- Long names are not abbreviated. -/
def Name.ofLong? : String → Option Name
  | "output" => some (.valued .output)
  | "listing" => some (.valued .listing)
  | "table" => some (.valued .table)
  | "mini" => some (.flag .mini)
  | "dump" => some (.flag .dump)
  | "help" => some (.flag .help)
  | "version" => some (.flag .version)
  | _ => none

/-- What has been given so far. -/
structure Given where
  input? : Option String := none
  output? : Option String := none
  listing? : Option String := none
  table? : Option String := none
  mini : Bool := false
  dump : Bool := false

def Given.options (g : Given) : Options where
  input := g.input?.getD "main.txt"
  output := g.output?.getD "main.bin"
  profile := .ofMini g.mini
  dump := g.dump
  listing? := g.listing?
  table? := g.table?

/-- The answer to an argument: the matter is settled, or there is more to read. -/
abbrev Reading := Except Request Given

/-- Fills a place that must still be free. -/
def once (place : Option String) (value : String) (fill : Option String → Given) : Reading :=
  if place.isSome then .error .misuse else .ok (fill (some value))

def Given.setInput (g : Given) (value : String) : Reading :=
  once g.input? value fun v => { g with input? := v }

def Given.setValue (g : Given) (option : Valued) (value : String) : Reading :=
  match option with
  | .output => once g.output? value fun v => { g with output? := v }
  | .listing => once g.listing? value fun v => { g with listing? := v }
  | .table => once g.table? value fun v => { g with table? := v }

def Given.setFlag (g : Given) : Flag → Reading
  | .mini => if g.mini then .error .misuse else .ok { g with mini := true }
  | .dump => if g.dump then .error .misuse else .ok { g with dump := true }
  | .help => .error .help
  | .version => .error .version

/-- What is left to do after an argument. -/
inductive Progress where
  | given (g : Given)
  /-- The option's value is the next argument. -/
  | awaits (g : Given) (option : Valued)

/-- A value that is attached to the letter of its option; an equals sign may stand between. -/
def attachedValue (cs : List Char) : String :=
  match cs with
  | '=' :: cs => String.ofList cs
  | cs => String.ofList cs

/-- Letters after one dash. What follows the letter of an option with a value is that value. -/
def readLetters (g : Given) : List Char → Except Request Progress
  | [] => .ok (.given g)
  | c :: cs =>
    match Name.ofLetter? c with
    | none => .error .misuse
    | some (.flag f) =>
      match g.setFlag f with
      | .ok g => readLetters g cs
      | .error r => .error r
    | some (.valued v) =>
      if cs.isEmpty then .ok (.awaits g v) else (g.setValue v (attachedValue cs)).map .given

/-- A name after two dashes, with the value that follows an equals sign. -/
def readLong (g : Given) (cs : List Char) : Except Request Progress :=
  let name := String.ofList (cs.takeWhile (· ≠ '='))
  match Name.ofLong? name, cs.dropWhile (· ≠ '=') with
  | none, _ => .error .misuse
  | some (.flag f), [] => (g.setFlag f).map .given
  | some (.flag _), _ => .error .misuse
  | some (.valued v), [] => .ok (.awaits g v)
  | some (.valued v), _ :: value => (g.setValue v (String.ofList value)).map .given

/-- Arguments after a lone double dash are no options. -/
def readPositionals (g : Given) : List String → Reading
  | [] => .ok g
  | arg :: rest =>
    match g.setInput arg with
    | .ok g => readPositionals g rest
    | .error r => .error r

/-- A lone dash is a value, anything else with a dash in front is not. -/
def isValue (arg : String) : Bool :=
  match arg.toList with
  | '-' :: _ :: _ => false
  | _ => true

def readArguments (g : Given) : List String → Reading
  | [] => .ok g
  | arg :: rest =>
    let progress : Except Request Progress :=
      match arg.toList with
      | '-' :: '-' :: cs => readLong g cs
      | '-' :: c :: cs => readLetters g (c :: cs)
      | _ => (g.setInput arg).map .given
    if arg = "--" then readPositionals g rest
    else
      match progress with
      | .error r => .error r
      | .ok (.given g) => readArguments g rest
      | .ok (.awaits g option) =>
        match rest with
        | [] => .error .misuse
        | value :: rest =>
          if isValue value then
            match g.setValue option value with
            | .ok g => readArguments g rest
            | .error r => .error r
          else .error .misuse

end Options

/-- Reads a command line. -/
def Request.ofArguments (args : List String) : Request :=
  match Options.readArguments {} args with
  | .ok g => .run g.options
  | .error r => r

end ServoScript
