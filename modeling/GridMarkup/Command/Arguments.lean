import GridMarkup.Compile

/-!
# Command lines

A command line names one of two commands, its flags and at most one path. Flags that only count how
much to log may also stand in front of the command.
-/

namespace GridMarkup.Command

inductive Source where
  | input
  | path (path : String)
  deriving DecidableEq, Repr

inductive Job where
  | compile (options : Options) (source : Source)
  | tokens (decode : Bool) (source : Source)
  deriving DecidableEq, Repr

def Job.source : Job → Source
  | .compile _ source => source
  | .tokens _ source => source

inductive Request where
  | run (verbose : Bool) (job : Job)
  | help
  | misuse
  deriving DecidableEq, Repr

/-! ## Flags -/

inductive Flag where
  | stdin
  | decodeEntities
  | noGrid
  | noResources
  deriving DecidableEq, Repr

def Flag.text : Flag → String
  | .stdin => "--stdin"
  | .decodeEntities => "--decode-entities"
  | .noGrid => "--no-grid"
  | .noResources => "--no-resources"

def compileFlags : List Flag := [.stdin, .decodeEntities, .noGrid, .noResources]

def tokensFlags : List Flag := [.stdin, .decodeEntities]

/-- An argument before any `--`. -/
inductive Word where
  | flag (f : Flag)
  | verbose
  | help
  | endOfOptions
  | plain (s : String)
  | unknown
  deriving DecidableEq, Repr

/-- A cluster of short options: help as soon as it is asked for. -/
def cluster : List Char → Word
  | [] => .verbose
  | 'v' :: rest => cluster rest
  | 'h' :: _ => .help
  | _ => .unknown

def classify (flags : List Flag) (argument : String) : Word :=
  match flags.find? (·.text == argument) with
  | some f => .flag f
  | none =>
    if argument = "--verbose" then .verbose
    else if argument = "--help" then .help
    else
      match argument.toList with
      | ['-', '-'] => .endOfOptions
      | '-' :: '-' :: _ => .unknown
      | '-' :: c :: rest => cluster (c :: rest)
      | _ => .plain argument

/-! ## Arguments of a command -/

structure Settings where
  flags : List Flag := []
  path : Option String := none
  verbose : Bool := false
  deriving DecidableEq, Repr

inductive Stop where
  | help
  | misuse
  deriving DecidableEq, Repr

/-- One path, and not an empty one. -/
def Settings.setPath (s : Settings) (path : String) : Except Stop Settings :=
  if s.path.isSome ∨ path = "" then .error .misuse else .ok { s with path := some path }

/-- Each flag stands at most once. -/
def Settings.setFlag (s : Settings) (f : Flag) : Except Stop Settings :=
  if s.flags.contains f then .error .misuse else .ok { s with flags := f :: s.flags }

def readArguments (flags : List Flag) (s : Settings) : List String → Except Stop Settings
  | [] => .ok s
  | argument :: rest =>
    match classify flags argument with
    | .flag f => s.setFlag f >>= fun s => readArguments flags s rest
    | .verbose => readArguments flags { s with verbose := true } rest
    | .help => .error .help
    | .endOfOptions => rest.foldlM Settings.setPath s
    | .plain path => s.setPath path >>= fun s => readArguments flags s rest
    | .unknown => .error .misuse

/-- Standard input goes before a path; one of them has to be there. -/
def Settings.source? (s : Settings) : Option Source :=
  if s.flags.contains .stdin then some .input else s.path.map .path

def request (flags : List Flag) (verbose : Bool) (arguments : List String)
    (job : Settings → Source → Job) : Request :=
  match readArguments flags { verbose := verbose } arguments with
  | .error .help => .help
  | .error .misuse => .misuse
  | .ok s =>
    match s.source? with
    | none => .misuse
    | some source => .run s.verbose (job s source)

def compileJob (s : Settings) (source : Source) : Job :=
  .compile
    { decode := s.flags.contains .decodeEntities
      grid := !s.flags.contains .noGrid
      resources := !s.flags.contains .noResources }
    source

def tokensJob (s : Settings) (source : Source) : Job :=
  .tokens (s.flags.contains .decodeEntities) source

def commands : List String := ["compile", "tokens", "help"]

def parse (verbose : Bool) : List String → Request
  | [] => .misuse
  | argument :: rest =>
    match classify [] argument with
    | .verbose => parse true rest
    | .help => .help
    | .plain "compile" => request compileFlags verbose rest compileJob
    | .plain "tokens" => request tokensFlags verbose rest tokensJob
    | .plain "help" => if rest.length ≤ 1 ∧ rest.all commands.contains then .help else .misuse
    | _ => .misuse

def usage : String :=
  "Usage: boot [-v] compile [--decode-entities] [--no-grid] [--no-resources] PATH\n" ++
    "       boot [-v] compile [--decode-entities] [--no-grid] [--no-resources] --stdin\n" ++
    "       boot [-v] tokens [--decode-entities] PATH\n" ++
    "       boot [-v] tokens [--decode-entities] --stdin\n"

end GridMarkup.Command
