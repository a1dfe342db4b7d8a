import Calculator.Decimal.Shortest
import Calculator.Evaluation

/-!
# The command line

The program takes expressions as its argument, or a path of a file that holds them, and prints
one result per line. This module says what a list of arguments asks for and what the program
answers: an exit code and the texts of its two output streams. Reading a file is left to a
function that is passed in.

Arguments are read from left to right. Flags stand anywhere before `--`, the one other argument
is the contents. Since expressions may begin with a sign, an argument that begins with a hyphen
and is not made of known flags is the contents, as long as there are none yet. An argument that
cannot be read is a misuse as soon as it is met, and a request for the version or for help is
answered as soon as it is met.
-/

namespace Calculator.CommandLine

/-- The flags of the program. -/
inductive Flag where
  | file
  | quiet
  | version
  | help
  deriving DecidableEq, Repr

namespace Flag

/-- The flag of a letter after a single hyphen. -/
def ofShort? : Char → Option Flag
  | 'f' => some file
  | 'q' => some quiet
  | 'V' => some version
  | 'h' => some help
  | _ => none

/-- The flag of a name after two hyphens. -/
def ofLong? : String → Option Flag
  | "file" => some file
  | "quiet" => some quiet
  | "version" => some version
  | "help" => some help
  | _ => none

end Flag

/-- How the program is to be run. -/
structure Options where
  /-- Whether the contents are the path of a file. -/
  file : Bool
  /-- Whether only the last result is printed. -/
  quiet : Bool
  contents : String
  deriving DecidableEq, Repr

/-- What the arguments ask for. -/
inductive Request where
  | run (options : Options)
  | version
  | help
  | misuse
  deriving DecidableEq, Repr

/-- What has been read of the arguments. -/
structure Reading where
  file : Bool := false
  quiet : Bool := false
  contents : Option String := none
  deriving DecidableEq, Repr

namespace Reading

/-- Take a flag, which may be given once. The version and the help settle the request. -/
def flag (r : Reading) : Flag → Except Request Reading
  | .file => if r.file then .error .misuse else .ok { r with file := true }
  | .quiet => if r.quiet then .error .misuse else .ok { r with quiet := true }
  | .version => .error .version
  | .help => .error .help

/-- Take the contents, which may be given once. -/
def positional (r : Reading) (arg : String) : Except Request Reading :=
  if r.contents.isSome then .error .misuse else .ok { r with contents := some arg }

/-- Take the letters of a cluster of short flags one after the other. -/
def cluster (r : Reading) (letters : List Char) : Except Request Reading :=
  letters.foldlM (fun r c => (Flag.ofShort? c).elim (.error .misuse) r.flag) r

/-- Take an argument before `--`. Long flags have no values. -/
def argument (r : Reading) (arg : String) : Except Request Reading :=
  match arg.toList with
  | '-' :: '-' :: long =>
    let name := long.takeWhile (· != '=')
    match Flag.ofLong? (String.ofList name) with
    | some flag => if name = long then r.flag flag else .error .misuse
    | none => r.positional arg
  | '-' :: c :: cs =>
    if r.contents.isNone && (c :: cs).any (Flag.ofShort? · |>.isNone) then r.positional arg
    else r.cluster (c :: cs)
  | _ => r.positional arg

/-- Take the arguments from left to right; all that follow `--` are contents. -/
def arguments (r : Reading) : List String → Except Request Reading
  | [] => .ok r
  | arg :: args =>
    if arg = "--" then args.foldlM positional r
    else r.argument arg >>= fun r => r.arguments args

end Reading

/-- What a list of arguments asks for. Without contents there is nothing to run. -/
def Request.ofArguments (args : List String) : Request :=
  match ({} : Reading).arguments args with
  | .error request => request
  | .ok r => r.contents.elim .misuse fun contents => .run ⟨r.file, r.quiet, contents⟩

/-- Why a file could not be read. -/
inductive ReadFailure where
  | notFound
  | isDirectory
  | notText
  | other (reason : String)
  deriving DecidableEq, Repr

/-- The reason as messages give it. -/
def ReadFailure.message : ReadFailure → String
  | notFound => "No such file or directory (os error 2)"
  | isDirectory => "Is a directory (os error 21)"
  | notText => "stream did not contain valid UTF-8"
  | other reason => reason

/-- What the program answers. -/
structure Outcome where
  code : Nat
  stdout : String := ""
  stderr : String := ""
  deriving DecidableEq, Repr

/-- The result lines of a list of values. -/
def resultLines (values : List Float) : String :=
  String.join (values.map fun x => formatNumber x ++ "\n")

/-- The outcome of what an evaluation still brings, when a text has been printed before. Values are
printed as they come, and the first error ends it. In quiet mode a value is kept until the next one
comes, and the last one is printed at the end. -/
def report (quiet : Bool) (s : Evaluation) (last : Option Float) (printed : String) : Outcome :=
  match _h : s.next with
  | (none, _) => { code := 0, stdout := printed ++ resultLines last.toList }
  | (some (.ok x), s') =>
    if quiet then report quiet s' (some x) printed
    else report quiet s' last (printed ++ resultLines [x])
  | (some (.error e), _) => { code := 1, stdout := printed, stderr := e.message ++ "\n" }
termination_by s.remaining
decreasing_by all_goals exact Evaluation.next_remaining _h

/-- The text of a file that was read. -/
def sourceText (bytes : Except ReadFailure ByteArray) : Except ReadFailure String :=
  bytes >>= fun bytes => (String.fromUTF8? bytes).elim (.error .notText) .ok

/-- The outcome of a run on a source, or on a file that could not be read. -/
def Options.outcome (options : Options) (source : Except ReadFailure String) : Outcome :=
  match source with
  | .ok source => report options.quiet (.ofString source) none ""
  | .error failure =>
    { code := 1
      stderr :=
        "Failed to read the input file '" ++ options.contents ++ "': " ++ failure.message ++ "\n" }

/-- The text of the version. -/
def versionText : String :=
  "reckon 0.1.0\n"

/-- How the program is called. -/
def usageText : String :=
  "Usage: reckon [OPTIONS] <CONTENTS>\n"

/-- The text of the help. -/
def helpText : String :=
  "A small arithmetic expression evaluator: lexer, precedence parser and tree-walking " ++
  "interpreter.\n\n" ++ usageText ++
  "\nArguments:\n" ++
  "  <CONTENTS>  The expressions to evaluate, or a path when `--file` is given\n" ++
  "\nOptions:\n" ++
  "  -f, --file     Tells reckon to read the expressions from a file instead of the argument\n" ++
  "  -q, --quiet    Only print the result of the last expression\n" ++
  "  -h, --help     Print help\n" ++
  "  -V, --version  Print version\n"

variable {m : Type → Type} [Monad m]

/-- What the program answers to a request, given a way to read files. -/
def Request.outcome (readFile : String → m (Except ReadFailure ByteArray)) : Request → m Outcome
  | run options =>
    if options.file then do
      let bytes ← readFile options.contents
      return options.outcome (sourceText bytes)
    else return options.outcome (.ok options.contents)
  | version => return { code := 0, stdout := versionText }
  | help => return { code := 0, stdout := helpText }
  | misuse => return { code := 2, stderr := usageText }

/-- What the program answers to a list of arguments, given a way to read files. -/
def outcome (readFile : String → m (Except ReadFailure ByteArray)) (args : List String) :
    m Outcome :=
  (Request.ofArguments args).outcome readFile

end Calculator.CommandLine
