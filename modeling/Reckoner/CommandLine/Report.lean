import Reckoner.CommandLine.Options
import Reckoner.Evaluation
import Reckoner.Text.Lines

/-! What the command prints. Each expression has one line: its value goes to standard output, the reason why
    it has none to standard error. Expressions without a value are counted, and the count decides how the
    command ends. Help, and what is printed on mistaken arguments, stand for texts of the library that reads the
    arguments, whose wording is its own: of those runs the exit code is all that counts. -/

namespace Reckoner.CommandLine

/-- What a run of the command leaves. -/
structure Output where
  exit : Nat
  stdout : String
  stderr : String
  deriving DecidableEq, Repr

/-- How much of a text an expression has to span. -/
def Options.consumption (options : Options) : Consumption := if options.complete then .whole else .leading

/-- The line for an expression, `ok` where it has a value. -/
def report (options : Options) (input : String) : Except String String :=
  match evaluate input options.consumption with
  | .ok evaluation =>
    let rest := if options.showRemaining then "\t" ++ Text.quote evaluation.remaining else ""
    .ok (Decimal.text evaluation.value ++ rest ++ "\n")
  | .error e => .error (Text.quote input ++ ": " ++ e.message ++ "\n")

/-- What has been printed so far, and how many expressions had no value. -/
structure Progress where
  stdout : String := ""
  stderr : String := ""
  failures : Nat := 0
  deriving DecidableEq, Repr

namespace Progress

/-- Prints the line for one more expression. -/
def add (p : Progress) : Except String String → Progress
  | .ok line => { p with stdout := p.stdout ++ line }
  | .error line => { p with stderr := p.stderr ++ line, failures := p.failures + 1 }

/-- The end of a run that met all its expressions. -/
def finish (p : Progress) : Output :=
  if p.failures = 0 then ⟨0, p.stdout, p.stderr⟩
  else
    ⟨1, p.stdout, p.stderr ++ "Error: " ++ toString p.failures ++ " expression(s) could not be evaluated\n"⟩

/-- The end of a run that met bytes that are no text. -/
def abandon (p : Progress) : Output :=
  ⟨1, p.stdout,
    p.stderr ++ "Error: failed to read stdin\n\nCaused by:\n    stream did not contain valid UTF-8\n"⟩

end Progress

/-- Evaluates lines in order, up to one that is no text. Empty lines are passed over. -/
def evaluateLines (options : Options) (p : Progress) : List (List UInt8) → Output
  | [] => p.finish
  | line :: lines =>
    match Text.decode? line with
    | none => p.abandon
    | some text =>
      if text = "" then evaluateLines options p lines
      else evaluateLines options (p.add (report options text)) lines

/-- Evaluates the expression that the options give, or else the lines of `stdin`. -/
def evaluateAll (options : Options) (stdin : List UInt8) : Output :=
  match options.expression with
  | some expression => (({} : Progress).add (report options expression)).finish
  | none => evaluateLines options {} (Text.lines stdin)

/-! ### Other requests -/

/-- How the command is called. -/
def usage : String := "Usage: combicalc [OPTIONS] [EXPRESSION]"

/-- What the command does and takes. -/
def helpText : String :=
  String.join <| [
    "A backtracking monadic parser-combinator engine and an arithmetic grammar built on it",
    "",
    usage,
    "",
    "Arguments:",
    "  [EXPRESSION]  Expression to evaluate. Without it, every line of stdin is evaluated",
    "",
    "Options:",
    "      --complete        Reject input that is not consumed entirely by the expression",
    "      --show-remaining  Also print the unconsumed rest of the input",
    "  -h, --help            Print help",
    "  -V, --version         Print version"].map (· ++ "\n")

/-- What the command prints on mistaken arguments. -/
def UsageError.output (e : UsageError) : Output :=
  ⟨2, "", "error: " ++ e.message ++
    "\n\n" ++ usage ++ "\n\nFor more information, try '--help'.\n"⟩

/-- Whether a request reads standard input. -/
def Request.readsStdin : Request → Bool
  | .evaluate options => options.expression.isNone
  | .version | .help => false

/-- What a request prints, where standard input holds `stdin`. -/
def Request.output (stdin : List UInt8) : Request → Output
  | .evaluate options => evaluateAll options stdin
  | .version => ⟨0, "combicalc 0.1.0\n", ""⟩
  | .help => ⟨0, helpText, ""⟩

/-- What the command prints when it is called with `arguments`, where standard input holds `stdin`. -/
def run (arguments : List String) (stdin : List UInt8) : Output :=
  match parse arguments with
  | .error e => e.output
  | .ok request => request.output stdin

end Reckoner.CommandLine
