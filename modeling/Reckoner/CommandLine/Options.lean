/-! The arguments of the command. They are read from left to right, and the first that settles the matter
    decides: a request for the version or for help, or a mistake. After `--` every argument is an
    expression. The messages for mistakes stand for those of the library that reads the arguments, whose wording
    is its own: that there is a mistake is all that counts. -/

namespace Reckoner.CommandLine

/-- What a run of the command has to do. -/
structure Options where
  /-- The expression to evaluate; the lines of standard input where there is none. -/
  expression : Option String := none
  /-- Refuse an expression that does not span its whole text. -/
  complete : Bool := false
  /-- Print what follows the expression too. -/
  showRemaining : Bool := false
  deriving DecidableEq, Repr

/-- What the arguments ask for. -/
inductive Request where
  | evaluate (options : Options)
  | version
  | help
  deriving DecidableEq, Repr

/-- What is wrong with the arguments. -/
inductive UsageError where
  | unexpected (argument : String)
  | repeated (option : String)
  | valueFor (option : String)
  deriving DecidableEq, Repr

namespace UsageError

def message : UsageError → String
  | .unexpected argument => s!"unexpected argument '{argument}' found"
  | .repeated option => s!"the argument '{option}' cannot be used multiple times"
  | .valueFor option => s!"unexpected value for '{option}' found; no more were expected"

end UsageError

/-- Takes an argument as the expression. -/
def Options.positional (options : Options) (argument : String) : Except UsageError Options :=
  match options.expression with
  | none => .ok { options with expression := some argument }
  | some _ => .error (.unexpected argument)

/-- Takes all arguments as expressions. -/
def Options.positionals (options : Options) (arguments : List String) : Except UsageError Options :=
  arguments.foldlM Options.positional options

/-- The options that may be given, in their long forms. -/
def longOptions : List String := ["--complete", "--show-remaining", "--version", "--help"]

/-- Reads the arguments that follow those already in `options`. An argument with one dash is a row of short
    options, of which the first decides; a lone dash is an expression. -/
def parseFrom (options : Options) : List String → Except UsageError Request
  | [] => .ok (.evaluate options)
  | "--" :: arguments => (options.positionals arguments).map .evaluate
  | "--complete" :: arguments =>
    if options.complete then .error (.repeated "--complete")
    else parseFrom { options with complete := true } arguments
  | "--show-remaining" :: arguments =>
    if options.showRemaining then .error (.repeated "--show-remaining")
    else parseFrom { options with showRemaining := true } arguments
  | "--version" :: _ => .ok .version
  | "--help" :: _ => .ok .help
  | argument :: arguments =>
    match argument.toList with
    | '-' :: 'V' :: _ => .ok .version
    | '-' :: 'h' :: _ => .ok .help
    | '-' :: _ :: _ =>
      match longOptions.find? fun option => argument.startsWith (option ++ "=") with
      | some option => .error (.valueFor option)
      | none => .error (.unexpected argument)
    | _ =>
      match options.positional argument with
      | .ok options => parseFrom options arguments
      | .error e => .error e

/-- Reads the arguments of the command. -/
def parse (arguments : List String) : Except UsageError Request := parseFrom {} arguments

end Reckoner.CommandLine
