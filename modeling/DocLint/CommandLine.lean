import DocLint.CommandLine.Help

/-!
# The command line

Arguments are read from the left (`Request.ofArgs`). The first that asks for help or the version ends the reading, and
so does the first that is wrong: an unknown option, an option given twice, a missing or empty directory, a value for a
switch, or anything that is no option. Short options may be written together, and `--` ends the options.
`CommandLine.run` answers a request on a file tree.
-/

namespace DocLint

/-- The options of a run, as far as they are given. -/
structure Options where
  directory : Option Path := none
  docstrings : Bool := false
  dryRun : Bool := false
  verbose : Bool := false
  noColor : Bool := false
  deriving DecidableEq, Repr

/-- What a command line asks for. -/
inductive Request
  | lint (options : Options)
  | help
  | version
  | wrongUsage
  deriving DecidableEq, Repr

namespace Request

/-- How the reading goes on after an argument. -/
inductive Progress
  | next (options : Options)
  /-- The directory is the next argument. -/
  | awaitDirectory (options : Options)
  | finished (request : Request)
  deriving DecidableEq, Repr

section Options

/-- Sets the directory, which must not be empty, nor given already. -/
def setDirectory (o : Options) (value : Text) : Progress :=
  if value.isEmpty || o.directory.isSome then .finished .wrongUsage else .next { o with directory := some ⟨value⟩ }

/-- Sets a switch that must not be set already. -/
def setSwitch (given : Bool) (o : Options) : Progress := if given then .finished .wrongUsage else .next o

/-- Reads short options written together. -/
def readShort : Options → Text → Progress
  | o, [] => .next o
  | o, 'd' :: [] => .awaitDirectory o
  | o, 'd' :: '=' :: value => setDirectory o value
  | o, 'd' :: value => setDirectory o value
  | _, 'h' :: _ => .finished .help
  | _, 'V' :: _ => .finished .version
  | o, 'n' :: rest => if o.dryRun then .finished .wrongUsage else readShort { o with dryRun := true } rest
  | o, 'v' :: rest => if o.verbose then .finished .wrongUsage else readShort { o with verbose := true } rest
  | _, _ => .finished .wrongUsage

/-- Reads a long option with the value behind its equals sign, if it has one. -/
def readLong (o : Options) (name : Text) (value : Option Text) : Progress :=
  if name = "directory".toList then
    match value with
    | some value => setDirectory o value
    | none => .awaitDirectory o
  else if value.isSome then .finished .wrongUsage
  else if name = "docstrings".toList then setSwitch o.docstrings { o with docstrings := true }
  else if name = "dry-run".toList then setSwitch o.dryRun { o with dryRun := true }
  else if name = "verbose".toList then setSwitch o.verbose { o with verbose := true }
  else if name = "no-color".toList then setSwitch o.noColor { o with noColor := true }
  else if name = "help".toList then .finished .help
  else if name = "version".toList then .finished .version
  else .finished .wrongUsage

/-- Reads an argument that is not `--`. -/
def readArg (o : Options) : Text → Progress
  | '-' :: '-' :: option =>
    let value := option.dropWhile (· != '=')
    readLong o (Text.before '=' option) (if value.isEmpty then none else some value.tail)
  | '-' :: c :: rest => readShort o (c :: rest)
  | _ => .finished .wrongUsage

end Options

/-- The argument cannot be the value of the option before it. -/
def looksLikeOption : Text → Bool
  | '-' :: _ :: _ => true
  | _ => false

/-- Reads the arguments that follow the options read so far. -/
def ofArgsFrom (o : Options) : List Text → Request
  | [] => .lint o
  | arg :: rest =>
    if arg = "--".toList then if rest.isEmpty then .lint o else .wrongUsage
    else match readArg o arg with
      | .next o => ofArgsFrom o rest
      | .finished request => request
      | .awaitDirectory o =>
        match rest with
        | [] => .wrongUsage
        | value :: rest =>
          if looksLikeOption value then .wrongUsage
          else match setDirectory o value with
            | .next o => ofArgsFrom o rest
            | _ => .wrongUsage

/-- What the arguments ask for. -/
def ofArgs (args : List Text) : Request := ofArgsFrom {} args

end Request

namespace Options

/-- The directory to check. -/
def root (o : Options) : Path := o.directory.getD ⟨Path.here⟩

/-- What the checks are to do. -/
def checks (o : Options) : LintOptions := ⟨o.docstrings, o.dryRun, o.verbose⟩

end Options

namespace CommandLine

/-- What a command answers: its exit code and what it prints. -/
structure Answer where
  code : Nat
  output : Text
  error : Text := []
  deriving DecidableEq, Repr

/-- A text whose lines after the first are indented like the first. -/
def indented (s : Text) : Text :=
  "    ".toList ++ s.flatMap fun c => if c = '\n' then "\n    ".toList else [c]

/-- The answer when the root of the check is no directory. -/
def failure (e : NotADirectory) : Answer :=
  { code := 1
    output := []
    error := Console.line ("Error: Failed to check ".toList ++ e.root.text) ++ ['\n'] ++
      Console.line "Caused by:".toList ++ Console.line (indented e.message) }

/-- The answer to wrong usage. -/
def usageError : Answer :=
  { code := 2
    output := []
    error := Console.line "error: unexpected arguments".toList ++ ['\n'] ++
      Console.line "For more information, try '--help'.".toList }

/-- The answer to a check that went through. -/
def success (colored : Bool) (o : Options) (outcomes : List FileOutcome) : Answer :=
  ⟨0, Console.run (colored && !o.noColor) o.verbose outcomes, []⟩

/-- The answer that tells the help. -/
def help (styled : Bool) : Answer := ⟨0, Help.render styled, []⟩

/-- The answer that tells the version. -/
def version : Answer := ⟨0, Help.version, []⟩

/-- Answers a request on a file tree; `colored` tells whether the output can have colors and styles. -/
def answer (colored : Bool) (t : FileTree) : Request → Answer × FileTree
  | .help => (help colored, t)
  | .version => (version, t)
  | .wrongUsage => (usageError, t)
  | .lint o =>
    match t.lint o.root o.checks with
    | .ok (outcomes, t) => (success colored o outcomes, t)
    | .error e => (failure e, t)

/-- Runs a command line on a file tree. -/
def run (colored : Bool) (args : List Text) (t : FileTree) : Answer × FileTree :=
  answer colored t (Request.ofArgs args)

end CommandLine
end DocLint
