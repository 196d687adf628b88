import RegCode.Command.Flag

/-!
# Command lines

Which command an argument list asks for, and with what. The command is named by the first argument that is
not a flag, wherever it stands; in looking for it, a flag that may want a value is taken to have one. Help and
completions are answered by the library that reads the arguments, whose texts are not modelled.
-/

namespace RegCode.Command

inductive Subcommand where
  | repl
  | dump
  | help
  | completion
  | complete
  | completeNames
  deriving DecidableEq, Repr

namespace Subcommand

def name : Subcommand → Bytes
  | repl => txt "repl"
  | dump => txt "dump"
  | help => txt "help"
  | completion => txt "completion"
  | complete => txt "__complete"
  | completeNames => txt "__completeNoDesc"

def all : List Subcommand := [repl, dump, help, completion, complete, completeNames]

def named? (n : Bytes) : Option Subcommand := all.find? fun c => c.name == n

end Subcommand

/-- Whether a flag is a switch that is known while the command is looked for. Help is added only then. -/
def Flag.isKnownSwitch (f : Flag) : Bool := f.isSwitch && f ≠ help

/-- Whether a flag on its own stands for a value behind it: a long one that is no known switch, or a short
one alone that is none. -/
def wantsValue (arg : Bytes) : Bool :=
  !arg.contains 61 &&
    if endOfFlags.isPrefixOf arg then !(Flag.named? Flag.all (arg.drop 2)).any Flag.isKnownSwitch
    else
      match arg with
      | [45, c] => !(Flag.lettered? Flag.all c).any Flag.isKnownSwitch
      | _ => false

/-- The first argument that is not a flag and not the value of one. A flag that wants a value is the end of
the search if at most one argument follows. -/
def firstWord? : List Bytes → Option Bytes
  | [] => none
  | arg :: rest =>
    if arg == endOfFlags then none
    else if wantsValue arg then
      match rest with
      | _ :: rest@(_ :: _) => firstWord? rest
      | _ => none
    else if arg.isEmpty || arg.head? == some 45 then firstWord? rest
    else some arg

/-- The arguments without the first that is `word` and not the value of a flag. -/
def without (word : Bytes) : List Bytes → List Bytes
  | [] => []
  | arg :: rest =>
    if arg == endOfFlags then arg :: rest
    else if wantsValue arg then
      match rest with
      | [] => [arg]
      | value :: rest => arg :: value :: without word rest
    else if arg == word then rest
    else arg :: without word rest

inductive Invocation where
  | compile (source : Option Bytes) (options : Options)
  | dump (path : Bytes) (options : Options)
  | repl (options : Options)
  /-- Asks for help or for completions. -/
  | assist (args : List Bytes)

namespace Invocation

def options : Invocation → Options
  | compile _ o => o
  | dump _ o => o
  | repl o => o
  | assist _ => {}

/-- Reads a command line. Flags are looked at before the number of arguments is, and help before that. -/
def ofArgs (args : List Bytes) : Except UsageError Invocation := do
  match (firstWord? args).bind Subcommand.named? with
  | none =>
    let (given, o) ← readFlags Flag.all args
    if o.help then return .assist args
    match given with
    | [] => return .compile none o
    | [source] => return .compile (some source) o
    | given => throw (.tooManyArgs 1 given.length)
  | some .dump =>
    let (given, o) ← readFlags Flag.shared (without (Subcommand.name .dump) args)
    if o.help then return .assist args
    match given with
    | [path] => return .dump path o
    | given => throw (.wrongArgCount 1 given.length)
  | some .repl =>
    let (given, o) ← readFlags Flag.shared (without (Subcommand.name .repl) args)
    if o.help then return .assist args
    match given with
    | [] => return .repl o
    | word :: _ => throw (.unknownCommand word (txt "epsilonc repl"))
  | some _ => return .assist args

end Invocation

end RegCode.Command
