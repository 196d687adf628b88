import RegCode.Text.Quoted

/-!
# Flags

The options of the command line. Long flags stand behind two dashes and short ones, which may be run
together, behind one. A switch needs no value; any other flag takes what is written to it or else the next
argument. Flags and arguments may be mixed, up to two dashes alone.
-/

namespace RegCode.Command

inductive Flag where
  | check
  | output
  | quiet
  | verbose
  | noColor
  | help
  deriving DecidableEq, Repr

namespace Flag

def name : Flag → Bytes
  | check => txt "check"
  | output => txt "output"
  | quiet => txt "quiet"
  | verbose => txt "verbose"
  | noColor => txt "no-color"
  | help => txt "help"

def letter? : Flag → Option UInt8
  | output => some 111
  | quiet => some 113
  | verbose => some 118
  | help => some 104
  | check | noColor => none

def isSwitch : Flag → Bool
  | output => false
  | _ => true

def shown (f : Flag) : Bytes :=
  (match f.letter? with
    | some c => txt "-" ++ [c] ++ txt ", "
    | none => []) ++ txt "--" ++ f.name

/-- The flags of every command. -/
def shared : List Flag := [verbose, noColor, help]

def all : List Flag := [check, output, quiet] ++ shared

def named? (flags : List Flag) (n : Bytes) : Option Flag := flags.find? fun f => f.name == n

def lettered? (flags : List Flag) (c : UInt8) : Option Flag := flags.find? fun f => f.letter? == some c

end Flag

structure Options where
  check : Bool := false
  output : Bytes := txt "program.evm"
  quiet : Bool := false
  verbose : Bool := false
  noColor : Bool := false
  help : Bool := false
  deriving DecidableEq, Repr

inductive UsageError where
  | badFlag (arg : Bytes)
  | unknownFlag (name : Bytes)
  | unknownLetter (letter : UInt8) (group : Bytes)
  | noValue (arg : Bytes)
  | noLetterValue (letter : UInt8) (group : Bytes)
  | badSwitch (value : Bytes) (flag : Flag)
  | tooManyArgs (limit given : Nat)
  | wrongArgCount (expected given : Nat)
  | unknownCommand (name path : Bytes)
  deriving DecidableEq, Repr

def UsageError.message : UsageError → Bytes
  | badFlag arg => txt "bad flag syntax: " ++ arg
  | unknownFlag name => txt "unknown flag: --" ++ name
  | unknownLetter c group =>
    txt "unknown shorthand flag: " ++ Text.Quoted.quoteChar (Char.ofNat c.toNat) ++ txt " in -" ++ group
  | noValue arg => txt "flag needs an argument: " ++ arg
  | noLetterValue c group =>
    txt "flag needs an argument: " ++ Text.Quoted.quoteChar (Char.ofNat c.toNat) ++ txt " in -" ++ group
  | badSwitch value flag =>
    txt "invalid argument " ++ Text.Quoted.quote value ++ txt " for " ++ Text.Quoted.quote flag.shown ++
      txt " flag: strconv.ParseBool: parsing " ++ Text.Quoted.quote value ++ txt ": invalid syntax"
  | tooManyArgs limit given =>
    txt "accepts at most " ++ Text.decimal limit ++ txt " arg(s), received " ++ Text.decimal given
  | wrongArgCount expected given =>
    txt "accepts " ++ Text.decimal expected ++ txt " arg(s), received " ++ Text.decimal given
  | unknownCommand name path =>
    txt "unknown command " ++ Text.Quoted.quote name ++ txt " for " ++ Text.Quoted.quote path

def switchValue? (b : Bytes) : Option Bool :=
  if [txt "1", txt "t", txt "T", txt "true", txt "TRUE", txt "True"].contains b then some true
  else if [txt "0", txt "f", txt "F", txt "false", txt "FALSE", txt "False"].contains b then some false
  else none

/-- The value of a switch that is named without one. -/
def switchedOn : Bytes := txt "true"

namespace Options

def set (o : Options) (f : Flag) (value : Bytes) : Except UsageError Options :=
  match f, switchValue? value with
  | .output, _ => .ok { o with output := value }
  | .check, some b => .ok { o with check := b }
  | .quiet, some b => .ok { o with quiet := b }
  | .verbose, some b => .ok { o with verbose := b }
  | .noColor, some b => .ok { o with noColor := b }
  | .help, some b => .ok { o with help := b }
  | f, none => .error (.badSwitch value f)

end Options

/-- Options after a flag, and whether the flag took the next argument. -/
abbrev Taken := Options × Bool

/-- Sets a flag that takes the next argument, if there is one. -/
def setNext (o : Options) (f : Flag) (next? : Option Bytes) (missing : UsageError) :
    Except UsageError Taken :=
  match next? with
  | some value => (o.set f value).map (·, true)
  | none => .error missing

def longFlag (flags : List Flag) (arg : Bytes) (next? : Option Bytes) (o : Options) :
    Except UsageError Taken := do
  let body := arg.drop 2
  match body with
  | [] | 45 :: _ | 61 :: _ => throw (.badFlag arg)
  | _ => pure ()
  let name := body.takeWhile (· != 61)
  let some f := Flag.named? flags name | throw (.unknownFlag name)
  match body.drop name.length with
  | _ :: value => return (← o.set f value, false)
  | [] =>
    if f.isSwitch then return (← o.set f switchedOn, false)
    setNext o f next? (.noValue arg)

/-- Reads a group of short flags. A group that begins with `test.` is passed over. -/
def shortFlags (flags : List Flag) (next? : Option Bytes) (o : Options) :
    Bytes → Except UsageError Taken
  | [] => .ok (o, false)
  | c :: more => do
    let group := c :: more
    if (txt "test.").isPrefixOf group then return (o, false)
    let some f := Flag.lettered? flags c | throw (.unknownLetter c group)
    match more with
    | 61 :: value@(_ :: _) => return (← o.set f value, false)
    | _ =>
      if f.isSwitch then shortFlags flags next? (← o.set f switchedOn) more
      else
        match more with
        | _ :: _ => return (← o.set f more, false)
        | [] => setNext o f next? (.noLetterValue c group)

/-- Whether an argument is a flag. A dash alone is not. -/
def isFlag : Bytes → Bool
  | 45 :: _ :: _ => true
  | _ => false

def endOfFlags : Bytes := txt "--"

def readFlag (flags : List Flag) (arg : Bytes) (next? : Option Bytes) (o : Options) :
    Except UsageError Taken :=
  if endOfFlags.isPrefixOf arg then longFlag flags arg next? o
  else shortFlags flags next? o (arg.drop 1)

/-- Reads all flags; `args` holds the arguments that are none, last one first. -/
def readFlagsOnto (flags : List Flag) (args : List Bytes) (o : Options) :
    List Bytes → Except UsageError (List Bytes × Options)
  | [] => .ok (args.reverse, o)
  | arg :: rest =>
    if arg == endOfFlags then .ok (args.reverse ++ rest, o)
    else if !isFlag arg then readFlagsOnto flags (arg :: args) o rest
    else
      match readFlag flags arg rest.head? o with
      | .error e => .error e
      | .ok (o, false) => readFlagsOnto flags args o rest
      | .ok (o, true) =>
        match rest with
        | [] => .ok (args.reverse, o)
        | _ :: rest => readFlagsOnto flags args o rest

def readFlags (flags : List Flag) (args : List Bytes) : Except UsageError (List Bytes × Options) :=
  readFlagsOnto flags [] {} args

end RegCode.Command
