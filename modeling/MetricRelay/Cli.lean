import MetricRelay.Number.Digits
/-!
The command line: `server` and `check` with their options, `help` and the usual flags. An option
takes the next argument unless that looks like an option itself; what an option was given is
checked when the next option starts or the line ends.
-/
namespace MetricRelay.Cli

inductive Command where
  | server (config : Option String) (port : Option Nat)
  | check (config : Option String)
  deriving DecidableEq, Repr

/-- Why a line is no command, helpful answers included. -/
inductive Refusal where
  | help
  | version
  /-- No subcommand was given, which is answered with the help. -/
  | helpForMissing
  | unknownSubcommand
  | unknownArgument
  /-- No value or an empty one where one is needed. -/
  | valueMissing
  | valueUnreadable
  /-- An option was given twice. -/
  | repeated
  /-- A flag was given a value. -/
  | valueUnexpected
  deriving DecidableEq, Repr

/-- How an argument looks. -/
inductive Argument where
  | escape
  | long (name : String) (value : Option String)
  | short (flags : List Char)
  | plain (text : String)

def classify (text : String) : Argument :=
  match text.toList with
  | ['-', '-'] => .escape
  | '-' :: '-' :: cs =>
    let name := String.ofList (cs.takeWhile (· != '='))
    match cs.dropWhile (· != '=') with
    | _ :: value => .long name (some (String.ofList value))
    | [] => .long name none
  | '-' :: c :: cs => .short (c :: cs)
  | _ => .plain text

inductive Key where
  | config | port
  deriving DecidableEq, Repr

def Key.ofName? (portAllowed : Bool) : String → Option Key
  | "config" => some .config
  | "port" => if portAllowed then some .port else none
  | _ => none

/-- The options read so far, and the one that waits to be checked, with or without its value. -/
structure Options where
  config : Option String := none
  port : Option Nat := none
  pending : Option (Key × Option String) := none

namespace Options

def maxPort : Nat := Number.maxU16

/-- Set an option that was not set before. -/
def set (o : Options) (key : Key) (value : String) : Except Refusal Options :=
  match key with
  | .config =>
    if o.config.isSome then .error .repeated
    else if value.isEmpty then .error .valueMissing
    else .ok { o with config := some value }
  | .port =>
    if o.port.isSome then .error .repeated
    else
      match Number.readSigned? value.toList with
      | some n => if 0 ≤ n ∧ n ≤ maxPort then .ok { o with port := some n.toNat }
        else .error .valueUnreadable
      | none => .error .valueUnreadable

/-- Check the option that waits. -/
def settle (o : Options) : Except Refusal Options :=
  match o.pending with
  | none => .ok o
  | some (_, none) => .error .valueMissing
  | some (key, some value) => { o with pending := none }.set key value

end Options

/-- The options of a subcommand. -/
def readOptions (portAllowed : Bool) (o : Options) : List String → Except Refusal Options
  | [] => o.settle
  | arg :: args =>
    match classify arg with
    | .escape => if args.isEmpty then o.settle else .error .unknownArgument
    | .long "help" none => o.settle.bind fun _ => .error .help
    | .long "help" (some _) => .error .valueUnexpected
    | .long name value =>
      match Key.ofName? portAllowed name with
      | none => .error .unknownArgument
      | some key =>
        match o.settle with
        | .error refusal => .error refusal
        | .ok o =>
          match value with
          | none => readOptions portAllowed { o with pending := some (key, none) } args
          | some v =>
            match o.set key v with
            | .error refusal => .error refusal
            | .ok o => readOptions portAllowed o args
    | .short ('h' :: _) => o.settle.bind fun _ => .error .help
    | .short _ => .error .unknownArgument
    | .plain text =>
      match o.pending with
      | some (key, none) =>
        readOptions portAllowed { o with pending := some (key, some text) } args
      | _ => .error .unknownArgument

def subcommands : List String := ["server", "check", "help"]

/-- `help` takes the name of at most one subcommand. -/
def readHelp : List String → Refusal
  | [] => .help
  | [name] => if subcommands.contains name then .help else .unknownSubcommand
  | _ => .unknownSubcommand

def readSubcommand (name : String) (args : List String) : Except Refusal Command :=
  match name with
  | "server" => (readOptions true {} args).map fun o => .server o.config o.port
  | "check" => (readOptions false {} args).map fun o => .check o.config
  | "help" => .error (readHelp args)
  | _ => .error .unknownSubcommand

/-- The command that the arguments after the program name spell. -/
def read : List String → Except Refusal Command
  | [] => .error .helpForMissing
  | arg :: args =>
    match classify arg with
    | .escape =>
      match args with
      | [] => .error .helpForMissing
      | next :: _ =>
        .error (if subcommands.contains next then .unknownArgument else .unknownSubcommand)
    | .long "help" none | .short ('h' :: _) => .error .help
    | .long "version" none | .short ('V' :: _) => .error .version
    | .long "help" (some _) | .long "version" (some _) => .error .valueUnexpected
    | .long _ _ | .short _ => .error .unknownArgument
    | .plain name => readSubcommand name args

end MetricRelay.Cli
