-- The command line of the demo. Arguments are read from left to right, and the first one that is at
-- fault, or that asks for the version or for help, decides.

namespace StackCompiler.Demo

inductive Emit where
  | ir
  | frame
  | all
deriving DecidableEq, Repr

namespace Emit

def ofName? : String → Option Emit
  | "ir" => some ir
  | "frame" => some frame
  | "all" => some all
  | _ => none

def showsIr : Emit → Bool
  | ir | all => true
  | frame => false

def showsFrames : Emit → Bool
  | frame | all => true
  | ir => false

end Emit

structure Options where
  emit : Option Emit := none
  noVerify : Bool := false
  verbosity : Nat := 0
deriving DecidableEq, Repr

inductive Request where
  | run (options : Options)
  | version
  | help
  | usageError (reason : String)
deriving DecidableEq, Repr

namespace Options

-- Takes a value for `--emit`, which can be given once.
def setEmit (o : Options) (value : String) : Except Request Options :=
  match o.emit, Emit.ofName? value with
  | some _, _ => .error (.usageError "--emit cannot be used multiple times")
  | none, none => .error (.usageError s!"invalid value '{value}' for --emit")
  | none, some e => .ok { o with emit := some e }

-- Takes a long option that has no value.
def flag (o : Options) (name : String) : Except Request Options :=
  match name with
  | "no-verify" =>
    if o.noVerify then .error (.usageError "--no-verify cannot be used multiple times")
    else .ok { o with noVerify := true }
  | "verbose" => .ok { o with verbosity := o.verbosity + 1 }
  | "version" => .error .version
  | "help" => .error .help
  | _ => .error (.usageError s!"unexpected argument '--{name}'")

-- Takes a group of one-letter options.
def letters (o : Options) : List Char → Except Request Options
  | [] => .ok o
  | 'v' :: rest => letters { o with verbosity := o.verbosity + 1 } rest
  | 'V' :: _ => .error .version
  | 'h' :: _ => .error .help
  | c :: _ => .error (.usageError s!"unexpected argument '-{c}'")

-- The name of a long option and the value after its equals sign, if it has one.
def splitValue (cs : List Char) : String × Option String :=
  match cs.dropWhile (· != '=') with
  | [] => (String.ofList cs, none)
  | _ :: value => (String.ofList (cs.takeWhile (· != '=')), some (String.ofList value))

-- Reads the arguments. A value that looks like an option is no value.
def read (o : Options) : List String → Except Request Options
  | [] => .ok o
  | arg :: rest =>
    match arg.toList with
    | '-' :: '-' :: [] =>
      match rest with
      | [] => .ok o
      | extra :: _ => .error (.usageError s!"unexpected argument '{extra}'")
    | '-' :: '-' :: long =>
      match splitValue long with
      | ("emit", some value) => do read (← o.setEmit value) rest
      | ("emit", none) =>
        match rest with
        | [] => .error (.usageError "a value is required for --emit")
        | value :: rest =>
          if value.startsWith "-" && value != "-" then
            .error (.usageError "a value is required for --emit")
          else do
            read (← o.setEmit value) rest
      | (name, some _) => .error (.usageError s!"unexpected value for '--{name}'")
      | (name, none) => do read (← o.flag name) rest
    | '-' :: c :: cs => do read (← o.letters (c :: cs)) rest
    | _ => .error (.usageError s!"unexpected argument '{arg}'")

end Options

def Request.ofArguments (args : List String) : Request :=
  match Options.read {} args with
  | .ok o => .run o
  | .error r => r

end StackCompiler.Demo
