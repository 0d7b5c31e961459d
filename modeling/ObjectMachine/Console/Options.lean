import ObjectMachine.Console.Launch
import ObjectMachine.Text.Prefixed

namespace ObjectMachine.Console

/-!
# Options

What can be said on the command line. Options come first, each with one hyphen or two; a value
follows an equals sign or is the next argument, and a switch needs none.

* `Options` — the options and the arguments after them;
* `Options.parse` — reads a command line;
* `Options.apply` — settings with the options on top of them;
* `Plan` — what to do about a command line; `plan` — decides it.
-/

/-- The options, and the arguments after them. -/
structure Options where
  help : Bool
  trace : Bool
  verbose : Bool
  noColor : Bool
  interactive : Bool
  noKnowledge : Bool
  settingsFile : String
  /-- Where the knowledge base is kept; empty to follow the settings. -/
  source : String
  restore : String
  /-- How many steps may be run; follows the settings unless positive. -/
  maxSteps : Int
  arguments : List String
deriving Repr

/-- Why a command line cannot be read. -/
inductive OptionFault where
  | malformed (argument : String)
  | undefined (name : String)
  | noValue (name : String)
  | badValue (name value : String)
  /-- An explanation of the options is asked for by a name that is no option. -/
  | explain
deriving DecidableEq, Repr

/-- The wording of a fault. -/
def OptionFault.message : OptionFault → String
  | malformed argument => "bad option: " ++ argument
  | undefined name => "unknown option: -" ++ name
  | noValue name => "option needs a value: -" ++ name
  | badValue name value => "invalid value " ++ Text.quote value ++ " for option -" ++ name
  | explain => "see -h"

namespace Options

/-- The settings file that is used unless another one is named. -/
def defaultSettingsFile : String := "microobj.toml"

/-- A command line without options. -/
def none : Options where
  help := false
  trace := false
  verbose := false
  noColor := false
  interactive := false
  noKnowledge := false
  settingsFile := defaultSettingsFile
  source := ""
  restore := ""
  maxSteps := 0
  arguments := []

/-- An option: a switch, a text or a number, and what it sets. -/
inductive Flag where
  | switch (set : Options → Bool → Options)
  | text (set : Options → String → Options)
  | number (set : Options → Int → Options)

/-- The option with a given name. -/
def flag? : String → Option Flag
  | "h" => some (.switch fun o b => { o with help := b })
  | "t" => some (.switch fun o b => { o with trace := b })
  | "v" => some (.switch fun o b => { o with verbose := b })
  | "n" => some (.switch fun o b => { o with noColor := b })
  | "i" => some (.switch fun o b => { o with interactive := b })
  | "no-kb" => some (.switch fun o b => { o with noKnowledge := b })
  | "config" => some (.text fun o s => { o with settingsFile := s })
  | "kb" => some (.text fun o s => { o with source := s })
  | "restore" => some (.text fun o s => { o with restore := s })
  | "max-steps" => some (.number fun o n => { o with maxSteps := n })
  | _ => Option.none

/-- The truth value of a switch. -/
def truth? (text : String) : Option Bool :=
  if text ∈ ["1", "t", "T", "true", "TRUE", "True"] then some true
  else if text ∈ ["0", "f", "F", "false", "FALSE", "False"] then some false
  else Option.none

/-- Sets an option to a value. -/
def Flag.set? (o : Options) (value : String) : Flag → Option Options
  | switch set => (truth? value).map (set o)
  | text set => some (set o value)
  | number set => (Text.readPrefixed? value).map (set o)

/-- The value a switch has if none is given. -/
def Flag.implied? : Flag → Option String
  | switch _ => some "true"
  | _ => Option.none

/-- What an argument is. -/
inductive Argument where
  /-- Everything from here on is no option. -/
  | plain
  /-- Everything after this is no option. -/
  | separator
  | malformed
  | option (name : String) (value : Option String)

/-- A name and a value after the first equals sign. -/
def splitValue (cs : List Char) : Argument :=
  let name := String.ofList (cs.takeWhile (· ≠ '='))
  match cs.dropWhile (· ≠ '=') with
  | [] => .option name Option.none
  | _ :: value => .option name (some (String.ofList value))

/-- What the characters after the hyphens are. -/
def ofName : List Char → Argument
  | [] => .malformed
  | c :: cs => if c = '-' || c = '=' then .malformed else splitValue (c :: cs)

/-- What an argument is. -/
def classify (argument : String) : Argument :=
  match argument.toList with
  | ['-', '-'] => .separator
  | '-' :: '-' :: cs => ofName cs
  | '-' :: c :: cs => ofName (c :: cs)
  | _ => .plain

/-- Reads the arguments that are left, with the options so far. -/
def parseFrom (o : Options) : List String → Except OptionFault Options
  | [] => .ok o
  | argument :: rest =>
    match classify argument with
    | .plain => .ok { o with arguments := argument :: rest }
    | .separator => .ok { o with arguments := rest }
    | .malformed => .error (.malformed argument)
    | .option name value =>
      match flag? name with
      | Option.none => .error (if name = "help" then .explain else .undefined name)
      | some flag =>
        match value.or flag.implied? with
        | some value =>
          match flag.set? o value with
          | Option.none => .error (.badValue name value)
          | some o => parseFrom o rest
        | Option.none =>
          match rest with
          | [] => .error (.noValue name)
          | value :: rest =>
            match flag.set? o value with
            | Option.none => .error (.badValue name value)
            | some o => parseFrom o rest

/-- Reads a command line. -/
def parse (arguments : List String) : Except OptionFault Options :=
  parseFrom none arguments

/-- Settings with the options on top of them. -/
def apply (o : Options) (s : Settings) : Settings where
  maxSteps := if 0 < o.maxSteps then o.maxSteps else s.maxSteps
  interactive := s.interactive || o.interactive
  knowledge := s.knowledge && !o.noKnowledge
  source := if o.source ≠ "" then o.source else s.source
  verbose := s.verbose || o.verbose
  noColor := s.noColor || o.noColor

/-- What an explanation of the options starts with. -/
def usage (program : String) : String :=
  "Usage: " ++ program ++ " [options] <program.yaml>\nOptions:\n"

/-- The options, one on each line. -/
def summary : String :=
  "  -config file     settings file (default microobj.toml)\n" ++
  "  -h               show this help\n" ++
  "  -i               prompt at breakpoints\n" ++
  "  -kb source       where the knowledge base is kept\n" ++
  "  -max-steps n     how many steps may be run\n" ++
  "  -n               no colours\n" ++
  "  -no-kb           run without a knowledge base\n" ++
  "  -restore file    start with a heap snapshot\n" ++
  "  -t               show the machine after every step\n" ++
  "  -v               verbose log\n"

end Options

/-! ### Plans -/

/-- Whether to use colours: the terminal has to support them, and nothing may speak against it.
Without a terminal they have to be asked for. -/
def wantsColor (environment : String → String) (terminal : Bool) : Bool :=
  let name := environment "TERM"
  let forced := environment "CLICOLOR_FORCE"
  let isForced := forced ≠ "" && forced ≠ "0"
  name ≠ "" && name ≠ "dumb" && environment "NO_COLOR" = "" &&
    (isForced || (terminal && environment "CI" = "" && environment "CLICOLOR" ≠ "0"))

/-- What to do about a command line. -/
inductive Plan where
  /-- Show something, say something about it and leave with a code. -/
  | leave (code : Nat) (shown remark : String)
  | launch (j : Job)

/-- Decides what to do about a command line; `program` is the name it starts with. -/
def plan (program : String) (arguments : List String) (color : Bool) (files : Files) : Plan :=
  match Options.parse arguments with
  | .error .explain => .leave 0 "" (Options.usage program ++ Options.summary)
  | .error fault => .leave 2 "" (fault.message ++ "\n")
  | .ok o =>
    if o.help then .leave 0 (Options.usage program) Options.summary
    else
      match Settings.loadOptional files o.settingsFile with
      | .error fault => .leave 1 "" ("Invalid configuration: " ++ fault.message ++ "\n")
      | .ok s =>
        let s := o.apply s
        match o.arguments with
        | [] => .leave 1 "" ("No program file provided, see " ++ program ++ " -h\n")
        | file :: _ =>
          .launch ⟨file, o.restore, s, o.trace, color && !s.noColor⟩

/-- The code that a job leaves with. -/
def Report.code (r : Report) : Nat :=
  if r.fault.isSome then 1 else 0

end ObjectMachine.Console
