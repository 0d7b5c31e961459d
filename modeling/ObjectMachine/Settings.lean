import ObjectMachine.Files
import ObjectMachine.Text.Quoted
import ObjectMachine.Toml.Table

namespace ObjectMachine

/-!
# Settings

How programs are run by default, as a settings file says. The file has three tables with fixed
names, in any case.

* `Settings`, `Settings.default` — the settings, and those without a file;
* `Settings.parse` — the settings of a file's text;
* `Settings.load`, `Settings.loadOptional` — the settings of a file that has to be there, or may
  be missing;
* `SettingsFault` — what can be wrong with a file.
-/

/-- How programs are run. -/
structure Settings where
  /-- How many steps may be run; zero means any number. -/
  maxSteps : Int
  /-- Whether to ask for commands at breakpoints. -/
  interactive : Bool
  /-- Whether there is a knowledge base. -/
  knowledge : Bool
  /-- Where the knowledge base is kept. -/
  source : String
  verbose : Bool
  noColor : Bool
deriving DecidableEq, Repr

namespace Settings

/-- A knowledge base that is kept nowhere. -/
def inMemory : String := ":memory:"

/-- The settings without a file. -/
def default : Settings where
  maxSteps := 0
  interactive := false
  knowledge := true
  source := inMemory
  verbose := false
  noColor := false

end Settings

/-- What can be wrong with a settings file. -/
inductive SettingsFault where
  | unreadable (file : String) (cause : FileFault)
  /-- The text is malformed or has a value of another type. -/
  | malformed (file : String)
  | unknownKeys (file : String) (keys : List Toml.Key)
  | negativeSteps (file : String)
deriving DecidableEq, Repr

/-! ### Wording -/

/-- A name between double quotes. -/
def quoteName (name : String) : String :=
  let escape (c : Char) : List Char :=
    match c with
    | '"' => ['\\', '"']
    | '\\' => ['\\', '\\']
    | '\x08' => ['\\', 'b']
    | '\t' => ['\\', 't']
    | '\n' => ['\\', 'n']
    | '\x0c' => ['\\', 'f']
    | '\r' => ['\\', 'r']
    | c => if c.toNat < 0x20 || c.toNat = 0x7f then '\\' :: 'u' :: Text.hex 4 c.toNat else [c]
  String.ofList ('"' :: name.toList.flatMap escape ++ ['"'])

/-- A key as it is written; names with other characters than letters, digits, underscores and
hyphens stand between quotes. -/
def keyText (key : Toml.Key) : String :=
  ".".intercalate (key.map fun name =>
    if name ≠ "" && name.toList.all Toml.isBareChar then name else quoteName name)

/-- The wording of a fault. -/
def SettingsFault.message : SettingsFault → String
  | unreadable file cause => "cannot read " ++ file ++ ": " ++ cause.message
  | malformed file => "parse error in " ++ file
  | unknownKeys file keys =>
    "unknown keys in " ++ file ++ ": [" ++ " ".intercalate (keys.map keyText) ++ "]"
  | negativeSteps file => file ++ ": max_steps must not be negative"

/-! ### Reading -/

namespace Settings

/-- A letter without its case; the two letters outside ASCII that are equal to one up to case
count as it. -/
def foldCase (c : Char) : Char :=
  if c = 'ſ' then 's' else if c = '\u212a' then 'k' else c.toLower

/-- Whether two names are equal up to case. -/
def sameName (a b : String) : Bool :=
  a.toList.map foldCase = b.toList.map foldCase

/-- The name in a table that a setting goes by: the same name, or one equal up to case. -/
def nameIn (es : Toml.Entries) (name : String) : Option String :=
  if (es.find? name).isSome then some name
  else (List.find? (fun e => sameName e.1 name) es).map Prod.fst

/-- An integer; without a value `before` holds. -/
def integerIn (es : Toml.Entries) (name : String) (before : Int) : Option Int :=
  match (nameIn es name).bind es.find? with
  | none => some before
  | some (.scalar (.integer n)) => some n
  | some _ => none

/-- A truth value; without a value `before` holds. -/
def truthIn (es : Toml.Entries) (name : String) (before : Bool) : Option Bool :=
  match (nameIn es name).bind es.find? with
  | none => some before
  | some (.scalar (.boolean b)) => some b
  | some _ => none

/-- A text; without a value `before` holds. -/
def textIn (es : Toml.Entries) (name : String) (before : String) : Option String :=
  match (nameIn es name).bind es.find? with
  | none => some before
  | some (.scalar (.string s)) => some s
  | some _ => none

/-- A table; without one it is empty. -/
def tableIn (es : Toml.Entries) (name : String) : Option Toml.Entries :=
  match (nameIn es name).bind es.find? with
  | none => some []
  | some (.table inner) => some inner
  | some _ => none

/-- The names of the tables, and of the settings in each of them. -/
def layout : List (String × List String) :=
  [("interpreter", ["max_steps", "interactive"]), ("knowledge_base", ["enabled", "dsn"]),
    ("log", ["verbose", "no_color"])]

/-- Whether a key leads to a table or a setting. -/
def isKnown : Toml.Key → Bool
  | [table] => layout.any fun t => sameName t.1 table
  | [table, name] =>
    layout.any fun t => sameName t.1 table && t.2.any fun n => sameName n name
  | _ => false

/-- The settings in a table, on top of the default ones; nothing if a type is wrong. -/
def ofEntries? (es : Toml.Entries) : Option Settings := do
  let machine ← tableIn es "interpreter"
  let base ← tableIn es "knowledge_base"
  let log ← tableIn es "log"
  return {
    maxSteps := ← integerIn machine "max_steps" default.maxSteps
    interactive := ← truthIn machine "interactive" default.interactive
    knowledge := ← truthIn base "enabled" default.knowledge
    source := ← textIn base "dsn" default.source
    verbose := ← truthIn log "verbose" default.verbose
    noColor := ← truthIn log "no_color" default.noColor
  }

/-- The settings of a file's text. -/
def parse (file text : String) : Except SettingsFault Settings :=
  match Toml.Document.read? text with
  | none => .error (.malformed file)
  | some doc =>
    match ofEntries? doc.root with
    | none => .error (.malformed file)
    | some s =>
      let unknown := doc.keys.filter fun k => !isKnown k
      if !unknown.isEmpty then .error (.unknownKeys file unknown)
      else if s.maxSteps < 0 then .error (.negativeSteps file)
      else if s.knowledge && s.source = "" then .ok { s with source := inMemory }
      else .ok s

/-- The settings of a file's content. -/
def ofContent (file : String) (content : Content) : Except SettingsFault Settings :=
  match String.fromUTF8? ⟨content.toArray⟩ with
  | none => .error (.malformed file)
  | some text => parse file text

/-- The settings in a file. -/
def load (files : Files) (file : String) : Except SettingsFault Settings :=
  match files.read file with
  | .error cause => .error (.unreadable file cause)
  | .ok content => ofContent file content

/-- The settings in a file, or the default ones without it. -/
def loadOptional (files : Files) (file : String) : Except SettingsFault Settings :=
  match files.read file with
  | .error (.missing _) => .ok default
  | .error cause => .error (.unreadable file cause)
  | .ok content => ofContent file content

end Settings

end ObjectMachine
