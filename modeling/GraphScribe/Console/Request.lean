import GraphScribe.Text.Bytes

/-!
# Command lines

A command line names a command and what it works on. An option is given by its long name or its
letter, with its value attached or in the next argument; a value that looks like an option has to be
attached. After two dashes every argument is an operand.
-/
namespace GraphScribe.Console

inductive SourceLanguage where
  | program
  | condition
  deriving DecidableEq, Repr

inductive Format where
  | simple
  | json
  deriving DecidableEq, Repr

structure ConfigOptions where
  file? : Option String
  /-- Settings in the order given, each as a key and a value with an equals sign between them. -/
  settings : List String
  deriving DecidableEq, Repr

structure SourceOptions where
  path : String
  language : SourceLanguage
  deriving DecidableEq, Repr

inductive Command where
  | tokens (source : SourceOptions) (format : Format)
  | check (source : SourceOptions)
  | highlight (source : SourceOptions) (format : Format)
  | layout (path : String) (algorithm direction : Option String)
  deriving DecidableEq, Repr

inductive Request where
  | run (command : Command) (config : ConfigOptions)
  | help
  | version
  deriving DecidableEq, Repr

inductive OptionName where
  | language
  | format
  | algorithm
  | direction
  | config
  | set
  deriving DecidableEq, Repr

namespace OptionName

def long : OptionName → String
  | language => "language"
  | format => "format"
  | algorithm => "algorithm"
  | direction => "direction"
  | config => "config"
  | set => "set"

def letter? : OptionName → Option Char
  | language => some 'l'
  | format => some 'f'
  | algorithm => some 'a'
  | direction => some 'd'
  | config => some 'c'
  | set => none

def values? : OptionName → Option (List String)
  | language => some ["program", "condition"]
  | format => some ["simple", "json"]
  | _ => none

def accepts (o : OptionName) (value : String) : Bool := o.values?.all fun vs => vs.contains value

def repeats : OptionName → Bool
  | set => true
  | _ => false

end OptionName

inductive Verb where
  | tokens
  | check
  | highlight
  | layout
  deriving DecidableEq, Repr

namespace Verb

def all : List Verb := [tokens, check, highlight, layout]

def name : Verb → String
  | tokens => "tokens"
  | check => "check"
  | highlight => "highlight"
  | layout => "layout"

def ofName? (s : String) : Option Verb := all.find? fun v => v.name == s

def options : Verb → List OptionName
  | tokens | highlight => [.language, .format, .config, .set]
  | check => [.language, .config, .set]
  | layout => [.algorithm, .direction, .config, .set]

end Verb

inductive Argument where
  | operand
  | endOfOptions
  | help
  | option (o : OptionName) (attached : Option String)
  | unknown
  deriving DecidableEq, Repr

def splitEquals (s : List Char) : List Char × Option (List Char) :=
  match s.span (· != '=') with
  | (name, _ :: value) => (name, some value)
  | (name, []) => (name, none)

def Argument.ofLong (options : List OptionName) (s : List Char) : Argument :=
  let (name, value) := splitEquals s
  let name := String.ofList name
  match options.find? fun o => o.long == name with
  | some o => .option o (value.map String.ofList)
  | none => if name = "help" ∧ value.isNone then .help else .unknown

def Argument.ofLetter (options : List OptionName) (c : Char) (tail : List Char) : Argument :=
  match options.find? fun o => o.letter? == some c with
  | some o =>
    .option o <|
      match tail with
      | [] => none
      | '=' :: value => some (String.ofList value)
      | value => some (String.ofList value)
  | none => if c = 'h' then .help else .unknown

def Argument.ofText (options : List OptionName) (s : String) : Argument :=
  match s.toList with
  | ['-', '-'] => .endOfOptions
  | '-' :: '-' :: name => .ofLong options name
  | '-' :: c :: tail => .ofLetter options c tail
  | _ => .operand

/-- An argument that cannot be the value of the option before it. -/
def looksLikeOption (s : String) : Bool :=
  match s.toList with
  | '-' :: _ :: _ => true
  | _ => false

structure Given where
  operand? : Option String := none
  options : List (OptionName × String) := []
  deriving DecidableEq, Repr

inductive Halt where
  | help
  | misuse
  deriving DecidableEq, Repr

namespace Given

/-- Every command works on one file. -/
def addOperand (g : Given) (s : String) : Except Halt Given :=
  if g.operand?.isSome then .error .misuse else .ok { g with operand? := some s }

def addOption (g : Given) (o : OptionName) (value : String) : Except Halt Given :=
  if !o.accepts value || (!o.repeats && g.options.any fun p => p.1 == o) then .error .misuse
  else .ok { g with options := g.options ++ [(o, value)] }

def values (g : Given) (o : OptionName) : List String :=
  g.options.filterMap fun p => if p.1 = o then some p.2 else none

def value? (g : Given) (o : OptionName) : Option String := (g.values o).head?

def read (options : List OptionName) (g : Given) : List String → Except Halt Given
  | [] => .ok g
  | arg :: rest =>
    match Argument.ofText options arg with
    | .operand => do read options (← g.addOperand arg) rest
    | .endOfOptions => rest.foldlM addOperand g
    | .help => .error .help
    | .unknown => .error .misuse
    | .option o (some value) => do read options (← g.addOption o value) rest
    | .option o none =>
      match rest with
      | value :: rest =>
        if looksLikeOption value then .error .misuse
        else do read options (← g.addOption o value) rest
      | [] => .error .misuse

def language (g : Given) : SourceLanguage :=
  if g.value? .language = some "condition" then .condition else .program

def format (g : Given) : Format := if g.value? .format = some "json" then .json else .simple

def command (g : Given) (verb : Verb) (path : String) : Command :=
  match verb with
  | .tokens => .tokens ⟨path, g.language⟩ g.format
  | .check => .check ⟨path, g.language⟩
  | .highlight => .highlight ⟨path, g.language⟩ g.format
  | .layout => .layout path (g.value? .algorithm) (g.value? .direction)

def config (g : Given) : ConfigOptions := ⟨g.value? .config, g.values .set⟩

end Given

def Request.ofVerb? (verb : Verb) (args : List String) : Option Request :=
  match Given.read verb.options {} args with
  | .error .help => some .help
  | .error .misuse => none
  | .ok g => g.operand?.map fun path => .run (g.command verb path) g.config

def Request.ofArguments? : List String → Option Request
  | [] => none
  | arg :: rest =>
    match arg.toList with
    | '-' :: 'h' :: _ => some .help
    | '-' :: 'V' :: _ => some .version
    | _ =>
      if arg = "--help" then some .help
      else if arg = "--version" then some .version
      else if arg = "help" then
        if rest.all fun s => s == "help" || (Verb.ofName? s).isSome then some .help else none
      else (Verb.ofName? arg).bind fun verb => ofVerb? verb rest

end GraphScribe.Console
