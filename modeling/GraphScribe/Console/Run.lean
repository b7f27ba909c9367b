import GraphScribe.Config.Load
import GraphScribe.Console.Report
import GraphScribe.Console.Request
import GraphScribe.Editor.Buffer
import GraphScribe.Editor.EditorJson
import GraphScribe.Json.Reader
import GraphScribe.Placement.Engine
import GraphScribe.Text.Quoted
import GraphScribe.Yaml.Reader

/-!
# Running a command line

A run is a function of its arguments and of the files it can read. The configuration is loaded
before the file that the command works on.
-/
namespace GraphScribe.Console

abbrev Files := String → Option String

/-- A configuration file may be named without its extension. -/
def configPaths (path : String) : List String := [path, path ++ ".toml"]

def readSetting (s : String) : Except Failure (Config.KeyPath × Json) := do
  match splitEquals s.toList with
  | (_, none) => throw (.notKeyValue s)
  | (key, some value) =>
    match Config.KeyPath.parse? (String.ofList (Text.trim key)) with
    | some path => return (path, .str (String.ofList (Text.trim value)))
    | none => throw (.invalidOverride s)

def loadConfig (files : Files) (options : ConfigOptions) : Except Failure Config := do
  let overrides ← options.settings.mapM readSetting
  let sources := options.file?.toList.map fun path =>
    Config.Source.mk true ((configPaths path).findSome? files)
  (Config.load sources overrides).mapError fun _ => .configuration

def readSource (files : Files) (path : String) : Except Failure String :=
  match files path with
  | some text => .ok text
  | none => .error (.unreadable path)

section Source

variable {κ : Type} [DecidableEq κ] [Language κ]

def listTokens (b : Buffer κ) : Format → String
  | .json => b.tokens.toJson.pretty 0
  | .simple => "\n".intercalate (b.tokens.toList.map Token.display)

def diagnosticsOf (b : Buffer κ) : List Diagnostic :=
  b.tokens.errors.toList.map fun t =>
    ⟨Text.position b.text.toList t.start,
      t.description.getD "Error" ++ " (" ++ Text.quoted t.text ++ ")"⟩

def checkSource (path : String) (b : Buffer κ) : Report :=
  match diagnosticsOf b with
  | [] => .clean path
  | found => .diagnostics path found

def rangeText (r : StyledRange) : String :=
  toString r.start ++ ".." ++ toString r.stop ++ " " ++ r.styleClass.name

def blockLine (number : Nat) (h : BlockHighlight) : String :=
  let line := toString number ++ ": " ++ ", ".intercalate (h.ranges.map rangeText)
  String.ofList (Text.trim line.toList)

def listHighlights (b : Buffer κ) : Format → String
  | .json => (Json.arr (b.highlightLines.map BlockHighlight.toJson)).pretty 0
  | .simple => "\n".intercalate (b.highlightLines.zipIdx.map fun (h, i) => blockLine (i + 1) h)

end Source

structure SourceTask where
  run : {κ : Type} → [DecidableEq κ] → [Language κ] → Buffer κ → Report

def runSource (files : Files) (config : Config) (source : SourceOptions) (task : SourceTask) :
    Except Failure Report := do
  let text ← readSource files source.path
  match source.language with
  | .program => return task.run (Buffer.ofText config.styles text : Buffer Program.Category)
  | .condition => return task.run (Buffer.ofText config.styles text : Buffer Condition.Category)

/-- What stands after the last dot of a file's name; none where only the name begins with it. -/
def extension? (path : String) : Option String :=
  let reversed := path.toList.reverse.takeWhile (· != '/')
  match reversed.span (· != '.') with
  | (tail, _ :: _ :: _) => some (String.ofList tail.reverse)
  | _ => none

def isYaml (path : String) : Bool :=
  extension? path == some "yaml" || extension? path == some "yml"

def parseGraph? (path text : String) : Option (Graph Float) := do
  let data ←
    if isYaml path then (Yaml.parse? text).bind (GraphData.decode? Yaml.decoder)
    else (Json.parse? text).bind (GraphData.decode? .strict)
  (Graph.ofData data).toOption

def readAlgorithm (name : String) : Except Failure Algorithm :=
  match Algorithm.recognise? name with
  | some a => .ok a
  | none => .error (.unknownAlgorithm name)

def readDirection (name : String) : Except Failure Direction :=
  match Direction.recognise? name with
  | some d => .ok d
  | none => .error (.unknownDirection name)

/-- Lays out with the algorithm that is asked for, else on a circle where nothing has been placed
yet, else with the configured algorithm. -/
def runLayout (files : Files) (config : Config) (path : String)
    (algorithm direction : Option String) : Except Failure Report := do
  let text ← readSource files path
  let graph ← match parseGraph? path text with
    | some g => pure g
    | none => throw (.invalidGraph path)
  let algorithm ← algorithm.mapM readAlgorithm
  let direction ← direction.mapM readDirection
  let (a, direction) := match algorithm with
    | some a => (a, direction)
    | none =>
      if graph.needsInitialLayout then (Algorithm.circular, none)
      else (config.layout.algorithm, direction)
  let engine : Engine Float := ⟨config.layout, .standard⟩
  match engine.applyLayout graph a direction with
  | .ok g => return .drawing g
  | .error e => throw (.layout path a.name e)

def runCommand (files : Files) (command : Command) (options : ConfigOptions) :
    Except Failure Report := do
  let config ← loadConfig files options
  match command with
  | .tokens source format => runSource files config source ⟨fun b => .listing (listTokens b format)⟩
  | .check source => runSource files config source ⟨checkSource source.path⟩
  | .highlight source format =>
    runSource files config source ⟨fun b => .listing (listHighlights b format)⟩
  | .layout path algorithm direction => runLayout files config path algorithm direction

def run (files : Files) (args : List String) : Report :=
  match Request.ofArguments? args with
  | none => .misuse
  | some .help => .help
  | some .version => .version
  | some (.run command options) =>
    match runCommand files command options with
    | .ok report => report
    | .error failure => .failed failure

def Request.paths : Request → List String
  | .run command options =>
    let path := match command with
      | .tokens source _ => source.path
      | .check source => source.path
      | .highlight source _ => source.path
      | .layout path _ _ => path
    path :: (options.file?.map configPaths).getD []
  | _ => []

end GraphScribe.Console
