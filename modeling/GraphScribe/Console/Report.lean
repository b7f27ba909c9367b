import GraphScribe.Diagram.OfGraph
import GraphScribe.Graph.GraphJson
import GraphScribe.Placement.Names
import GraphScribe.Text.Lines
import GraphScribe.Text.Plain

/-!
# Reports

What a run ends with: its exit code, and what it prints on the two output streams. Code 1 stands for
a run that failed or found errors, code 2 for arguments that make up no request.
-/
namespace GraphScribe.Console

inductive Failure where
  | notKeyValue (setting : String)
  | invalidOverride (setting : String)
  | configuration
  | unreadable (path : String)
  | invalidGraph (path : String)
  | unknownAlgorithm (name : String)
  | unknownDirection (name : String)
  /-- The strategy gave no usable positions. -/
  | layout (path strategy : String) (cause : LayoutError)
  deriving DecidableEq, Repr

namespace Failure

def message : Failure → String
  | notKeyValue setting => "Expected KEY=VALUE, got '" ++ setting ++ "'"
  | invalidOverride setting => "Invalid override '" ++ setting ++ "'"
  | configuration => "Failed to load configuration"
  | unreadable path => "Failed to read " ++ path
  | invalidGraph path => "Invalid graph in " ++ path
  | unknownAlgorithm name => Algorithm.unknownMessage name
  | unknownDirection name => Direction.unknownMessage name
  | layout path _ _ => "Failed to lay out " ++ path

def logged : Failure → String
  | layout _ strategy cause =>
    Text.plain (strategy ++ " layout aborted: " ++ cause.message ++ "\n")
  | _ => ""

end Failure

structure Diagnostic where
  position : Text.Position
  message : String
  deriving DecidableEq, Repr

def Diagnostic.line (path : String) (d : Diagnostic) : String :=
  path ++ ":" ++ toString d.position.line ++ ":" ++ toString d.position.column ++ ": " ++
    d.message ++ "\n"

inductive Report where
  | help
  | version
  | misuse
  | listing (text : String)
  | clean (path : String)
  | diagnostics (path : String) (found : List Diagnostic)
  | drawing (graph : Graph Float)
  | failed (failure : Failure)

namespace Report

def helpText : String :=
  "Usage: gp <tokens|check|highlight|layout> [OPTIONS] <path>\n"

def exitCode : Report → Nat
  | misuse => 2
  | diagnostics .. | failed _ => 1
  | _ => 0

def output : Report → String
  | help => helpText
  | version => "gp 0.1.0\n"
  | listing text => text ++ "\n"
  | clean path => path ++ ": no errors\n"
  | drawing graph => graph.toJson.pretty 0 ++ "\n"
  | _ => ""

def errorOutput : Report → String
  | misuse => helpText
  | diagnostics path found =>
    String.join (found.map (Diagnostic.line path)) ++
      path ++ ": " ++ toString found.length ++ " error(s)\n"
  | failed failure => failure.logged ++ "Error: " ++ failure.message ++ "\n"
  | _ => ""

end Report

end GraphScribe.Console
