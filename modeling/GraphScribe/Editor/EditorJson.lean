import GraphScribe.Editor.Highlight
import GraphScribe.Editor.Session
import GraphScribe.Style.StyleJson

/-!
# Tokens and highlights as JSON
-/
namespace GraphScribe

/-- A token; its description only where it has one. -/
def Token.toJson {κ : Type} [Lexicon κ] (t : Token κ) : Json :=
  .obj ([("start", .int t.start), ("end", .int t.stop),
      ("category", .str (Lexicon.name t.category)), ("text", .str t.text)] ++
    match t.description with
    | some d => [("description", .str d)]
    | none => [])

def Tokens.toJson {κ : Type} [Lexicon κ] (ts : Tokens κ) : Json :=
  .arr (ts.toList.map Token.toJson)

def BlockState.name : BlockState → String
  | normal => "Normal"
  | inComment => "InComment"

def BlockState.ofName? (s : String) : Option BlockState :=
  [normal, inComment].find? fun b => b.name == s

def ParseStatus.name : ParseStatus → String
  | reparsed => "Reparsed"
  | unchanged => "Unchanged"

def StyledRange.toJson (r : StyledRange) : Json :=
  .obj [("start", .int r.start), ("len", .int r.length), ("class", .str r.styleClass.name),
    ("style", r.style.toJson)]

def BlockHighlight.toJson (h : BlockHighlight) : Json :=
  .obj [("ranges", .arr (h.ranges.map StyledRange.toJson)), ("state", .str h.state.name)]

end GraphScribe
