import GraphScribe.Placement.Settings
import GraphScribe.Text.Blank

/-!
# Names of algorithms and directions

A name is recognised whatever the case of its ASCII letters, with dashes for underscores and with
blanks around it. A direction also has an abbreviation.
-/
namespace GraphScribe

def normalName (s : String) : String :=
  String.ofList ((Text.trim s.toList).map fun c => if c = '-' then '_' else c.toLower)

namespace Algorithm

def all : List Algorithm :=
  [tree, layered, radialTree, spring, fruchtermanReingold, circular, planar]

def name : Algorithm → String
  | tree => "tree"
  | layered => "layered"
  | radialTree => "radial_tree"
  | spring => "spring"
  | fruchtermanReingold => "fruchterman_reingold"
  | circular => "circular"
  | planar => "planar"

def ofName? (s : String) : Option Algorithm := all.find? fun a => a.name == s

def recognise? (s : String) : Option Algorithm := ofName? (normalName s)

def unknownMessage (s : String) : String :=
  "Unknown layout algorithm '" ++ s ++ "' (expected one of: " ++
    ", ".intercalate (all.map name) ++ ")"

/-- The drawing grows along a direction. -/
def usesDirection : Algorithm → Bool
  | tree | layered => true
  | _ => false

end Algorithm

namespace Direction

def all : List Direction := [topToBottom, bottomToTop, leftToRight, rightToLeft]

def name : Direction → String
  | topToBottom => "top_to_bottom"
  | bottomToTop => "bottom_to_top"
  | leftToRight => "left_to_right"
  | rightToLeft => "right_to_left"

def abbreviation : Direction → String
  | topToBottom => "tb"
  | bottomToTop => "bt"
  | leftToRight => "lr"
  | rightToLeft => "rl"

def ofName? (s : String) : Option Direction := all.find? fun d => d.name == s

def recognise? (s : String) : Option Direction :=
  let n := normalName s
  all.find? fun d => d.name == n || d.abbreviation == n

def unknownMessage (s : String) : String :=
  "Unknown layout direction '" ++ s ++ "' (expected one of: " ++
    ", ".intercalate (all.map name) ++ ")"

end Direction

end GraphScribe
