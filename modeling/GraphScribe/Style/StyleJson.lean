import GraphScribe.Json.Decode
import GraphScribe.Style.StyleSheet

/-!
# Styles as JSON

A style lists its colours only where it has them. In a sheet that is read, a class that is left out
keeps its default style, and one that is given starts from the empty style.
-/
namespace GraphScribe

open Json (Decoder)

def Color.decode? (d : Decoder) (v : Json) : Option Color :=
  (d.text? v).bind fun s => (Color.ofString s).toOption

namespace Style

def decode? (d : Decoder) (v : Json) : Option Style := do
  let [foreground, background, bold, italic, underline] ←
    d.record? ["foreground", "background", "bold", "italic", "underline"] v | none
  return {
    foreground := ← Json.optional none (Json.nullable (Color.decode? d)) foreground
    background := ← Json.optional none (Json.nullable (Color.decode? d)) background
    bold := ← Json.optional false d.bool? bold
    italic := ← Json.optional false d.bool? italic
    underline := ← Json.optional false d.bool? underline }

def colorMember (name : String) : Option Color → List (String × Json)
  | some c => [(name, .str c.toString)]
  | none => []

def toJson (s : Style) : Json :=
  .obj (colorMember "foreground" s.foreground ++ colorMember "background" s.background ++
    [("bold", .bool s.bold), ("italic", .bool s.italic), ("underline", .bool s.underline)])

end Style

namespace StyleSheet

def decode? (d : Decoder) (v : Json) : Option StyleSheet := do
  let fields ← d.record? (StyleClass.all.map StyleClass.name) v
  (StyleClass.all.zip fields).foldlM
    (fun sheet (c, field) =>
      (Json.optional (sheet.get c) (Style.decode? d) field).map fun style => sheet.set c style)
    {}

def toJson (sheet : StyleSheet) : Json :=
  .obj (StyleClass.all.map fun c => (c.name, (sheet.get c).toJson))

end StyleSheet

end GraphScribe
