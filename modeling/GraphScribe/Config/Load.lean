import GraphScribe.Config.Coercion
import GraphScribe.Placement.SettingsJson
import GraphScribe.Style.StyleJson
import GraphScribe.Toml.Reader

/-!
# Configuration

A configuration is put together from layers: the defaults, then files in order, then single
overrides. The defaults are the ones that the styles and the layout settings have of themselves, so
a configuration without any layer and one that is never loaded are the same.
-/
namespace GraphScribe

structure Config where
  styles : StyleSheet := {}
  layout : LayoutSettings Float := .standard
  deriving DecidableEq, Repr

namespace Config

def standard : Config := {}

def toJson (c : Config) : Json :=
  .obj [("highlighting", c.styles.toJson), ("layout", c.layout.toJson)]

def decode? (d : Json.Decoder) (v : Json) : Option Config := do
  let [styles, layout] ← d.record? ["highlighting", "layout"] v | none
  return {
    styles := ← Json.optional {} (StyleSheet.decode? d) styles
    layout := ← Json.optional .standard (LayoutSettings.decode? d) layout }

structure Source where
  isRequired : Bool
  text? : Option String

inductive LoadError where
  | missingFile
  | malformedFile
  | unfitSetting
  deriving DecidableEq, Repr

def layer (settings : Json) (source : Source) : Except LoadError Json :=
  match source.text? with
  | none => if source.isRequired then .error .missingFile else .ok settings
  | some text =>
    match Toml.parse? text with
    | some file => .ok (overlay file settings)
    | none => .error .malformedFile

def load (sources : List Source) (overrides : List (KeyPath × Json)) : Except LoadError Config := do
  let filed ← sources.foldlM layer standard.toJson
  let settings := overrides.foldl (fun settings (path, v) => override path v settings) filed
  match decode? decoder settings with
  | some c => return c
  | none => throw .unfitSetting

end Config

end GraphScribe
