import GraphScribe.Geometry.Outline
import GraphScribe.Text.Lines

/-!
# Label sizes

A node is as large as its rendered label asks for. Whoever owns the fonts measures labels; the
monospace metrics stand in for a font of fixed width.
-/
namespace GraphScribe

open Scalar (ofNat)

structure Metrics (α : Type) where
  textSize : String → Size α

namespace Metrics

variable {α : Type} [Scalar α]

def monospace (charWidth lineHeight : α) : Metrics α where
  textSize label :=
    if label.isEmpty then .zero
    else
      let widths := (Text.labelLines label.toList).map List.length
      ⟨ofNat (widths.foldl max 0) * charWidth, ofNat (max widths.length 1) * lineHeight⟩

def standard : Metrics α := monospace (Scalar.decimal 72 1) (ofNat 16)

def padding : α := ofNat 8

def minExtent : α := ofNat 24

/-- How much larger than a box the outline is that encloses it: an ellipse encloses the corners at
`√2` times the size. -/
def enclosure : NodeShape → α
  | .ellipse => Scalar.sqrt (ofNat 2)
  | .rectangle | .roundedRectangle => ofNat 1

def nodeSize (m : Metrics α) (label : String) (shape : NodeShape) : Size α :=
  let text := m.textSize label
  let fit (extent : α) : α :=
    Scalar.max (extent * enclosure shape + ofNat 2 * padding) minExtent
  ⟨fit text.width, fit text.height⟩

end Metrics

end GraphScribe
