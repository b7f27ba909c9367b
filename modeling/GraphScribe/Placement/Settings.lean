import GraphScribe.Scalar.Basic

/-!
# Layout settings

One section for each placement, and the values that belong to none. Every value has a default.
-/
namespace GraphScribe

open Scalar (ofNat decimal)

inductive Algorithm where
  | tree
  | layered
  | radialTree
  | spring
  | fruchtermanReingold
  | circular
  | planar
  deriving DecidableEq, Repr

inductive Direction where
  | topToBottom
  | bottomToTop
  | leftToRight
  | rightToLeft
  deriving DecidableEq, Repr

variable {α : Type}

structure TreeSettings (α : Type) where
  levelDistance : α
  siblingDistance : α
  deriving DecidableEq, Repr

structure LayeredSettings (α : Type) where
  rankSpacing : α
  nodeSpacing : α
  /-- How often the ranks are reordered, down and up. -/
  sweeps : Nat
  deriving DecidableEq, Repr

structure RadialSettings (α : Type) where
  levelDistance : α
  nodeSpacing : α
  deriving DecidableEq, Repr

structure SpringSettings (α : Type) where
  iterations : Nat
  length : α
  stiffness : α
  repulsion : α
  maxStep : α
  deriving DecidableEq, Repr

structure CoolingSettings (α : Type) where
  iterations : Nat
  distance : α
  /-- Farthest move in the first iteration; it falls to zero evenly. -/
  temperature : α
  deriving DecidableEq, Repr

structure CircularSettings (α : Type) where
  nodeSpacing : α
  deriving DecidableEq, Repr

structure PlanarSettings (α : Type) where
  /-- Added to the largest diagonal to give the pitch of the grid. -/
  nodeSpacing : α
  componentSpacing : α
  iterations : Nat
  deriving DecidableEq, Repr

structure LayoutSettings (α : Type) where
  margin : α
  algorithm : Algorithm
  direction : Direction
  tree : TreeSettings α
  layered : LayeredSettings α
  radial : RadialSettings α
  spring : SpringSettings α
  cooling : CoolingSettings α
  circular : CircularSettings α
  planar : PlanarSettings α
  deriving DecidableEq, Repr

def LayoutSettings.standard [Scalar α] : LayoutSettings α where
  margin := ofNat 20
  algorithm := .circular
  direction := .topToBottom
  tree := ⟨ofNat 60, ofNat 30⟩
  layered := ⟨ofNat 60, ofNat 30, 2⟩
  radial := ⟨ofNat 60, ofNat 20⟩
  spring := ⟨300, ofNat 100, decimal 5 2, ofNat 20000, ofNat 30⟩
  cooling := ⟨300, ofNat 90, ofNat 60⟩
  circular := ⟨ofNat 30⟩
  planar := ⟨ofNat 30, ofNat 60, 100⟩

end GraphScribe
