import GraphScribe.Program.Fault

/-! # How faults are described

A description that quotes a name or a text begins with fixed words, so the beginning of a
description tells of which faults it can be, whatever is quoted after it. -/
namespace GraphScribe.Program

namespace Fault

/-- The words before the first quotation, or the whole of a description that quotes nothing. -/
def lead : Fault → String
  | unexpected _ => "Unexpected token "
  | missingEquals _ => "Expecting '=' after declaration name '"
  | reservedDeclaration _ | reservedCommand _ | reservedRule _ => "Reserved keyword '"
  | emptyDeclaration _ => "Empty declaration '"
  | f => f.describe "" 0

theorem lead_prefix (f : Fault) (text : String) (start : Nat) :
    f.lead.toList <+: (f.describe text start).toList := by
  have grow : ∀ {a s : String} (b : String), a.toList <+: s.toList →
      a.toList <+: (s ++ b).toList := by
    intro a s b h
    rw [String.toList_append]
    exact h.trans (List.prefix_append _ _)
  have named : ∀ a b c : String, a.toList <+: (a ++ b ++ c).toList :=
    fun _ b c => grow c (grow b List.prefix_rfl)
  cases f with
  | unexpected e => exact grow _ (grow _ (grow _ (named _ _ _)))
  | missingEquals name => exact named _ _ _
  | reservedDeclaration name => exact named _ _ _
  | emptyDeclaration name => exact named _ _ _
  | reservedCommand word => exact named _ _ _
  | reservedRule name => exact named _ _ _
  | _ => exact List.prefix_rfl

theorem not_begins {f : Fault} {l : List Char}
    (h : ¬(l <+: f.lead.toList ∨ f.lead.toList <+: l)) (text : String) (start : Nat) :
    ¬l <+: (f.describe text start).toList :=
  fun hl => h (List.prefix_or_prefix_of_prefix hl (f.lead_prefix text start))

end Fault

/-- Only what is unexpected is described with the offset at which it stands. -/
theorem describe_other {f : Fault} (h : ∀ e, f ≠ .unexpected e) (text : String) (start : Nat) :
    ¬"Unexpected token ".toList <+: (f.describe text start).toList := by
  apply Fault.not_begins
  cases f with
  | unexpected e => exact absurd rfl (h e)
  | _ =>
    dsimp only [Fault.lead, Fault.describe]
    decide +kernel

theorem describe_emptyBlock {f : Fault} (hf : f ≠ .emptyBlock) (text : String) (start : Nat) :
    ¬"Empty block".toList <+: (f.describe text start).toList := by
  apply Fault.not_begins
  cases f with
  | emptyBlock => exact absurd rfl hf
  | _ =>
    dsimp only [Fault.lead, Fault.describe]
    decide +kernel

end GraphScribe.Program
