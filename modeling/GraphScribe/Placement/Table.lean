/-!
# Tables

What a placement computes for each box, as pairs of the box's index and a value. The first pair of
an index counts.
-/
namespace GraphScribe

abbrev Table (β : Type) := List (Nat × β)

namespace Table

def get {β : Type} (t : Table β) (v : Nat) (default : β) : β := (t.lookup v).getD default

end Table

end GraphScribe
