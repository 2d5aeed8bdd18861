/-!
# SignalGraph.Saturating

Byte counts.  Sizes are natural numbers that stop at the greatest 64-bit word, so a sum or product
that would exceed it stays there.
-/

namespace SignalGraph.Saturating

/-- The greatest 64-bit word. -/
def limit : Nat := UInt64.size - 1

def add (a b : Nat) : Nat := min (a + b) limit

def mul (a b : Nat) : Nat := min (a * b) limit

/-- A saturating sum never exceeds the limit. -/
theorem add_le (a b : Nat) : add a b ≤ limit := Nat.min_le_right _ _

/-- A saturating product never exceeds the limit. -/
theorem mul_le (a b : Nat) : mul a b ≤ limit := Nat.min_le_right _ _

end SignalGraph.Saturating
