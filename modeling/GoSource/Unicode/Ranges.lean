/-!
# Sets of code points

A property of characters is a list of closed ranges in ascending order.  Membership reads the list from
the left and stops at the first range that starts past the character, so the common ASCII characters are
decided by the first few ranges.
-/

namespace GoSource.Unicode

/-- A set of code points: closed ranges `(low, high)`, ascending and disjoint. -/
abbrev Ranges := List (Nat × Nat)

/-- Whether some range of the set contains `n`. -/
def Ranges.covers : Ranges → Nat → Bool
  | [], _ => false
  | (low, high) :: rest, n => if n < low then false else n ≤ high || Ranges.covers rest n

end GoSource.Unicode
