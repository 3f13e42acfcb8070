import Sprig.Numeric.Binary

/-!
# Powers

Powers of Numbers are those of binary64 arithmetic, with one difference: zero to a negative exponent
is infinity, whatever sign the zero has and whether or not the exponent is odd.
-/

namespace Sprig.Numeric

/-- Infinity. -/
def infinity : Float := ofRank false infiniteRank

/-- A base to an exponent. -/
def power (base exponent : Float) : Float :=
  if base == 0.0 && exponent < 0.0 then infinity else base.pow exponent

/-- Zero to a negative exponent is infinity. -/
theorem power_zero {base exponent : Float} (hbase : (base == 0.0) = true) (hneg : exponent < 0.0) :
    power base exponent = infinity := by
  simp [power, hbase, hneg]

end Sprig.Numeric
