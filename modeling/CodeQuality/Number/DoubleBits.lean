import CodeQuality.Number.Binary64

/-!
Doubles by their bits.

`Float` has one value for all that is no number. What files are ranked by keeps its bits, since the
order that places every double tells those values apart by their sign and their digits.
-/

namespace CodeQuality

structure DoubleBits where
  word : UInt64
  deriving Repr, DecidableEq

namespace DoubleBits

def ofFloat (x : Float) : DoubleBits := ⟨x.toBits⟩

def toFloat (d : DoubleBits) : Float := Float.ofBits d.word

/-- The place of a double in the order `-nan < -inf < … < -0.0 < 0.0 < … < inf < nan`. -/
def totalOrderKey (d : DoubleBits) : Int :=
  let bits := d.word.toNat
  if bits < twoPow 63 then (bits : Int) else (twoPow 63 : Int) - 1 - bits

end DoubleBits

end CodeQuality
