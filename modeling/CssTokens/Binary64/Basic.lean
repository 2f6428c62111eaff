/-!
# Binary floating-point numbers

The numbers of the 64-bit binary format: signed zeros, subnormal and normal numbers, and the two
infinities. There is no NaN among them, since no number is ever read as one.

Apart from its sign a number is its `magnitude`, the lower 63 bits of its representation. Their
order is the order of the absolute values, and the next number is the next magnitude.
-/

namespace CssTokens

/-- A number of the 64-bit binary floating-point format that is not a NaN. -/
structure Binary64 where
  negative : Bool
  /-- Biased exponent and fraction, read as one number. -/
  magnitude : Nat
  magnitude_le : magnitude ≤ 0x7FF0000000000000 := by decide
  deriving DecidableEq

namespace Binary64

/-- The magnitude of the infinities, which follows that of the largest finite numbers. -/
def infinite : Nat := 0x7FF0000000000000

def isInfinite (x : Binary64) : Bool :=
  x.magnitude == infinite

def isZero (x : Binary64) : Bool :=
  x.magnitude == 0

/-- Zero, of either sign. -/
def zero (negative : Bool) : Binary64 :=
  { negative, magnitude := 0 }

/-- Infinity, of either sign. -/
def infinity (negative : Bool) : Binary64 :=
  { negative, magnitude := infinite }

/-- A number by its magnitude. What is too large becomes infinite. -/
def ofMagnitude (negative : Bool) (magnitude : Nat) : Binary64 :=
  { negative, magnitude := min magnitude infinite, magnitude_le := Nat.min_le_right _ _ }

instance : Inhabited Binary64 := ⟨zero false⟩

/-! ## The 64 bits -/

/-- The highest bit, which is set in negative numbers. -/
def signBit : Nat := 0x8000000000000000

/-- The representation, the sign being the highest bit. -/
def bits (x : Binary64) : Nat :=
  (if x.negative then signBit else 0) + x.magnitude

/-- The number that 64 bits represent, unless they are a NaN. -/
def ofBits? (bits : Nat) : Option Binary64 :=
  if h : bits % signBit ≤ infinite then
    some { negative := bits / signBit == 1, magnitude := bits % signBit, magnitude_le := h }
  else none

/-! ## The value

The absolute value is `significand * 2 ^ exponent`. By the same rule the infinities have the value
`2 ^ 1024`, where the finite numbers would go on.
-/

/-- The lowest bit of the biased exponent, and the highest bit of the significands of normal
numbers. -/
def hiddenBit : Nat := 0x10000000000000

/-- The exponent as it is represented. It is zero for the subnormal numbers. -/
def biasedExponent (x : Binary64) : Nat :=
  x.magnitude / hiddenBit

/-- The bits below the exponent. -/
def fraction (x : Binary64) : Nat :=
  x.magnitude % hiddenBit

/-- The significand, an integer of at most 53 bits. -/
def significand (x : Binary64) : Nat :=
  if x.biasedExponent = 0 then x.fraction else hiddenBit + x.fraction

/-- The exponent that goes with the significand. -/
def exponent (x : Binary64) : Int :=
  if x.biasedExponent = 0 then -1074 else x.biasedExponent - 1075

/--
Whether the gap below the number is half the gap above it. It is so at each power of two but the
smallest.
-/
def isBinadeStart (x : Binary64) : Bool :=
  x.fraction == 0 && 1 < x.biasedExponent

/-- Whether a finite number is an integer. -/
def isIntegral (x : Binary64) : Bool :=
  !x.isInfinite && (0 ≤ x.exponent || x.significand % (1 <<< (-x.exponent).toNat) == 0)

theorem bits_lt (x : Binary64) : x.bits < UInt64.size := by
  have h := x.magnitude_le
  unfold bits signBit UInt64.size
  split <;> omega

theorem bits_mod (x : Binary64) : x.bits % signBit = x.magnitude := by
  have h := x.magnitude_le
  unfold bits signBit
  split <;> omega

theorem bits_div (x : Binary64) : (x.bits / signBit == 1) = x.negative := by
  have h := x.magnitude_le
  rw [Bool.eq_iff_iff, beq_iff_eq]
  unfold bits signBit
  split
  · next hn => rw [hn]; exact ⟨fun _ => rfl, fun _ => by omega⟩
  · next hn => exact ⟨fun _ => by omega, fun h => absurd h hn⟩

theorem ofBits?_bits (x : Binary64) : ofBits? x.bits = some x := by
  have hle : x.bits % signBit ≤ infinite := by
    rw [bits_mod]
    exact x.magnitude_le
  rw [ofBits?, dif_pos hle]
  simp only [bits_mod, bits_div]

end Binary64

end CssTokens
