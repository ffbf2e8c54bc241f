/-
  IEEE 754 doubles, as far as amounts and loads need them: decoding, rounding to nearest
  even, subtraction and the saturating cast to `i64`. The sign of zero and overflow to
  infinity play no role here and are left out.

  Where neither an infinity nor a NaN can come up, a double is its value, and the
  operations are those on `ℚ`, rounded (`fadd` to `fdiv`).
-/
import Mathlib.Data.Rat.Floor
import Mathlib.Tactic.NormNum

/-- The value of a double. -/
inductive Double
  | finite (x : ℚ)
  | inf (negative : Bool)
  | nan
deriving DecidableEq

namespace Double

/-- The value of 64 bits. -/
def ofBits (b : ℕ) : Double :=
  let negative : Bool := b / 2 ^ 63 % 2 = 1
  let exponent : ℕ := b / 2 ^ 52 % 2 ^ 11
  let fraction : ℕ := b % 2 ^ 52
  if exponent = 2047 then
    if fraction = 0 then .inf negative else .nan
  else
    let magnitude : ℚ :=
      if exponent = 0 then mkRat (Int.ofNat fraction) (2 ^ 1074)
      else mkRat (Int.ofNat ((2 ^ 52 + fraction) * 2 ^ exponent)) (2 ^ 1075)
    .finite (if negative then -magnitude else magnitude)

/-- The nearest integer, to even on ties. -/
def roundEven (x : ℚ) : ℤ :=
  let rest := x - ⌊x⌋
  if rest < 1 / 2 then ⌊x⌋
  else if 1 / 2 < rest then ⌊x⌋ + 1
  else if ⌊x⌋ % 2 = 0 then ⌊x⌋ else ⌊x⌋ + 1

/-- A power of two with an integer exponent. -/
def pow2 (n : ℤ) : ℚ := if 0 ≤ n then 2 ^ n.toNat else 1 / 2 ^ (-n).toNat

/-- The nearest number with a fraction of 52 bits. -/
def round (x : ℚ) : ℚ :=
  if x = 0 then 0
  else
    -- `2 ^ l ≤ |x| < 2 ^ (l + 1)`
    let guess : ℤ := Nat.log2 x.num.natAbs - Nat.log2 x.den
    let l := if pow2 guess ≤ |x| then guess else guess - 1
    let unit := pow2 (max (l - 52) (-1074))
    roundEven (x / unit) * unit

def sub : Double → Double → Double
  | .finite x, .finite y => .finite (round (x - y))
  | .nan, _ | _, .nan => .nan
  | .inf a, .inf b => if a = b then .nan else .inf a
  | .inf a, .finite _ => .inf a
  | .finite _, .inf b => .inf (!b)

def one : Double := .finite 1

/-- `as i64`: towards zero, saturating, and 0 for a NaN. -/
def toInt64 : Double → Int64
  | .finite x => Int64.ofIntClamp (if 0 ≤ x then ⌊x⌋ else ⌈x⌉)
  | .inf negative => if negative then Int64.minValue else Int64.maxValue
  | .nan => 0

/-- `as f64` of an integer. -/
def ofNat (n : ℕ) : ℚ := round n

def fadd (x y : ℚ) : ℚ := round (x + y)

def fsub (x y : ℚ) : ℚ := round (x - y)

def fmul (x y : ℚ) : ℚ := round (x * y)

def fdiv (x y : ℚ) : ℚ := round (x / y)

example : ofBits 0x4014000000000000 = .finite 5 := by decide +kernel

-- the smallest double: the difference is rounded to -1
example : (sub (ofBits 1) one).toInt64 = -1 := by decide +kernel

end Double
