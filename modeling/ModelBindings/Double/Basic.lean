/-!
Binary floating-point numbers of 53 bits, held as exact integers. Every operation rounds the exact
result to the nearest such number, a tie going to the even significand, and answers `none` where
the result would not be finite.
-/

namespace ModelBindings

/-- The number `significand * 2 ^ exponent`, or its negative. -/
structure Double where
  negative : Bool
  significand : Nat
  exponent : Int
  deriving DecidableEq, Repr, Inhabited

namespace Double

def precision : Nat := 53

def minExponent : Int := -1074

def maxExponent : Int := 971

def zero : Double := ⟨false, 0, minExponent⟩

def isZero (x : Double) : Bool := x.significand = 0

def neg (x : Double) : Double := { x with negative := !x.negative }

/-- The integer nearest to `num / den`, the even one of two. -/
def divEven (num den : Nat) : Nat :=
  let q := num / den
  let r := num % den
  if 2 * r < den ∨ (2 * r = den ∧ q % 2 = 0) then q else q + 1

def scaled (n b : Nat) (e : Int) : Nat × Nat :=
  if 0 ≤ e then (n * Nat.pow b e.toNat, 1) else (n, Nat.pow b (-e).toNat)

/-- The greatest `k` with `2 ^ k ≤ num / den`. -/
def floorLog (num den : Nat) : Int :=
  let k : Int := num.log2 - den.log2
  let (p, q) := scaled 1 2 k
  if den * p ≤ num * q then k else k - 1

def ofRatio (num den : Nat) : Option Double :=
  if num = 0 then some zero
  else
    let e := max (floorLog num den - (precision - 1 : Nat)) minExponent
    let (p, q) := scaled 1 2 e
    let m := divEven (num * q) (den * p)
    let x : Double := if m = Nat.pow 2 precision then ⟨false, m / 2, e + 1⟩ else ⟨false, m, e⟩
    if x.exponent ≤ maxExponent then some x else none

def ofNat (n : Nat) : Option Double := ofRatio n 1

def ratio (x : Double) : Nat × Nat := scaled x.significand 2 x.exponent

def mul (x y : Double) : Option Double :=
  (ofRatio (x.ratio.1 * y.ratio.1) (x.ratio.2 * y.ratio.2)).map
    fun z => if x.negative = y.negative then z else z.neg

def div (x y : Double) : Option Double :=
  (ofRatio (x.ratio.1 * y.ratio.2) (x.ratio.2 * y.ratio.1)).map
    fun z => if x.negative = y.negative then z else z.neg

def tenTo (k : Nat) : Option Double := ofNat (Nat.pow 10 k)

def maxTen : Nat := 308

/-- `x * 10 ^ e`, with one rounding for the power and one for each product or quotient. A quotient
by more than two such powers is zero for every integer of 64 bits. -/
def scaleTen (x : Double) (e : Int) : Option Double :=
  if x.isZero then some x
  else if maxTen < e then none
  else if 0 ≤ e then do x.mul (← tenTo e.toNat)
  else if -maxTen ≤ e then do x.div (← tenTo (-e).toNat)
  else if -(2 * maxTen) ≤ e then do
    (← x.div (← tenTo maxTen)).div (← tenTo (-e - maxTen).toNat)
  else some { zero with negative := x.negative }

def ofDecimal (digits : Nat) (e : Int) : Option Double := do
  (← ofNat digits).scaleTen e

end Double

end ModelBindings
