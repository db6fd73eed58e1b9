import ModelBindings.Double.Basic

namespace ModelBindings.Double

structure Decimal where
  digits : Nat
  exponent : Int
  deriving DecidableEq, Repr

/-- The reals that round to one double: `low / den` to `high / den` around `mid / den`, with the
ends if `closed`. -/
structure Interval where
  low : Nat
  mid : Nat
  high : Nat
  den : Nat
  closed : Bool

def interval (x : Double) : Interval :=
  let below := if x.significand = Nat.pow 2 (precision - 1) ∧ minExponent < x.exponent then 1 else 2
  let (p, q) := scaled 1 2 (x.exponent - 2)
  let m := 4 * x.significand
  ⟨(m - below) * p, m * p, (m + 2) * p, q, x.significand % 2 = 0⟩

def Interval.holds (i : Interval) (n : Nat) : Bool :=
  if i.closed then i.low ≤ n * i.den && n * i.den ≤ i.high
  else i.low < n * i.den && n * i.den < i.high

def Interval.inUnits (i : Interval) (e : Int) : Interval :=
  let (p, q) := scaled 1 10 e
  ⟨i.low * q, i.mid * q, i.high * q, i.den * p, i.closed⟩

def Interval.nearest? (i : Interval) : Option Nat :=
  let n := i.mid / i.den
  match i.holds n, i.holds (n + 1) with
  | true, true => some (divEven i.mid i.den)
  | true, false => some n
  | false, true => some (n + 1)
  | false, false => none

def search (i : Interval) : Nat → Int → Decimal
  | 0, e => ⟨i.mid / i.den, e⟩
  | steps + 1, e =>
      match (i.inUnits e).nearest? with
      | some n => ⟨n, e⟩
      | none => search i steps (e - 1)

def tenAbove (x : Double) : Int :=
  (floorLog x.ratio.1 x.ratio.2 + 1) * 30103 / 100000 + 1

def shortest (x : Double) : Decimal :=
  search x.interval 24 x.tenAbove

def isPlain (e : Int) : Bool := -5 ≤ e && e < 16

def zeros (n : Nat) : List Char := List.replicate n '0'

def plainText (ds : List Char) (e : Int) : List Char :=
  if e < 0 then '0' :: '.' :: zeros (-e - 1).toNat ++ ds
  else
    let n := e.toNat + 1
    let whole := ds.take n ++ zeros (n - ds.length)
    let part := ds.drop n
    whole ++ '.' :: (if part.isEmpty then ['0'] else part)

def exponentText (ds : List Char) (e : Int) : List Char :=
  let part := ds.drop 1
  ds.take 1 ++ (if part.isEmpty then [] else '.' :: part) ++
    'e' :: (if e < 0 then '-' else '+') :: Nat.toDigits 10 e.natAbs

def text (x : Double) : String :=
  let sign := if x.negative then ['-'] else []
  if x.isZero then String.ofList (sign ++ ['0', '.', '0'])
  else
    let d := x.shortest
    let ds := Nat.toDigits 10 d.digits
    let e := d.exponent + ds.length - 1
    String.ofList (sign ++ if isPlain e then plainText ds e else exponentText ds e)

end ModelBindings.Double
