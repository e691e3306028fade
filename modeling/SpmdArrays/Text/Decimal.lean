/-!
The shortest decimal of a binary floating-point number.

A finite double is `mantissa * 2 ^ exponent`. The reals that round to it form
an interval around it, whose ends belong to it exactly when the mantissa is
even. On the decimal grid of one, two, three, … significant digits the two
neighbours of the number are tried; the first grid that has a point in the
interval gives the digits, and of two such points the nearer is taken. Half way
between both, the upper one is taken.
-/

namespace SpmdArrays.Decimal

/-- A positive finite number `mantissa * 2 ^ exponent`. The gap to the next
smaller number is half as wide as usual when `narrow` holds. -/
structure Binary where
  mantissa : Nat
  exponent : Int
  narrow : Bool
  deriving DecidableEq, Repr

/-- The decimal `digits * 10 ^ exponent`. -/
structure Digits where
  digits : Nat
  exponent : Int
  deriving DecidableEq, Repr

/-- The fields of a double without its sign bit; `none` for the infinities and
for what is not a number. -/
def Binary.ofBits? (bits : Nat) : Option Binary :=
  let fraction : Nat := bits % Nat.pow 2 52
  let biased : Nat := bits / Nat.pow 2 52 % Nat.pow 2 11
  if biased = 2047 then none
  else if biased = 0 then some ⟨fraction, -1074, false⟩
  else some ⟨fraction + Nat.pow 2 52, (biased : Int) - 1075, fraction == 0 && biased != 1⟩

/-- `base ^ e` as a numerator and a denominator. -/
def scale (base : Nat) (e : Int) : Nat × Nat :=
  if 0 ≤ e then (base.pow e.toNat, 1) else (1, base.pow (-e).toNat)

/-- The interval of a number, in quarters of its last binary place. -/
structure Interval where
  lower : Nat
  value : Nat
  upper : Nat
  closed : Bool

def Binary.interval (b : Binary) : Interval :=
  { lower := 4 * b.mantissa - (if b.narrow then 1 else 2)
    value := 4 * b.mantissa
    upper := 4 * b.mantissa + 2
    closed := b.mantissa % 2 == 0 }

/-- Whether `left / right`, in quarters of the last place, rounds to the number. -/
def Interval.holds (i : Interval) (left right : Nat) : Bool :=
  if i.closed then i.lower * right ≤ left && left ≤ i.upper * right
  else i.lower * right < left && left < i.upper * right

/-- The point of the grid with step `10 ^ place` that stands for the number, if
the grid has one. -/
def Binary.onGrid? (b : Binary) (place : Int) : Option Nat :=
  let i := b.interval
  let (tenUp, tenDown) := scale 10 place
  let (twoUp, twoDown) := scale 2 (b.exponent - 2)
  -- A grid point `n` is `n * unit / quarter` quarters of the last place.
  let unit := tenUp * twoDown
  let quarter := tenDown * twoUp
  let below := i.value * quarter / unit
  let above := below + 1
  let belowHolds := i.holds (below * unit) quarter
  let aboveHolds := i.holds (above * unit) quarter
  if belowHolds && aboveHolds then
    -- Twice the distance from `below`, measured against one step of the grid.
    if 2 * (i.value * quarter - below * unit) < unit then some below else some above
  else if belowHolds then some below
  else if aboveHolds then some above
  else none

/-- How many decimal digits a natural number has; zero has none. -/
def digitCount (n : Nat) : Nat :=
  if n = 0 then 0 else (Nat.toDigits 10 n).length

/-- The place `p` for which the number is at least `10 ^ (p - 1)` and less than
`10 ^ p`. -/
def Binary.magnitude (b : Binary) : Int :=
  if 0 ≤ b.exponent then digitCount (b.mantissa * Nat.pow 2 b.exponent.toNat)
  else
    let down := (-b.exponent).toNat
    let whole := b.mantissa / Nat.pow 2 down
    if whole ≠ 0 then digitCount whole
    -- Scaled by `10 ^ down` the number is a natural number.
    else digitCount (b.mantissa * Nat.pow 10 down / Nat.pow 2 down) - down

/-- Moves the trailing zeros of the digits into the exponent. -/
def Digits.trim (fuel : Nat) (d : Digits) : Digits :=
  match fuel with
  | 0 => d
  | fuel + 1 =>
    if d.digits ≠ 0 ∧ d.digits % 10 = 0 then trim fuel ⟨d.digits / 10, d.exponent + 1⟩ else d

/-- Tries the grids of `count` digits and more, up to `count + left`. -/
def Binary.search (b : Binary) (magnitude : Int) (count left : Nat) : Digits :=
  let place := magnitude - count
  match b.onGrid? place, left with
  | some n, _ => Digits.trim count ⟨n, place⟩
  | none, 0 => ⟨0, 0⟩
  | none, left + 1 => b.search magnitude (count + 1) left

/-- Seventeen digits always suffice for a double. -/
def Binary.shortest (b : Binary) : Digits :=
  if b.mantissa = 0 then ⟨0, 0⟩ else b.search b.magnitude 1 16

end SpmdArrays.Decimal
