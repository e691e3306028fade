import SpmdArrays.Text.Decimal

/-!
The text of floating-point numbers. Both layouts write the shortest digits that
read back as the same number; they differ in where positional notation ends and
in whether a whole number keeps its point.
-/

namespace SpmdArrays

/-- The decisions of one way of writing numbers. `positional e` holds when a
number whose first digit has weight `10 ^ e` is written without an exponent. -/
structure NumberLayout where
  positional : Int → Bool
  keepsPoint : Bool

namespace NumberLayout

/-- Literals: positional from `0.0001` up to below ten quadrillions, and never
without a point or an exponent. -/
def literal : NumberLayout := ⟨fun e => -4 ≤ e && e < 16, true⟩

/-- Values: always positional, a whole number without a point. -/
def value : NumberLayout := ⟨fun _ => true, false⟩

/-- Digits with a point so that the first digit has weight `10 ^ e`. -/
def positionalText (layout : NumberLayout) (digits : List Char) (e : Int) : String :=
  if e < 0 then
    "0." ++ String.ofList (List.replicate (-e - 1).toNat '0' ++ digits)
  else
    let whole := (e + 1).toNat
    let padded := digits ++ List.replicate (whole - digits.length) '0'
    let fraction := padded.drop whole
    let head := String.ofList (padded.take whole)
    if fraction.isEmpty then
      if layout.keepsPoint then head ++ ".0" else head
    else head ++ "." ++ String.ofList fraction

/-- One digit, the others behind a point, and the exponent. -/
def exponentText (digits : List Char) (e : Int) : String :=
  let head := String.ofList (digits.take 1)
  let rest := digits.drop 1
  let fraction := if rest.isEmpty then "" else "." ++ String.ofList rest
  head ++ fraction ++ "e" ++ toString e

/-- The text of a number that is neither negative, infinite nor undefined. -/
def magnitudeText (layout : NumberLayout) (b : Decimal.Binary) : String :=
  let d := b.shortest
  let digits := Nat.toDigits 10 d.digits
  let e := d.exponent + digits.length - 1
  if layout.positional e then layout.positionalText digits e else exponentText digits e

/-- The text of a double, the sign of zero included. -/
def text (layout : NumberLayout) (x : Float) : String :=
  let bits := x.toBits.toNat
  let sign := if bits / Nat.pow 2 63 = 0 then "" else "-"
  match Decimal.Binary.ofBits? (bits % Nat.pow 2 63) with
  | some b => sign ++ layout.magnitudeText b
  | none => if bits % Nat.pow 2 52 = 0 then sign ++ "inf" else "NaN"

end NumberLayout

end SpmdArrays
