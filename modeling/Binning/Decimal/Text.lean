import Binning.Decimal.Shortest

/-! Numbers as text: the shortest digits that read back, written positionally
however large or small the number is, with no point on a whole number. The sign
of zero is kept. -/
namespace Binning.Decimal

def Numeral.trimmed (n : Numeral) : List Char × Int :=
  let digits := Nat.toDigits 10 n.digits
  let kept := (digits.reverse.dropWhile (· == '0')).reverse
  (kept, n.exponent + ((digits.length - kept.length : Nat) : Int))

def zeros (n : Nat) : List Char := List.replicate n '0'

/-- The point stands after, inside or before the digits. -/
def Numeral.positional (n : Numeral) : List Char :=
  let (digits, exponent) := n.trimmed
  let point := (digits.length : Int) + exponent
  if 0 ≤ exponent then digits ++ zeros exponent.toNat
  else if 0 < point then digits.take point.toNat ++ '.' :: digits.drop point.toNat
  else '0' :: '.' :: zeros (-point).toNat ++ digits

def text (x : Float) : String :=
  match Binary64.parts? x with
  | none => if x.isNaN then "NaN" else if x < 0 then "-inf" else "inf"
  | some p =>
    let body := if p.significand = 0 then ['0'] else (shortest p).positional
    String.ofList (if p.negative then '-' :: body else body)

end Binning.Decimal
