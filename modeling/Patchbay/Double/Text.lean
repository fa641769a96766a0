import Patchbay.Text.Blank
import Patchbay.Double.Decimal

/-!
# Doubles as text

A `Layout` says how the shortest digits of a double are laid out: between which powers of ten they are
written positionally, whether a whole number keeps a `.0`, and how an exponent is signed.

`ofText?` reads the decimal notation that people type: a sign, digits with an optional point and
exponent, or the names of the infinities and of NaN in any case.
-/

namespace Patchbay.Double

structure Layout where
  /-- The least and greatest `k` for which a magnitude in `[10 ^ (k - 1), 10 ^ k)` is positional; none
  means that every magnitude is. -/
  positional : Option (Int × Int)
  /-- A whole number written positionally ends in `.0`. -/
  pointZero : Bool
  plusSign : Bool
  tie : Tie

def Layout.plain : Layout := ⟨none, false, false, .up⟩

def Layout.document : Layout := ⟨some (-4, 16), true, true, .even⟩

def Layout.described : Layout := ⟨some (-3, 16), true, false, .up⟩

def zeros (n : Nat) : List Char :=
  List.replicate n '0'

def strippedDigits (n : Nat) : List Char :=
  ((Nat.toDigits 10 n).reverse.dropWhile (· == '0')).reverse

/-- Digits with the point after the first `point` of them. -/
def positionalText (l : Layout) (digits : List Char) (point : Int) : List Char :=
  let n := digits.length
  if point ≤ 0 then '0' :: '.' :: (zeros (-point).toNat ++ digits)
  else if point < n then digits.take point.toNat ++ '.' :: digits.drop point.toNat
  else digits ++ zeros (point.toNat - n) ++ (if l.pointZero then ['.', '0'] else [])

/-- Digits with the point after the first of them, and an exponent. -/
def exponentText (l : Layout) (digits : List Char) (point : Int) : List Char :=
  let mantissa := match digits with
    | [] => []
    | [c] => [c]
    | c :: rest => c :: '.' :: rest
  let exponent := point - 1
  let sign := if exponent < 0 then ['-'] else if l.plusSign then ['+'] else []
  mantissa ++ 'e' :: (sign ++ Nat.toDigits 10 exponent.natAbs)

def magnitudeText (l : Layout) (d : Double) : List Char :=
  if d.isZero then (if l.pointZero then ['0', '.', '0'] else ['0'])
  else
    let x := shortest l.tie d
    let digits := strippedDigits x.coefficient
    let point := digitCount x.coefficient + x.exponent
    match l.positional with
    | none => positionalText l digits point
    | some (least, greatest) =>
      if least ≤ point ∧ point ≤ greatest then positionalText l digits point
      else exponentText l digits point

def text (l : Layout) (d : Double) : String :=
  if d.isNaN then "NaN"
  else
    let magnitude := if d.isFinite then magnitudeText l d else ['i', 'n', 'f']
    String.ofList (if d.negative then '-' :: magnitude else magnitude)

def digitsValue (cs : List Char) : Nat :=
  cs.foldl (fun n c => 10 * n + (c.toNat - '0'.toNat)) 0

def splitSign : List Char → Bool × List Char
  | '-' :: cs => (true, cs)
  | '+' :: cs => (false, cs)
  | cs => (false, cs)

/-- An exponent of ten: nothing, or the letter `e` with an optional sign and at least one digit. -/
def exponentOfText? : List Char → Option Int
  | [] => some 0
  | c :: cs =>
    let (negative, digits) := splitSign cs
    if (c == 'e' || c == 'E') && !digits.isEmpty && digits.all Char.isDigit then
      let n : Int := digitsValue digits
      some (if negative then -n else n)
    else none

/-- Digits with an optional point, at least one digit in all, and an optional exponent. -/
def decimalOfText? (cs : List Char) : Option Decimal :=
  let whole := cs.takeWhile Char.isDigit
  let rest := cs.dropWhile Char.isDigit
  let (fraction, rest) := match rest with
    | '.' :: tail => (tail.takeWhile Char.isDigit, tail.dropWhile Char.isDigit)
    | _ => ([], rest)
  if whole.isEmpty && fraction.isEmpty then none
  else (exponentOfText? rest).map fun e => ⟨digitsValue (whole ++ fraction), e - fraction.length⟩

def ofText? (cs : List Char) : Option Double :=
  let (negative, rest) := splitSign cs
  let word := String.ofList (Text.lower rest)
  if word == "inf" || word == "infinity" then some (infinity negative)
  else if word == "nan" then some (nan negative)
  else (decimalOfText? rest).map (ofDecimal negative)

end Patchbay.Double
