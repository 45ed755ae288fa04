import Aggregation.Decimal.Basic

set_option autoImplicit false

namespace Aggregation.Text

def splitSign : List Char → Bool × List Char
  | '-' :: rest => (true, rest)
  | '+' :: rest => (false, rest)
  | rest => (false, rest)

def isNatural (digits : List Char) : Bool :=
  !digits.isEmpty && digits.all Char.isDigit

def readInteger? (chars : List Char) : Option Int :=
  let (negative, digits) := splitSign chars
  if isNatural digits then some (signed negative (Nat.ofDigitChars 10 digits 0)) else none

-- The exponent that digits denote; once it passes 16 bits further digits are dropped, because no
-- double is that large or that small.
def exponentOf (digits : List Char) : Nat :=
  digits.foldl (fun n c => if n < 1 <<< 16 then 10 * n + (c.toNat - '0'.toNat) else n) 0

def readExponent? : List Char → Option Int
  | [] => some 0
  | mark :: rest =>
      let (negative, digits) := splitSign rest
      if (mark == 'e' || mark == 'E') && isNatural digits then
        some (signed negative (exponentOf digits))
      else none

def splitFraction : List Char → List Char × List Char
  | '.' :: rest => (rest.takeWhile Char.isDigit, rest.dropWhile Char.isDigit)
  | rest => ([], rest)

def readDecimal? (chars : List Char) : Option Decimal :=
  let whole := chars.takeWhile Char.isDigit
  let (fraction, rest) := splitFraction (chars.dropWhile Char.isDigit)
  if whole.isEmpty && fraction.isEmpty then none
  else (readExponent? rest).map fun exponent =>
    ⟨Nat.ofDigitChars 10 (whole ++ fraction) 0, exponent - fraction.length⟩

def readDouble? (chars : List Char) : Option Binary64 :=
  let (negative, body) := splitSign chars
  let name := String.ofList (body.map Char.toLower)
  if name = "nan" then some .nan
  else if name = "inf" || name = "infinity" then some (.infinity negative)
  else (readDecimal? body).map (Binary64.ofDecimal negative)

end Aggregation.Text
