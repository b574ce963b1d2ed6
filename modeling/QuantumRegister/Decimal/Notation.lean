import QuantumRegister.Decimal.Shortest

/-!
How floating-point numbers are written: with the fewest digits that read back, either positionally
at every magnitude (`plain`) or with an exponent (`scientific`).
-/

set_option autoImplicit false

namespace QuantumRegister.Decimal

inductive Parts where
  | nan
  | infinite (negative : Bool)
  | zero (negative : Bool)
  | finite (negative : Bool) (digits : Digits)

def Parts.ofBits (bits : Nat) : Parts :=
  let negative := bits / Nat.pow 2 63 % 2 == 1
  let biased : Nat := bits / Nat.pow 2 52 % 2048
  let fraction : Nat := bits % Nat.pow 2 52
  if biased = 2047 then (if fraction = 0 then .infinite negative else .nan)
  else if biased = 0 then
    if fraction = 0 then .zero negative
    else .finite negative (shortest (.ofBinary fraction (-1074) false))
  else .finite negative
    (shortest (.ofBinary (Nat.pow 2 52 + fraction) ((biased : Int) - 1075) (fraction == 0 && biased != 1)))

def sign (negative : Bool) : String := if negative then "-" else ""

def zeros (n : Nat) : String := String.ofList (List.replicate n '0')

def Digits.plain (d : Digits) : String :=
  let ds := Nat.toDigits 10 d.significand
  let point : Int := ds.length + d.exponent
  if 0 ≤ d.exponent then String.ofList ds ++ zeros d.exponent.toNat
  else if point ≤ 0 then "0." ++ zeros (-point).toNat ++ String.ofList ds
  else String.ofList (ds.take point.toNat) ++ "." ++ String.ofList (ds.drop point.toNat)

def Digits.scientific (d : Digits) : String :=
  let ds := Nat.toDigits 10 d.significand
  let exponent : Int := ds.length - 1 + d.exponent
  let tail := ds.drop 1
  String.ofList (ds.take 1) ++ (if tail.isEmpty then "" else "." ++ String.ofList tail) ++ "e" ++ toString exponent

def Parts.plain : Parts → String
  | .nan => "NaN"
  | .infinite negative => sign negative ++ "inf"
  | .zero negative => sign negative ++ "0"
  | .finite negative d => sign negative ++ d.plain

def Parts.scientific : Parts → String
  | .nan => "NaN"
  | .infinite negative => sign negative ++ "inf"
  | .zero negative => sign negative ++ "0e0"
  | .finite negative d => sign negative ++ d.scientific

end QuantumRegister.Decimal
