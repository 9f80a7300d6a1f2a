/-!
# Numerals

* `Numeral.ofNat`, `Numeral.ofInt` : decimal digits, with a minus sign below zero;
* `Numeral.toNat?` : digits of a radix, at least one;
* `Numeral.toInt?` : the same after at most one sign, within bounds.
-/

namespace PocketShell.Numeral

def ofNat (n : Nat) : List Char := Nat.toDigits 10 n

def ofInt (n : Int) : List Char :=
  if n < 0 then '-' :: ofNat n.natAbs else ofNat n.natAbs

/-- The value of a digit. Letters of either case go on after the nine. -/
def digit? (radix : Nat) (c : Char) : Option Nat :=
  let value :=
    if '0' ≤ c ∧ c ≤ '9' then c.toNat - '0'.toNat
    else if 'a' ≤ c ∧ c ≤ 'z' then c.toNat - 'a'.toNat + 10
    else if 'A' ≤ c ∧ c ≤ 'Z' then c.toNat - 'A'.toNat + 10
    else radix
  if value < radix then some value else none

/-- The value of digits that follow digits with the value `acc`. -/
def toNatFrom (radix acc : Nat) : List Char → Option Nat
  | [] => some acc
  | c :: cs => (digit? radix c).bind fun d => toNatFrom radix (acc * radix + d) cs

def toNat? (radix : Nat) (cs : List Char) : Option Nat :=
  if cs.isEmpty then none else toNatFrom radix 0 cs

def signed? (radix : Nat) : List Char → Option Int
  | '-' :: cs => (toNat? radix cs).map fun n => -(n : Int)
  | '+' :: cs => (toNat? radix cs).map fun n => (n : Int)
  | cs => (toNat? radix cs).map fun n => (n : Int)

/-- Whether a number is a signed integer with that many bits. -/
def fits (bits : Nat) (n : Int) : Bool :=
  let bound := Nat.pow 2 (bits - 1)
  decide (-(bound : Int) ≤ n ∧ n < bound)

/-- A numeral of a signed integer with that many bits. -/
def toInt? (bits radix : Nat) (cs : List Char) : Option Int := (signed? radix cs).filter (fits bits)

end PocketShell.Numeral
