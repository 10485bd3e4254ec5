/-! Binary floating-point numbers of double precision: the one nearest to a
decimal, and the shortest decimal that reads back as a given one. All
arithmetic is exact, on natural numbers. -/

namespace Listfile

/-- A number `± mantissa * 2 ^ exponent`, an infinity, or no number at all. -/
inductive Binary
  | undefined
  | infinite (negative : Bool)
  | finite (negative : Bool) (mantissa : Nat) (exponent : Int)
  deriving DecidableEq, Repr

namespace Binary

/-- Significant bits of a mantissa. -/
def precision : Nat := 53

/-- The exponent of the smallest positive number. -/
def minExponent : Int := -1074

/-- The exponent of the largest finite number. -/
def maxExponent : Int := 971

/-- A power of two. -/
def pow2 (n : Nat) : Nat := Nat.pow 2 n

/-- A power of ten. -/
def pow10 (n : Nat) : Nat := Nat.pow 10 n

/-- `n * 2 ^ e * 10 ^ g` as a fraction. -/
def fraction (n : Nat) (e g : Int) : Nat × Nat :=
  (n * pow2 e.toNat * pow10 g.toNat, pow2 (-e).toNat * pow10 (-g).toNat)

/-- The quotient rounded to the nearest integer, a tie to the even one. -/
def roundEven (numerator denominator : Nat) : Nat :=
  let q := numerator / denominator
  let r := numerator % denominator
  if 2 * r < denominator || (2 * r = denominator && q % 2 = 0) then q else q + 1

/-- The number nearest to `digits * 10 ^ power`. -/
def ofDecimal (negative : Bool) (digits : Nat) (power : Int) : Binary :=
  if digits = 0 then .finite negative 0 minExponent
  else
    let size : Int := (Nat.toDigits 10 digits).length + power
    if size > 310 then .infinite negative
    else if size < -325 then .finite negative 0 minExponent
    else
      let (n, d) := fraction digits 0 power
      let guess : Int := (n.log2 : Int) - d.log2 - precision
      let fits (e : Int) : Bool :=
        let (a, b) := fraction 1 e 0
        n * b < pow2 precision * d * a
      let e := max minExponent (if fits guess then guess else if fits (guess + 1) then guess + 1
        else guess + 2)
      let (a, b) := fraction 1 e 0
      let m := roundEven (n * b) (d * a)
      let (m, e) := if m = pow2 precision then (m / 2, e + 1) else (m, e)
      if e > maxExponent then .infinite negative else .finite negative m e

/-- Whether `a * 2 ^ e ≤ c * 10 ^ g`, strictly if `strict`. -/
def below (strict : Bool) (a : Nat) (e : Int) (c : Nat) (g : Int) : Bool :=
  let (p, q) := fraction a e (-g)
  if strict then p < c * q else p ≤ c * q

/-- Whether `c * 10 ^ g ≤ a * 2 ^ e`, strictly if `strict`. -/
def above (strict : Bool) (a : Nat) (e : Int) (c : Nat) (g : Int) : Bool :=
  let (p, q) := fraction a e (-g)
  if strict then c * q < p else c * q ≤ p

/-- Whether `c * 10 ^ g` reads back as `m * 2 ^ e`: it lies between the midpoints to the two
neighbours, which belong to the number if its mantissa is even. -/
def readsBack (m : Nat) (e : Int) (c : Nat) (g : Int) : Bool :=
  let strict := m % 2 = 1
  let low := if m = pow2 (precision - 1) && e > minExponent then 4 * m - 1 else 4 * m - 2
  below strict low (e - 2) c g && above strict (4 * m + 2) (e - 2) c g

/-- The number of decimal places before the point: the least `k` with the number below `10 ^ k`. -/
def places (m : Nat) (e : Int) : Int :=
  let (n, d) := fraction m e 0
  if n / d > 0 then (Nat.toDigits 10 (n / d)).length
  else -(((List.range 400).find? fun j => n * pow10 (j + 1) ≥ d).getD 0 : Nat)

/-- The candidate with `n` digits for a number below `10 ^ k`: the nearer of its two neighbours on
the grid of that many digits, if it reads back. -/
def candidate? (m : Nat) (e k : Int) (n : Nat) : Option (Nat × Int) :=
  let g := k - n
  let (p, q) := fraction m e (-g)
  let low := p / q
  let nearer := roundEven p q
  let other := if nearer = low then low + 1 else low
  if readsBack m e nearer g then some (nearer, g)
  else if readsBack m e other g then some (other, g)
  else none

/-- The shortest decimal `digits * 10 ^ power` that reads back as `m * 2 ^ e`. -/
def shortest (m : Nat) (e : Int) : Nat × Int :=
  let k := places m e
  ((List.range 17).findSome? fun n => candidate? m e k (n + 1)).getD (m, 0)

/-! ### Written form -/

/-- A decimal exponent: its sign and at least two digits. -/
def exponentText (x : Int) : List Char :=
  let digits := Nat.toDigits 10 x.natAbs
  (if x < 0 then '-' else '+') :: (List.replicate (2 - digits.length) '0' ++ digits)

/-- Digits with the point at `place` from their start. From `10 ^ -4` up to `10 ^ 16` a number is
written without an exponent and with at least one digit on each side of the point. -/
def layout (digits : List Char) (place : Int) : List Char :=
  if place > 16 || place < -3 then
    let tail := if digits.length ≤ 1 then [] else '.' :: digits.drop 1
    digits.take 1 ++ tail ++ 'e' :: exponentText (place - 1)
  else if place ≤ 0 then '0' :: '.' :: (List.replicate (-place).toNat '0' ++ digits)
  else
    let n := place.toNat
    let after := digits.drop n
    digits.take n ++ List.replicate (n - digits.length) '0' ++
      '.' :: (if after.isEmpty then ['0'] else after)

/-- Digits without the zeros at their end. -/
def trimZeros (digits : List Char) : List Char :=
  (digits.reverse.dropWhile (· = '0')).reverse

def text : Binary → List Char
  | .undefined => "nan".toList
  | .infinite negative => if negative then "-inf".toList else "inf".toList
  | .finite negative m e =>
    let body :=
      if m = 0 then "0.0".toList
      else
        let (c, g) := shortest m e
        let digits := Nat.toDigits 10 c
        layout (trimZeros digits) (digits.length + g)
    if negative then '-' :: body else body

end Binary

end Listfile
