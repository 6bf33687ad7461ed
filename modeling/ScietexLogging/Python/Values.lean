import ScietexLogging.Python.Numerals

/-!
# Python — values

The values a log record can carry, as far as `json` looks at them, and the texts of
numbers. A finite float is given by the shortest decimal that reads back as it.
-/

namespace Python

/-- `0.d₁d₂... * 10 ^ point`; zero is the digit 0 and the point behind it. -/
structure Shortest where
  negative : Bool
  first : Fin 10
  rest : List (Fin 10)
  point : Int
  normal : first = 0 → rest = [] ∧ point = 1
  deriving DecidableEq

inductive PyFloat where
  | finite (d : Shortest)
  | infinite (negative : Bool)
  | nan
  deriving DecidableEq

/-- A key of a dictionary; `other` are the hashable objects `json` takes for none. -/
inductive Key where
  | none
  | bool (b : Bool)
  | int (n : Int)
  | float (x : PyFloat)
  | str (s : Str)
  | other (repr : Str)
  deriving DecidableEq

/-- A value; any other object is what its `repr` is. -/
inductive Value where
  | none
  | bool (b : Bool)
  | int (n : Int)
  | float (x : PyFloat)
  | str (s : Str)
  | list (xs : List Value)
  | tuple (xs : List Value)
  | dict (items : List (Key × Value))
  | object (repr : Str)

-- ---------------------------------------------------------------------------
-- repr
-- ---------------------------------------------------------------------------

def digit (d : Fin 10) : Char := Nat.digitChar d

/-- At least two digits. -/
def exponentRepr (e : Int) : Str :=
  let digits := Nat.toDigits 10 e.natAbs
  (if e < 0 then '-' else '+') :: (List.replicate (2 - digits.length) '0' ++ digits)

/-- The digits with the point put in, or with an exponent where it is far off. -/
def Shortest.unsigned (d : Shortest) : Str :=
  let digits := (d.first :: d.rest).map digit
  if d.point ≤ -4 ∨ 16 < d.point then
    digit d.first :: ((if d.rest = [] then [] else '.' :: d.rest.map digit) ++
      'e' :: exponentRepr (d.point - 1))
  else if d.point ≤ 0 then
    '0' :: '.' :: (List.replicate d.point.natAbs '0' ++ digits)
  else
    let whole := digits.take d.point.toNat
    let part := digits.drop d.point.toNat
    whole ++ List.replicate (d.point.toNat - digits.length) '0' ++
      '.' :: (if part = [] then ['0'] else part)

/-- `float.__repr__`, of a finite float -/
def Shortest.repr (d : Shortest) : Str := if d.negative then '-' :: d.unsigned else d.unsigned

end Python
