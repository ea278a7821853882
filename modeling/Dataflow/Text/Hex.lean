/-!
# Hexadecimal digits

Digits in small letters, as they are written, and digits of either case, as they are read.
-/

namespace Dataflow

namespace Hex

/-- The digit for a number below sixteen. -/
def digit (n : Nat) : Char :=
  if n < 10 then Char.ofNat (n + 48) else Char.ofNat (n + 87)

/-- A byte as two digits, the higher one first. -/
def byte (n : Nat) : List Char :=
  [digit (n / 16), digit (n % 16)]

/-- The number that a digit stands for. -/
def value? (c : Char) : Option Nat :=
  if '0' ≤ c ∧ c ≤ '9' then some (c.toNat - 48)
  else if 'a' ≤ c ∧ c ≤ 'f' then some (c.toNat - 87)
  else if 'A' ≤ c ∧ c ≤ 'F' then some (c.toNat - 55)
  else none

/-- The number written by the first `n` characters, which all have to be digits, and the text after
them. -/
def read? (n : Nat) (cs : List Char) : Option (Nat × List Char) :=
  let digits := cs.take n
  if digits.length < n then none
  else do
    let values ← digits.mapM value?
    return (values.foldl (fun acc d ↦ 16 * acc + d) 0, cs.drop n)

end Hex

end Dataflow
