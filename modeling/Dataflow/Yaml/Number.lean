import Dataflow.Text.Hex

/-!
# Numbers in plain scalars

Which plain scalars are integers, and which are other numbers. An integer is written in decimal
digits without leading zeros, or in hexadecimal, octal or binary digits after `0x`, `0o` or `0b`,
and with a sign before it if it needs one. Its range is set by the reader.

Of other numbers only the form matters, and that they are finite as binary64.
-/

namespace Dataflow

namespace Yaml

/-- The value of digits to a base; there has to be at least one. -/
def digits? (base : Nat) (cs : List Char) : Option Nat :=
  if cs.isEmpty then none
  else
    cs.foldlM
      (fun n c ↦ do
        let d ← Hex.value? c
        if d < base then return base * n + d else none)
      0

/-- The base that is written before the digits, and the digits. -/
def baseOf : List Char → Nat × List Char
  | '0' :: 'x' :: rest => (16, rest)
  | '0' :: 'o' :: rest => (8, rest)
  | '0' :: 'b' :: rest => (2, rest)
  | cs => (10, cs)

/-- Whether decimal digits start with a zero that should not be there. -/
def hasLeadingZero (cs : List Char) : Bool :=
  match cs with
  | '0' :: rest => !rest.isEmpty && rest.all Char.isDigit
  | _ => false

/-- The number that digits without a sign stand for. -/
def magnitude? (cs : List Char) : Option Nat :=
  if hasLeadingZero cs then none
  else
    let (base, digits) := baseOf cs
    digits? base digits

/-- The natural number below `limit` that a text stands for. -/
def natural? (limit : Nat) (text : String) : Option Nat :=
  let cs := match text.toList with
    | '+' :: rest => rest
    | cs => cs
  (magnitude? cs).filter (· < limit)

/-- The number that a text with a minus sign stands for, without the sign; at most `limit`. -/
def opposite? (limit : Nat) (text : String) : Option Nat :=
  match text.toList with
  | '-' :: rest => (magnitude? rest).filter (· ≤ limit)
  | _ => none

/-! ### Other numbers -/

/-- A row of decimal digits with at most one point in it, and what follows: the digits, and how many
of them stand after the point. -/
def readMantissa (cs : List Char) : List Char × Nat × List Char :=
  let (whole, rest) := cs.span Char.isDigit
  match rest with
  | '.' :: rest =>
    let (fraction, rest) := rest.span Char.isDigit
    (whole ++ fraction, fraction.length, rest)
  | _ => (whole, 0, rest)

/-- An exponent that makes up all that is left; zero if nothing is left. -/
def exponent? : List Char → Option Int
  | [] => some 0
  | e :: rest =>
    if e = 'e' || e = 'E' then
      match rest with
      | '-' :: ds => (digits? 10 ds).map fun n ↦ -(n : Int)
      | '+' :: ds => (digits? 10 ds).map fun n ↦ (n : Int)
      | ds => (digits? 10 ds).map fun n ↦ (n : Int)
    else none

/-- Whether `n` times ten to the power `e` rounds to a finite binary64 number. Only for numbers with
309 digits before the point is there anything to compute. -/
def isFinite (n : Nat) (e : Int) : Bool :=
  let bound := (1 <<< 1024) - (1 <<< 970)
  let size := ((toString n).length : Int) + e
  if n = 0 || size < 309 then true
  else if 309 < size then false
  else if e < 0 then n < bound * Nat.pow 10 e.natAbs
  else n * Nat.pow 10 e.natAbs < bound

/-- Whether a text without a sign is a finite decimal number. -/
def isDecimal (cs : List Char) : Bool :=
  let (digits, places, rest) := readMantissa cs
  match digits? 10 digits, exponent? rest with
  | some n, some e => isFinite n (e - places)
  | _, _ => false

/-- Whether a plain scalar that is no integer is a number all the same. -/
def isOtherNumber (text : String) : Bool :=
  let unsigned := match text.toList with
    | '+' :: rest | '-' :: rest => rest
    | cs => cs
  if hasLeadingZero unsigned then false
  else
    isDecimal unsigned || [".inf", ".Inf", ".INF"].contains (String.ofList unsigned) ||
      [".nan", ".NaN", ".NAN"].contains text

end Yaml

end Dataflow
