import BytecodeVerifier.Binary64

/-!
# Durations — lengths of time as they are written

A duration is an optional sign and then `0`, or a sequence of decimal numbers, each with a unit,
such as `1h15m` or `1.5s`.  It is read as a number of nanoseconds.  Each part, and each sum of the
first parts, may be `2⁶³` at most; sums are taken modulo `2⁶⁴`.  The decimals of a number are turned
into nanoseconds in binary64.
-/

namespace BytecodeVerifier.Command.Duration

/-- The largest magnitude of a duration, which only a negative one may have: `2⁶³`. -/
def limit : Nat := 9223372036854775808

/-- The number of nanoseconds in a unit. -/
def unit? (name : String) : Option Nat :=
  match name with
  | "ns" => some 1
  | "us" | "µs" | "μs" => some 1000
  | "ms" => some 1000000
  | "s" => some 1000000000
  | "m" => some 60000000000
  | "h" => some 3600000000000
  | _ => none

/-- The number which decimal digits spell. -/
def ofDigits (digits : List Char) : Nat :=
  digits.foldl (fun n c => n * 10 + (c.toNat - '0'.toNat)) 0

/-- The decimals at the start of a text, if there is a point, and the text after them. -/
def decimals (text : List Char) : List Char × List Char :=
  match text with
  | '.' :: rest => (rest.takeWhile Char.isDigit, rest.dropWhile Char.isDigit)
  | _ => ([], text)

/-- The number `n` followed by the digits of decimals, as long as it does not exceed the limit, and
what it is to be divided by: a power of ten, in binary64. -/
def leading (n : Nat) (scale : Fraction) : List Char → Nat × Fraction
  | [] => (n, scale)
  | c :: cs =>
    let m := n * 10 + (c.toNat - '0'.toNat)
    if limit < m then (n, scale) else leading m (scale.mul (.ofNat 10)).rounded cs

/-- The whole nanoseconds which the decimals of a number of units come to. -/
def nanoseconds (unit : Nat) (digits : List Char) : Nat :=
  let (n, scale) := leading 0 (.ofNat 1) digits
  let share := ((Fraction.ofNat unit).div scale).rounded
  ((Fraction.ofNat n).rounded.mul share).rounded.whole

/-- The characters which may stand in a unit. -/
def isUnitChar (c : Char) : Bool := c != '.' && !c.isDigit

/-- The first number with its unit, in nanoseconds, and the text after it. -/
def part? (text : List Char) : Option (Nat × List Char) :=
  let whole := text.takeWhile Char.isDigit
  let (digits, rest) := decimals (text.dropWhile Char.isDigit)
  if whole.isEmpty && digits.isEmpty then none
  else
    match unit? (String.ofList (rest.takeWhile isUnitChar)) with
    | none => none
    | some unit =>
      let length := ofDigits whole * unit + nanoseconds unit digits
      if length ≤ limit then some (length, rest.dropWhile isUnitChar) else none

/-- The sum of all parts; there are no more of them than `fuel`. -/
def parts? : Nat → Nat → List Char → Option Nat
  | _, total, [] => some total
  | 0, _, _ :: _ => none
  | fuel + 1, total, text =>
    match part? text with
    | some (n, rest) =>
      let sum := (total + n) % (2 * limit)
      if sum ≤ limit then parts? fuel sum rest else none
    | none => none

/-- The nanoseconds of a duration without a sign. -/
def magnitude? (text : List Char) : Option Nat :=
  if text = ['0'] then some 0
  else if text.isEmpty then none
  else parts? text.length 0 text

/-- The nanoseconds of a duration. -/
def parse? (text : String) : Option Int :=
  match text.toList with
  | '-' :: rest => (magnitude? rest).map fun n => -(n : Int)
  | '+' :: rest => ((magnitude? rest).filter (· < limit)).map fun n => (n : Int)
  | rest => ((magnitude? rest).filter (· < limit)).map fun n => (n : Int)

end BytecodeVerifier.Command.Duration
