/-!
# Numerals — numbers as they are written

A numeral is decimal unless it starts with `0`: then `0b`, `0o` and `0x` give the base, and a plain
`0` makes it octal.  Underscores may stand between two digits, or between what gives the base and a
digit.  A numeral is read only if its number fits the given number of bits.
-/

namespace BytecodeVerifier.Numeral

/-- The worth of a digit, whatever the base. -/
def digit? (c : Char) : Option Nat :=
  if '0' ≤ c ∧ c ≤ '9' then some (c.toNat - '0'.toNat)
  else if 'a' ≤ c ∧ c ≤ 'z' then some (c.toNat - 'a'.toNat + 10)
  else if 'A' ≤ c ∧ c ≤ 'Z' then some (c.toNat - 'A'.toNat + 10)
  else none

/-- The number which digits spell in a base, after a number spelt so far. -/
def digits? (base : Nat) : Nat → List Char → Option Nat
  | n, [] => some n
  | n, c :: cs =>
    match digit? c with
    | some d => if d < base then digits? base (n * base + d) cs else none
    | none => none

/-- A decimal number below `2 ^ bits`: digits only, and at least one. -/
def decimal? (bits : Nat) (text : List Char) : Option Nat :=
  if text.isEmpty then none
  else (digits? 10 0 text).filter (· < Nat.pow 2 bits)

/-- The base of a numeral, and the digits after what gives it. -/
def base (text : List Char) : Nat × List Char :=
  match text with
  | '0' :: mark :: rest@(_ :: _) =>
    match mark.toLower with
    | 'b' => (2, rest)
    | 'o' => (8, rest)
    | 'x' => (16, rest)
    | _ => (8, mark :: rest)
  | '0' :: rest => (8, rest)
  | _ => (10, text)

/-- What has been seen when underscores are checked. -/
inductive Seen where
  | start
  | digit
  | underscore
  | other
  deriving DecidableEq, Repr, Inhabited

/-- Every underscore stands between two digits. -/
def separated (hex : Bool) : Seen → List Char → Bool
  | seen, [] => seen != .underscore
  | seen, c :: cs =>
    if ('0' ≤ c ∧ c ≤ '9') ∨ (hex ∧ 'a' ≤ c.toLower ∧ c.toLower ≤ 'f') then separated hex .digit cs
    else if c = '_' then seen == .digit && separated hex .underscore cs
    else seen != .underscore && separated hex .other cs

/-- Every underscore stands between two digits, or between what gives the base and a digit. -/
def underscoresFit (text : List Char) : Bool :=
  match text with
  | '0' :: mark :: rest =>
    if mark.toLower ∈ ['b', 'o', 'x'] then separated (mark.toLower == 'x') .digit rest
    else separated false .start text
  | _ => separated false .start text

/-- The number of a numeral, below `2 ^ bits`. -/
def natural? (bits : Nat) (text : List Char) : Option Nat :=
  if text.isEmpty then none
  else
    let (b, body) := base text
    match digits? b 0 (body.filter (· != '_')) with
    | none => none
    | some n =>
      if n < Nat.pow 2 bits ∧ (body.contains '_' → underscoresFit text) then some n else none

/-- The number of a numeral which may have a sign, between `-2⁶³` and `2⁶³ - 1`. -/
def signed? (text : List Char) : Option Int :=
  match text with
  | '-' :: magnitude => ((natural? 64 magnitude).filter (· ≤ Nat.pow 2 63)).map fun n => -(n : Int)
  | '+' :: magnitude => ((natural? 64 magnitude).filter (· < Nat.pow 2 63)).map fun n => (n : Int)
  | _ => ((natural? 64 text).filter (· < Nat.pow 2 63)).map fun n => (n : Int)

end BytecodeVerifier.Numeral
