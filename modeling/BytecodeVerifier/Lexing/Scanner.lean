/-!
# Scanners — how much of a text matches

A scanner looks at the start of a text and says how many items match, 0 meaning none.  The items are
characters unless another type is given; any will do whose items can be told apart and put in order.
`Scanner.run` is defined by recursion on the scanner.  A repetition goes on from where its last
match ended, and stops at the end of the text or where nothing matches.
-/

namespace BytecodeVerifier.Lexing

/-- What to look for. -/
inductive Scanner (α : Type := Char) where
  /-- Each of the scanners must match; the longest match counts. -/
  | all (scanners : List (Scanner α))
  /-- The first scanner which matches counts. -/
  | any (scanners : List (Scanner α))
  /-- The scanners must match one after the other, none of them at the end of the text. -/
  | sequence (scanners : List (Scanner α))
  /-- As `sequence`, but the last scanner need not match, nor need text be left for it. -/
  | sequenceOpen (scanners : List (Scanner α))
  /-- The scanner matches as often as it can. -/
  | many (scanner : Scanner α)
  /-- These items. -/
  | unit (items : List α)
  /-- These items, each at its place, over so many places. -/
  | spaced (items : List (Nat × α)) (length : Nat)
  /-- One item, but none of these. -/
  | except (items : List α)
  /-- One item between two others. -/
  | within (lowest highest : α)
  /-- All items up to the first of this kind. -/
  | upTo (item : α)
  /-- The end of the text, counted as one item. -/
  | eof
  deriving Repr, Inhabited

namespace Scanner

variable {α : Type}

/-! ### Repetition and spaced items -/

/-- How much matches when `f` is repeated. -/
def repeated (f : List α → Nat) (text : List α) : Nat :=
  if text = [] then 0
  else
    let n := f text
    if n = 0 then 0 else n + repeated f (text.drop n)
termination_by text.length
decreasing_by
  rename_i hne hn
  have : 0 < text.length := List.length_pos_iff.mpr hne
  simp only [List.length_drop]
  omega

variable [BEq α]

/-- The text has so many places, and each item at its place. -/
def matchesAt (items : List (Nat × α)) (length : Nat) (text : List α) : Bool :=
  (text.take length).length == length && items.all fun (i, a) => text[i]? == some a

/-! ### Running a scanner -/

variable [LE α] [DecidableLE α]

mutual

/-- How many items at the start of a text match. -/
def run : Scanner α → List α → Nat
  | all scanners, text => runAll scanners text
  | any scanners, text => runAny scanners text
  | sequence scanners, text => runSequence scanners text
  | sequenceOpen scanners, text => (runOpen scanners text).getD 0
  | many scanner, text => repeated scanner.run text
  | unit items, text => if items.isPrefixOf text then items.length else 0
  | spaced items length, text => if matchesAt items length text then length else 0
  | except items, text =>
    match text with
    | [] => 0
    | a :: _ => if items.contains a then 0 else 1
  | within lowest highest, text =>
    match text with
    | [] => 0
    | a :: _ => if lowest ≤ a ∧ a ≤ highest then 1 else 0
  | upTo item, text => (text.takeWhile (· != item)).length
  | eof, text => if text.isEmpty then 1 else 0

/-- The longest match, if every scanner matches. -/
def runAll : List (Scanner α) → List α → Nat
  | [], _ => 0
  | [s], text => s.run text
  | s :: t :: ss, text =>
    let n := s.run text
    let m := runAll (t :: ss) text
    if n = 0 ∨ m = 0 then 0 else max n m

/-- The first match. -/
def runAny : List (Scanner α) → List α → Nat
  | [], _ => 0
  | s :: ss, text =>
    let n := s.run text
    if n = 0 then runAny ss text else n

/-- The length of all matches together, one after the other. -/
def runSequence : List (Scanner α) → List α → Nat
  | [], _ => 0
  | [s], text => if text.isEmpty then 0 else s.run text
  | s :: t :: ss, text =>
    if text.isEmpty then 0
    else
      let n := s.run text
      let m := runSequence (t :: ss) (text.drop n)
      if n = 0 ∨ m = 0 then 0 else n + m

/-- The length of all matches together, the last of which may be empty and the others not. -/
def runOpen : List (Scanner α) → List α → Option Nat
  | [], _ => some 0
  | [s], text => some (if text.isEmpty then 0 else s.run text)
  | s :: t :: ss, text =>
    if text.isEmpty then none
    else
      let n := s.run text
      if n = 0 then none else (n + ·) <$> runOpen (t :: ss) (text.drop n)

end

/-! ### Words -/

/-- The places at which the characters of a word start, counted in bytes, each with the character
that its first byte is the number of. -/
def firstBytes (offset : Nat) : List Char → List (Nat × Char)
  | [] => []
  | c :: cs =>
    let first := (String.utf8EncodeChar c).headD 0
    (offset, Char.ofNat first.toNat) :: firstBytes (offset + c.utf8Size) cs

/-- The characters of a word, of which only the first byte counts, over as many places as they have
bytes. -/
def word (text : String) : Scanner := spaced (firstBytes 0 text.toList) text.utf8ByteSize

end Scanner

end BytecodeVerifier.Lexing
