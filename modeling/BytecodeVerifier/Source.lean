import BytecodeVerifier.Source.Buffer
import BytecodeVerifier.Source.Encoding
import BytecodeVerifier.Source.Span

/-!
# Sources — named texts, their lines, and what is said about them

A source is a text with a name.  The line enclosing a span is the one which holds its first
position; a span which starts outside the text belongs to the last line.  A diagnostic is a message
about a span, and is shown under a copy of that line.
-/

namespace BytecodeVerifier

/-- A text with a name. -/
structure Source where
  name : String
  contents : Array Char
  deriving DecidableEq, Repr, Inhabited

namespace Source

/-- The source with the given bytes. -/
def ofBytes (name : String) (bytes : List UInt8) : Source := ⟨name, (decode bytes).toArray⟩

/-- The number of characters. -/
def length (f : Source) : Nat := f.contents.size

/-- The characters from one position up to, and not including, another. -/
def slice (f : Source) (start stop : Nat) : List Char := (f.contents.extract start stop).toList

/-- The text of a span.  It may reach into the rest of the text's buffer, which holds zeros. -/
def text (f : Source) (s : Span) : Except Fault String :=
  if 0 ≤ s.start ∧ s.start ≤ s.stop ∧ s.stop ≤ Buffer.capacity f.length then
    let chars := f.slice s.start.toNat s.stop.toNat
    .ok (String.ofList (chars ++ List.replicate (s.extent.toNat - chars.length) (Char.ofNat 0)))
  else .error .outOfBounds

/-! ### Lines -/

/-- A line of a source: its number, counting from 1, and the positions between which it lies. -/
structure Line where
  number : Nat
  start : Nat
  stop : Nat
  text : List Char
  deriving DecidableEq, Repr, Inhabited

/-- The number of characters of a line. -/
def Line.length (l : Line) : Nat := l.stop - l.start

/-- The line of a source between two positions. -/
def lineBetween (f : Source) (number start stop : Nat) : Line :=
  ⟨number, start, stop, f.slice start stop⟩

/-- Where the line at hand stops, if the given characters are left of the text from position `i` on:
at the first newline among them, or at the end. -/
def endOfLine (i : Nat) : List Char → Nat
  | [] => i
  | c :: cs => if c = '\n' then i else endOfLine (i + 1) cs

/-- Looks for a position, with the given characters left of the text from position `i` on.  The line
at hand has the given number and start.  If the position is not found, the last line is. -/
def findLine (f : Source) (position : Int) (number start i : Nat) : List Char → Line
  | [] => f.lineBetween number start i
  | c :: cs =>
    if i = position then f.lineBetween number start (endOfLine i (c :: cs))
    else if c = '\n' then f.findLine position (number + 1) (i + 1) (i + 1) cs
    else f.findLine position number start (i + 1) cs

/-- The line which holds the start of a span, or the last one if there is none. -/
def enclosingLine (f : Source) (s : Span) : Line := f.findLine s.start 1 0 0 f.contents.toList

end Source

/-! ### Diagnostics -/

/-- A message about a span of a source. -/
structure Diagnostic where
  source : Source
  span : Source.Span
  message : String
  deriving DecidableEq, Repr, Inhabited

namespace Diagnostic

/-- The line a diagnostic is about. -/
def line (d : Diagnostic) : Source.Line := d.source.enclosingLine d.span

/-- How a diagnostic is written on one line. -/
def text (d : Diagnostic) : String := s!"{d.source.name}:{d.line.number}: {d.message}"

/-- How far into its line the span starts. -/
def offset (d : Diagnostic) : Int := d.span.start - d.line.start

/-- How many characters of the line are marked: those of the span, and at least one. -/
def markLength (d : Diagnostic) : Int :=
  max 1 (min (d.line.length - d.offset) d.span.extent)

/-- On a text whose length is a 64-bit number the mark is as long if the span is counted in 64 bits,
since no span of the text wraps. -/
theorem markLength_eq {d : Diagnostic} (hstart : 0 ≤ d.span.start)
    (hspan : d.span.start ≤ d.span.stop) (hstop : d.span.stop ≤ d.source.length)
    (hlength : d.source.length ≤ Int64.maxValue.toInt) :
    d.markLength = max 1 (min (d.line.length - d.offset) d.span.length.toInt) := by
  have hmin : Int64.minValue.toInt ≤ 0 := by decide
  have h₁ : Int64.minValue.toInt ≤ d.span.extent := by
    unfold Source.Span.extent
    omega
  have h₂ : d.span.extent ≤ Int64.maxValue.toInt := by
    unfold Source.Span.extent
    omega
  rw [markLength, Source.Span.toInt_length h₁ h₂]

/-- What stands before the mark: a blank for each character of the line, and a tab for a tab. -/
def indent (line : List Char) (n : Int) : List Char :=
  (line.take n.toNat).map fun c => if c = '\t' then '\t' else ' '

/-- How a diagnostic is shown: the message, the line, and a mark under the span. -/
def render (d : Diagnostic) : String :=
  let offset := d.offset
  let mark := d.markLength
  s!"{d.source.name}:{d.line.number}:{1 + offset}-{1 + offset + mark} {d.message}\n" ++
    "\n" ++
    String.ofList d.line.text ++ "\n" ++
    String.ofList (indent d.line.text offset ++ List.replicate mark.toNat '^') ++ "\n"

end Diagnostic

end BytecodeVerifier
