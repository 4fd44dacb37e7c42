import BytecodeVerifier.Fault

/-!
# Spans — intervals of a source text

A span runs from one position up to, and not including, another.  Positions count characters from 0;
a span may lie anywhere, even outside the text, but never ends before it starts.  Its extent is the
distance between the two; its length is that distance as a 64-bit number, which wraps where a span
reaches over half of all positions (`toInt_length`).
-/

namespace BytecodeVerifier.Source

/-- An interval of positions. -/
structure Span where
  start : Int
  stop : Int
  deriving DecidableEq, Repr, Inhabited

namespace Span

/-- The span between two positions, the first of which must not lie beyond the second. -/
def new (start stop : Int) : Except Fault Span :=
  if start ≤ stop then .ok ⟨start, stop⟩ else .error .invalidSpan

/-- How far a span reaches. -/
def extent (s : Span) : Int := s.stop - s.start

/-- The number of positions, counted in 64 bits. -/
def length (s : Span) : Int64 := .ofInt s.extent

/-- The least span which covers two. -/
def union (s t : Span) : Span := ⟨min s.start t.start, max s.stop t.stop⟩

/-- A span which reaches over less than half of all positions is as long as it reaches. -/
theorem toInt_length {s : Span} (h₁ : Int64.minValue.toInt ≤ s.extent)
    (h₂ : s.extent ≤ Int64.maxValue.toInt) : s.length.toInt = s.extent :=
  Int64.toInt_ofInt_of_le h₁ (Int.lt_add_one_of_le h₂)

end Span

end BytecodeVerifier.Source
