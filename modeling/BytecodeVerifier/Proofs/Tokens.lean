import BytecodeVerifier.Assembly.Token
import BytecodeVerifier.Proofs.Lexing

/-!
# Tokens — what lexing leaves of a source

A source which can be cut up to its end has the tokens of the cut but for blanks and comments, and
then the mark of the end (`tokens_of_cut`); any other source has a span which is no token.  The
tokens of a source are `Legible`: they stand one after the other, within the text, and **the last
one, and no token before the end of the text, marks the end** (`tokens_cases`).
-/

namespace BytecodeVerifier

/-- The span lies within the first `n` characters. -/
def Source.Span.Within (s : Source.Span) (n : Nat) : Prop :=
  0 ≤ s.start ∧ s.start ≤ s.stop ∧ s.stop ≤ n

theorem Source.Span.within_of_le {start stop n : Nat} (h₁ : start ≤ stop) (h₂ : stop ≤ n) :
    Source.Span.Within ⟨start, stop⟩ n := by
  simp only [Source.Span.Within]
  omega

namespace Assembly

open Lexing

/-! ### Order -/

/-- Tokens one after the other, from a position on and within `n` characters, of which only the mark
of the end may be empty, and the last one is that mark. -/
structure Legible (n i : Nat) (ts : List Token) : Prop where
  ordered : ts.Pairwise fun t u => t.stop ≤ u.start
  bounds : ∀ t ∈ ts, i ≤ t.start ∧ t.start ≤ t.stop ∧ t.stop ≤ n
  filled : ∀ t ∈ ts, t.kind ≠ .endOfText → t.start < t.stop
  ends : ∃ t, ts.getLast? = some t ∧ t.kind = .endOfText

namespace Legible

variable {n i j : Nat} {t : Token} {ts : List Token}

theorem ne_nil (h : Legible n i ts) : ts ≠ [] := by
  rintro rfl
  obtain ⟨_, hlast, _⟩ := h.ends
  cases hlast

theorem le (h : Legible n i ts) : i ≤ n := by
  obtain ⟨t, ts', rfl⟩ := List.exists_cons_of_ne_nil h.ne_nil
  have := h.bounds t List.mem_cons_self
  omega

theorem mono (h : Legible n j ts) (hij : i ≤ j) : Legible n i ts where
  ordered := h.ordered
  bounds t ht := ⟨Nat.le_trans hij (h.bounds t ht).1, (h.bounds t ht).2⟩
  filled := h.filled
  ends := h.ends

/-- After a token which is not the mark of the end there are more. -/
theorem tail (h : Legible n i (t :: ts)) (ht : t.kind ≠ .endOfText) : Legible n t.stop ts where
  ordered := (List.pairwise_cons.mp h.ordered).2
  bounds u hu := ⟨(List.pairwise_cons.mp h.ordered).1 u hu, (h.bounds u (.tail t hu)).2⟩
  filled u hu := h.filled u (.tail t hu)
  ends := by
    obtain ⟨u, hlast, hu⟩ := h.ends
    cases ts with
    | nil => cases hlast; exact absurd hu ht
    | cons v vs => exact ⟨u, by rwa [List.getLast?_cons_cons] at hlast, hu⟩

theorem within (h : Legible n i (t :: ts)) : t.span.Within n :=
  have hb := h.bounds t List.mem_cons_self
  Source.Span.within_of_le hb.2.1 hb.2.2

end Legible

/-! ### From a cut to tokens -/

/-- Only the end of a text matches the empty text. -/
theorem firstMatch?_nil : Lexer.firstMatch? [] rules = some (.endOfText, 1) := by
  decide +kernel

/-- Tokens of the kind are kept: they are neither blanks nor comments. -/
def TokenKind.isKept (kind : TokenKind) : Bool :=
  !([.whitespace, .comment] : List TokenKind).contains kind

/-- A token with its text. -/
def withText (f : Source) (t : Lexing.Token TokenKind) : Token :=
  ⟨t.kind, t.start, t.stop, String.ofList (f.slice t.start t.stop)⟩

/-- **A source which is cut up to its end has the tokens of the cut, and the mark of the end.** -/
theorem tokens_of_cut {f : Source} {ts : List (Lexing.Token TokenKind)}
    (h : Cut rules f.contents.toList 0 ts f.length) :
    tokens f = .ok ((ts.filter (·.kind.isKept)).map (withText f) ++
      [⟨.endOfText, f.length, f.length, ""⟩]) := by
  have hlength : f.contents.toList.length = f.length := Array.length_toList
  have hcollect := h.collect
  rw [← hlength, Lexer.collect_end firstMatch?_nil, ← Lexer.new_eq_placed, hlength] at hcollect
  unfold tokens
  rw [Lexer.collect_eq_filter, hcollect]
  have hnone : (Lexer.placed rules f.contents.toList (f.length + 1)).remaining = 0 := by
    simp only [Lexer.remaining, Lexer.placed, hlength]
    omega
  have hmark : withText f ⟨.endOfText, f.length, f.length⟩ =
      ⟨.endOfText, f.length, f.length, ""⟩ := by
    simp [withText, Source.slice, Source.length]
  simp only [if_pos hnone, List.filter_append, List.map_append]
  rw [← hmark]
  rfl

theorem legible_of_cut {f : Source} {ts : List (Lexing.Token TokenKind)}
    (h : Cut rules f.contents.toList 0 ts f.length) :
    Legible f.length 0 ((ts.filter (·.kind.isKept)).map (withText f) ++
      [⟨.endOfText, f.length, f.length, ""⟩]) where
  ordered := by
    rw [List.pairwise_append, List.pairwise_map]
    refine ⟨h.pairwise.filter _, List.pairwise_singleton _ _, ?_⟩
    simp only [List.mem_map, List.mem_filter, List.mem_singleton]
    rintro _ ⟨t, ⟨ht, -⟩, rfl⟩ _ rfl
    exact (h.bounds t ht).2.2
  bounds := by
    simp only [List.mem_append, List.mem_map, List.mem_filter, List.mem_singleton]
    rintro _ (⟨t, ⟨ht, -⟩, rfl⟩ | rfl)
    · have := h.bounds t ht
      exact ⟨this.1, Nat.le_of_lt this.2.1, this.2.2⟩
    · exact ⟨Nat.zero_le _, Nat.le_refl _, Nat.le_refl _⟩
  filled := by
    simp only [List.mem_append, List.mem_map, List.mem_filter, List.mem_singleton]
    rintro _ (⟨t, ⟨ht, -⟩, rfl⟩ | rfl) hk
    · exact (h.bounds t ht).2.1
    · exact absurd rfl hk
  ends := ⟨_, List.getLast?_concat, rfl⟩

/-- Lexing gives tokens in order, the last of which marks the end, or a span which is no token. -/
theorem tokens_cases (f : Source) :
    (∃ ts, tokens f = .ok ts ∧ Legible f.length 0 ts) ∨
      ∃ span, tokens f = .error span ∧ span.Within f.length := by
  obtain ⟨ts, k, hcut, hk, hcollect⟩ := Lexer.collect_cases rules f.contents.toList
  have hlength : f.contents.toList.length = f.length := Array.length_toList
  rcases hcollect with ⟨hm, hcollect⟩ | ⟨rfl, -⟩
  · have hlt : k < f.length := by
      refine Nat.lt_of_le_of_ne (hlength ▸ hk) fun hend => ?_
      rw [hend, ← hlength, List.drop_length, firstMatch?_nil] at hm
      cases hm
    refine .inr ⟨⟨k, k + (f.length - k : Nat)⟩, ?_, ?_⟩
    · unfold tokens
      rw [Lexer.collect_eq_filter, hcollect]
      have hsome : (Lexer.placed rules f.contents.toList k).remaining = f.length - k := by
        simp only [Lexer.remaining, Lexer.placed, hlength]
      simp only [hsome]
      rw [if_neg (by omega)]
      rfl
    · simp only [Source.Span.Within]
      omega
  · rw [hlength] at hcut
    exact .inl ⟨_, tokens_of_cut hcut, legible_of_cut hcut⟩

end Assembly

end BytecodeVerifier
