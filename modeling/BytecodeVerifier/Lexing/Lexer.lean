import BytecodeVerifier.Fault
import BytecodeVerifier.Lexing.Scanner

/-!
# Lexers — a text cut into tokens

A lexer holds the rules, its position and what is left of the text.  The first rule whose scanner
matches there gives the next token.  A token at the end of the text is empty and can be had only
once, for the position then moves beyond the end.  A token must be looked for before it is taken.
-/

namespace BytecodeVerifier.Lexing

/-- A scanner, and the kind of token it finds. -/
structure Rule (κ : Type) (α : Type := Char) where
  scanner : Scanner α
  kind : κ
  deriving Repr, Inhabited

/-- A token, from one position up to, and not including, another. -/
structure Token (κ : Type) where
  kind : κ
  start : Nat
  stop : Nat
  deriving DecidableEq, Repr, Inhabited

/-- The progress through a text. -/
structure Lexer (κ : Type) (α : Type := Char) where
  rules : List (Rule κ α)
  /-- The number of items of the text. -/
  length : Nat
  /-- The position, one beyond `length` once the end has been taken. -/
  index : Nat
  /-- The text from the position on. -/
  rest : List α
  /-- A token has been looked for and found here. -/
  found : Bool
  deriving Repr, Inhabited

namespace Lexer

variable {κ α : Type}

/-- The lexer at the start of a text. -/
def new (rules : List (Rule κ α)) (text : List α) : Lexer κ α :=
  ⟨rules, text.length, 0, text, false⟩

/-- The number of items left. -/
def remaining (l : Lexer κ α) : Nat := l.length - l.index

/-- The lexer after a token. -/
def advance (l : Lexer κ α) (t : Token κ) : Lexer κ α :=
  let index := if l.index = l.length then l.index + 1 else t.stop
  { l with index, rest := l.rest.drop (index - l.index), found := false }

variable [BEq α] [LE α] [DecidableLE α]

/-- The first rule which matches, and how much. -/
def firstMatch? (text : List α) : List (Rule κ α) → Option (κ × Nat)
  | [] => none
  | r :: rs =>
    let n := r.scanner.run text
    if n = 0 then firstMatch? text rs else some (r.kind, n)

/-- The token at the position. -/
def token? (l : Lexer κ α) : Option (Token κ) :=
  if l.index ≤ l.length then
    (firstMatch? l.rest l.rules).map fun (kind, n) => ⟨kind, l.index, min l.length (l.index + n)⟩
  else none

/-- Looks for a token. -/
def hasNext (l : Lexer κ α) : Bool × Lexer κ α :=
  let found := l.found || l.token?.isSome
  (found, { l with found })

/-- Takes the token which has been found. -/
def next (l : Lexer κ α) : Except Fault (Token κ × Lexer κ α) :=
  if l.found then
    match l.token? with
    | some t => .ok (t, l.advance t)
    | none => .error .outOfBounds
  else .error .outOfBounds

theorem firstMatch?_pos {text : List α} {rules : List (Rule κ α)} {kind : κ} {n : Nat}
    (h : firstMatch? text rules = some (kind, n)) : 0 < n := by
  induction rules with
  | nil => cases h
  | cons r rs ih =>
      simp only [firstMatch?] at h
      split at h
      · exact ih h
      · next hn => cases h; exact Nat.pos_of_ne_zero hn

/-- A token moves the position on. -/
theorem index_lt_advance {l : Lexer κ α} {t : Token κ} (h : l.token? = some t) :
    l.index ≤ l.length ∧ l.index < (l.advance t).index := by
  unfold token? at h
  split at h
  · next hle =>
      obtain ⟨⟨kind, n⟩, hm, ht⟩ := Option.map_eq_some_iff.mp h
      have hn := firstMatch?_pos hm
      refine ⟨hle, ?_⟩
      simp only [advance]
      split
      · exact Nat.lt_succ_self _
      · next hne => subst ht; simp only []; omega
  · cases h

/-- The tokens from the position on, but for those of ignored kinds, and the lexer after them. -/
def collect [BEq κ] (l : Lexer κ α) (ignored : List κ) : List (Token κ) × Lexer κ α :=
  match _h : l.token? with
  | none => ([], { l with found := false })
  | some t =>
    let rest := (l.advance t).collect ignored
    (if ignored.contains t.kind then rest.1 else t :: rest.1, rest.2)
termination_by l.length + 1 - l.index
decreasing_by
  have hlt := index_lt_advance ‹_›
  have he : (l.advance t).length = l.length := rfl
  omega

end Lexer

end BytecodeVerifier.Lexing
