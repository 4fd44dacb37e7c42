import BytecodeVerifier.Lexing.Lexer
import Mathlib.Data.List.Basic

/-!
# Scanning — runs of characters, and what a scanner may start with

Two facts tell what most scanners do.  A scanner which picks one character of a class (`Picks`)
takes a whole run of that class when it is repeated (`run_many`).  And a scanner matches nothing at
a character which does not open it (`run_eq_zero`), so that of many rules only those count which the
character at hand opens (`firstMatch?_eq_filter`).
-/

namespace BytecodeVerifier.Lexing

namespace Scanner

/-! ### Runs -/

/-- The scanner matches one character of a class, and nothing else. -/
def Picks (s : Scanner) (p : Char → Bool) : Prop :=
  ∀ text, s.run text = if text.head?.any p then 1 else 0

theorem Picks.congr {s : Scanner} {p q : Char → Bool} (h : s.Picks p) (hpq : ∀ c, p c ↔ q c) :
    s.Picks q := funext (fun c => Bool.eq_iff_iff.mpr (hpq c)) ▸ h

theorem picks_unit (c : Char) : (unit [c]).Picks (· == c) := by
  intro text
  cases text with
  | nil => rfl
  | cons d text => by_cases h : c = d <;> simp [run, h, eq_comm (a := d) (b := c)]

theorem picks_within (lowest highest : Char) :
    (within lowest highest).Picks fun c => lowest ≤ c ∧ c ≤ highest := by
  intro text
  cases text with
  | nil => rfl
  | cons c text => simp [run]

theorem picks_except (chars : List Char) : (except chars).Picks fun c => !chars.contains c := by
  intro text
  cases text with
  | nil => rfl
  | cons c text => simp [run]

theorem picks_any_nil : (any []).Picks fun _ => false := by
  intro text
  cases text <;> rfl

theorem picks_any_cons {s : Scanner} {ss : List Scanner} {p q : Char → Bool} (hs : s.Picks p)
    (hss : (any ss).Picks q) : (any (s :: ss)).Picks fun c => p c || q c := by
  intro text
  have hany : (any ss).run text = runAny ss text := by rw [run]
  rw [run, runAny, ← hany, hs text, hss text]
  cases text with
  | nil => rfl
  | cons c text => cases hp : p c <;> cases hq : q c <;> simp [hp, hq]

/-- What is left of a run after part of it. -/
theorem length_takeWhile_drop {p : Char → Bool} {text : List Char} {n : Nat}
    (h : n ≤ (text.takeWhile p).length) :
    n + ((text.drop n).takeWhile p).length = (text.takeWhile p).length := by
  induction n generalizing text with
  | zero => simp
  | succ n ih =>
      cases text with
      | nil => simp at h
      | cons c text =>
          cases hp : p c with
          | false => simp [hp] at h
          | true =>
              simp only [List.takeWhile_cons_of_pos hp, List.length_cons,
                List.drop_succ_cons] at h ⊢
              have := ih (Nat.le_of_succ_le_succ h)
              omega

/-- What matches part of a run, and something of every run, matches all of it when repeated. -/
theorem repeated_eq {f : List Char → Nat} {p : Char → Bool}
    (hle : ∀ text, f text ≤ (text.takeWhile p).length)
    (hpos : ∀ text, f text = 0 → text.takeWhile p = []) (text : List Char) :
    repeated f text = (text.takeWhile p).length := by
  induction hn : text.length using Nat.strongRecOn generalizing text with
  | ind n ih =>
      subst hn
      rw [repeated]
      split
      · next hnil => rw [hnil]; rfl
      · dsimp only
        split
        · next hzero => rw [hpos text hzero]; rfl
        · next hne hsome =>
            have hdrop : (text.drop (f text)).length < text.length := by
              have := List.length_pos_iff.mpr hne
              rw [List.length_drop]
              omega
            rw [ih _ hdrop _ rfl]
            exact length_takeWhile_drop (hle text)

theorem run_many {s : Scanner} {p : Char → Bool} (h : s.Picks p) (text : List Char) :
    (many s).run text = (text.takeWhile p).length := by
  rw [run]
  refine repeated_eq (fun text => ?_) (fun text => ?_) text
  · rw [h text]
    cases text with
    | nil => exact Nat.le_refl 0
    | cons c text => cases hp : p c <;> simp [hp]
  · rw [h text]
    cases text with
    | nil => exact fun _ => rfl
    | cons c text => cases hp : p c <;> simp [hp]

/-- Scanners which match one after the other match together. -/
theorem runSequence_cons {s t : Scanner} {ss : List Scanner} {cs text : List Char} {m : Nat}
    (hs : s.run (cs ++ text) = cs.length) (hcs : cs ≠ [])
    (ht : runSequence (t :: ss) text = m) (hm : m ≠ 0) :
    runSequence (s :: t :: ss) (cs ++ text) = cs.length + m := by
  have hlength : cs.length ≠ 0 := fun h => hcs (List.length_eq_zero_iff.mp h)
  have hempty : (cs ++ text).isEmpty = false := by simp [hcs]
  rw [runSequence, hempty, if_neg Bool.false_ne_true, hs]
  dsimp only
  rw [List.drop_left, ht]
  exact if_neg (not_or.mpr ⟨hlength, hm⟩)

/-! ### First characters -/

mutual

/-- The scanner may match a text which starts with the character. -/
def opens : Scanner → Char → Bool
  | all scanners, c => opensFirst scanners c
  | any scanners, c => opensAny scanners c
  | sequence scanners, c => opensFirst scanners c
  | sequenceOpen scanners, c => opensFirst scanners c
  | many scanner, c => scanner.opens c
  | unit chars, c => chars.head? == some c
  | spaced chars length, c => length != 0 && chars.all fun (i, d) => i != 0 || c == d
  | except chars, c => !chars.contains c
  | within lowest highest, c => lowest ≤ c ∧ c ≤ highest
  | upTo char, c => c != char
  | eof, _ => false

/-- The first of the scanners may match. -/
def opensFirst : List Scanner → Char → Bool
  | [], _ => false
  | s :: _, c => s.opens c

/-- One of the scanners may match. -/
def opensAny : List Scanner → Char → Bool
  | [], _ => false
  | s :: ss, c => s.opens c || opensAny ss c

end

theorem run_unit_eq_zero {chars : List Char} {c : Char} {text : List Char}
    (h : (chars.head? == some c) = false) : (unit chars).run (c :: text) = 0 := by
  rw [run]
  cases chars with
  | nil => rfl
  | cons d chars =>
      have hne : (d == c) = false := by simpa using h
      rw [List.isPrefixOf, hne, Bool.false_and, if_neg Bool.false_ne_true]

theorem run_spaced_eq_zero {chars : List (Nat × Char)} {length : Nat} {c : Char} {text : List Char}
    (h : (length != 0 && chars.all fun (i, d) => i != 0 || c == d) = false) :
    (spaced chars length).run (c :: text) = 0 := by
  rw [run]
  rcases Bool.and_eq_false_iff.mp h with hzero | hother
  · obtain rfl : length = 0 := by simpa using hzero
    exact ite_self 0
  · -- A character which must stand first is another one.
    obtain ⟨⟨i, d⟩, hmem, hd⟩ := List.all_eq_false.mp hother
    obtain ⟨rfl, hne⟩ : i = 0 ∧ c ≠ d := by simpa using hd
    have hmatches : matchesAt chars length (c :: text) = false := by
      refine Bool.and_eq_false_imp.mpr fun _ => List.all_eq_false.mpr ⟨(0, d), hmem, ?_⟩
      simpa using hne
    rw [hmatches, if_neg Bool.false_ne_true]

/-- A word matches nothing where a text lacks one of its characters. -/
theorem run_word_eq_zero {w : String} {text : List Char}
    (h : ((firstBytes 0 w.toList).all fun (i, c) => text[i]? == some c) = false) :
    (word w).run text = 0 := by
  rw [word, run, matchesAt, h, Bool.and_false, if_neg Bool.false_ne_true]

mutual

/-- **A scanner matches nothing at a character which does not open it.** -/
theorem run_eq_zero : ∀ (s : Scanner) {c : Char} {text : List Char}, s.opens c = false →
    s.run (c :: text) = 0
  | all scanners, c, text, h => by
      rw [opens] at h
      rw [run]
      exact runAll_eq_zero scanners h
  | any scanners, c, text, h => by
      rw [opens] at h
      rw [run]
      exact runAny_eq_zero scanners h
  | sequence scanners, c, text, h => by
      rw [opens] at h
      rw [run]
      exact runSequence_eq_zero scanners h
  | sequenceOpen scanners, c, text, h => by
      rw [opens] at h
      rw [run]
      exact runOpen_eq_zero scanners h
  | many scanner, c, text, h => by
      rw [opens] at h
      rw [run, repeated, if_neg (List.cons_ne_nil c text)]
      exact if_pos (run_eq_zero scanner h)
  | unit chars, c, text, h => by
      rw [opens] at h
      exact run_unit_eq_zero h
  | spaced chars length, c, text, h => by
      rw [opens] at h
      exact run_spaced_eq_zero h
  | except chars, c, text, h => by
      simpa [opens, run] using h
  | within lowest highest, c, text, h => by
      simpa [opens, run] using h
  | upTo char, c, text, h => by
      rw [opens] at h
      rw [run, List.takeWhile_cons_of_neg (by rw [h]; exact Bool.false_ne_true)]
      rfl
  | eof, c, text, h => rfl

theorem runAll_eq_zero : ∀ (ss : List Scanner) {c : Char} {text : List Char},
    opensFirst ss c = false → runAll ss (c :: text) = 0
  | [], _, _, _ => rfl
  | [s], c, text, h => run_eq_zero s h
  | s :: t :: ss, c, text, h => by
      rw [runAll]
      exact if_pos (.inl (run_eq_zero s h))

theorem runSequence_eq_zero : ∀ (ss : List Scanner) {c : Char} {text : List Char},
    opensFirst ss c = false → runSequence ss (c :: text) = 0
  | [], _, _, _ => rfl
  | [s], c, text, h => run_eq_zero s h
  | s :: t :: ss, c, text, h => by
      rw [runSequence, List.isEmpty_cons, if_neg Bool.false_ne_true]
      exact if_pos (.inl (run_eq_zero s h))

theorem runOpen_eq_zero : ∀ (ss : List Scanner) {c : Char} {text : List Char},
    opensFirst ss c = false → (runOpen ss (c :: text)).getD 0 = 0
  | [], _, _, _ => rfl
  | [s], c, text, h => run_eq_zero s h
  | s :: t :: ss, c, text, h => by
      rw [runOpen, List.isEmpty_cons, if_neg Bool.false_ne_true]
      dsimp only
      rw [if_pos (run_eq_zero s h)]
      rfl

theorem runAny_eq_zero : ∀ (ss : List Scanner) {c : Char} {text : List Char},
    opensAny ss c = false → runAny ss (c :: text) = 0
  | [], _, _, _ => rfl
  | s :: ss, c, text, h => by
      rw [opensAny, Bool.or_eq_false_iff] at h
      rw [runAny, if_pos (run_eq_zero s h.1)]
      exact runAny_eq_zero ss h.2

end

end Scanner

namespace Lexer

variable {κ : Type}

/-- Only the rules count which the character at hand opens. -/
theorem firstMatch?_eq_filter (c : Char) (text : List Char) (rules : List (Rule κ)) :
    firstMatch? (c :: text) rules =
      firstMatch? (c :: text) (rules.filter fun r => r.scanner.opens c) := by
  induction rules with
  | nil => rfl
  | cons r rs ih =>
      cases h : r.scanner.opens c with
      | false => rw [List.filter_cons, h, firstMatch?, Scanner.run_eq_zero _ h, ih]; simp
      | true => rw [List.filter_cons, h, if_pos rfl, firstMatch?, firstMatch?, ih]

end Lexer

end BytecodeVerifier.Lexing
