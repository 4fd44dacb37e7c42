import BytecodeVerifier.Proofs.Lexing
import BytecodeVerifier.Proofs.Tiles

/-!
# Collecting — the tokens of a text tile what was read of it

A scanner says how much matches, and nothing in its form keeps that from being more than there is.
**Where there is text, no scanner matches more than all of it** (`run_le`): this goes through every
way in which scanners are put together, since a scanner in a sequence or a repetition is never run
on an empty rest.  On the empty text a scanner may still match one item, the end.

Hence the tokens of a cut are as long as their rules say (`Cut.exact`) and lie end to end
(`Cut.tiles`), and so do the tokens which are collected from a text (`collect_tiles`).  They are the
tokens had by looking for a token and taking it, as long as there is one (`Drains`).
-/

namespace BytecodeVerifier.Lexing

variable {κ α : Type}

namespace Scanner

/-! ### How much a scanner matches -/

/-- A repetition of matches none of which is longer than the text is not longer than it either. -/
theorem repeated_le {f : List α → Nat} (hf : ∀ text, text ≠ [] → f text ≤ text.length)
    (text : List α) : repeated f text ≤ text.length := by
  fun_induction repeated f text with
  | case1 => exact Nat.zero_le _
  | case2 => exact Nat.zero_le _
  | case3 text hne n hn ih =>
      have hle : n ≤ text.length := hf text hne
      rw [List.length_drop] at ih
      omega

variable [BEq α]

theorem isPrefixOf_length : ∀ {items text : List α}, items.isPrefixOf text = true →
    items.length ≤ text.length
  | [], _, _ => Nat.zero_le _
  | _ :: _, _ :: _, h =>
      Nat.succ_le_succ (isPrefixOf_length (Bool.and_eq_true_iff.mp h).2)

theorem matchesAt_length {items : List (Nat × α)} {length : Nat} {text : List α}
    (h : matchesAt items length text = true) : length ≤ text.length := by
  have htake := beq_iff_eq.mp (Bool.and_eq_true_iff.mp h).1
  rw [List.length_take] at htake
  omega

variable [LE α] [DecidableLE α]

mutual

/-- **Where there is text, no scanner matches more than all of it.** -/
theorem run_le : ∀ (s : Scanner α) {text : List α}, text ≠ [] → s.run text ≤ text.length
  | all scanners, text, h => by
      rw [run]
      exact runAll_le scanners h
  | any scanners, text, h => by
      rw [run]
      exact runAny_le scanners h
  | sequence scanners, text, h => by
      rw [run]
      exact runSequence_le scanners text
  | sequenceOpen scanners, text, h => by
      rw [run]
      exact runOpen_le scanners text
  | many scanner, text, h => by
      rw [run]
      exact repeated_le (fun text h => run_le scanner h) text
  | unit items, text, h => by
      rw [run]
      split
      · next hmatch => exact isPrefixOf_length hmatch
      · exact Nat.zero_le _
  | spaced items length, text, h => by
      rw [run]
      split
      · next hmatch => exact matchesAt_length hmatch
      · exact Nat.zero_le _
  | except items, a :: text, h => by
      rw [run]
      split <;> simp
  | within lowest highest, a :: text, h => by
      rw [run]
      split <;> simp
  | upTo item, text, h => by
      rw [run]
      exact (List.takeWhile_sublist _).length_le
  | eof, a :: text, h => Nat.zero_le _

theorem runAll_le : ∀ (ss : List (Scanner α)) {text : List α}, text ≠ [] →
    runAll ss text ≤ text.length
  | [], _, _ => Nat.zero_le _
  | [s], text, h => run_le s h
  | s :: t :: ss, text, h => by
      have hs := run_le s h
      have hss := runAll_le (t :: ss) h
      rw [runAll]
      split
      · exact Nat.zero_le _
      · exact Nat.max_le.mpr ⟨hs, hss⟩

theorem runAny_le : ∀ (ss : List (Scanner α)) {text : List α}, text ≠ [] →
    runAny ss text ≤ text.length
  | [], _, _ => Nat.zero_le _
  | s :: ss, text, h => by
      rw [runAny]
      split
      · exact runAny_le ss h
      · exact run_le s h

theorem runSequence_le : ∀ (ss : List (Scanner α)) (text : List α),
    runSequence ss text ≤ text.length
  | [], _ => Nat.zero_le _
  | [s], [] => Nat.zero_le _
  | [s], a :: text => run_le s (List.cons_ne_nil a text)
  | s :: t :: ss, [] => Nat.zero_le _
  | s :: t :: ss, a :: text => by
      have hs := run_le s (List.cons_ne_nil a text)
      have hss := runSequence_le (t :: ss) ((a :: text).drop (s.run (a :: text)))
      rw [List.length_drop] at hss
      rw [runSequence, List.isEmpty_cons, if_neg Bool.false_ne_true]
      dsimp only
      split
      · exact Nat.zero_le _
      · omega

theorem runOpen_le : ∀ (ss : List (Scanner α)) (text : List α),
    (runOpen ss text).getD 0 ≤ text.length
  | [], _ => Nat.zero_le _
  | [s], [] => Nat.zero_le _
  | [s], a :: text => run_le s (List.cons_ne_nil a text)
  | s :: t :: ss, [] => Nat.zero_le _
  | s :: t :: ss, a :: text => by
      have hs := run_le s (List.cons_ne_nil a text)
      have hss := runOpen_le (t :: ss) ((a :: text).drop (s.run (a :: text)))
      rw [List.length_drop] at hss
      rw [runOpen, List.isEmpty_cons, if_neg Bool.false_ne_true]
      dsimp only
      split
      · exact Nat.zero_le _
      · cases hopen : runOpen (t :: ss) ((a :: text).drop (s.run (a :: text))) with
        | none => exact Nat.zero_le _
        | some m =>
            rw [hopen, Option.getD_some] at hss
            show s.run (a :: text) + m ≤ _
            omega

end

end Scanner

variable [BEq α] [LE α] [DecidableLE α]

/-! ### The first rule -/

/-- Of the rules which match a text the first is of a kind, and matches so many items. -/
def FirstMatch (rules : List (Rule κ α)) (text : List α) (kind : κ) (n : Nat) : Prop :=
  ∃ before r after, rules = before ++ r :: after ∧ (∀ q ∈ before, q.scanner.run text = 0) ∧
    r.kind = kind ∧ r.scanner.run text = n ∧ 0 < n

namespace Lexer

theorem firstMatch_of_firstMatch? {text : List α} {rules : List (Rule κ α)} {kind : κ} {n : Nat}
    (h : firstMatch? text rules = some (kind, n)) : FirstMatch rules text kind n := by
  induction rules with
  | nil => cases h
  | cons r rs ih =>
      rw [firstMatch?] at h
      split at h
      · next hr =>
          obtain ⟨before, q, after, rfl, hbefore, hq⟩ := ih h
          exact ⟨r :: before, q, after, rfl, List.forall_mem_cons.mpr ⟨hr, hbefore⟩, hq⟩
      · next hr =>
          cases h
          exact ⟨[], r, rs, rfl, List.forall_mem_nil _, rfl, rfl, Nat.pos_of_ne_zero hr⟩

/-- A token which starts within the text ends within it. -/
theorem firstMatch?_le {text : List α} {rules : List (Rule κ α)} {kind : κ} {i n : Nat}
    (h : firstMatch? (text.drop i) rules = some (kind, n)) (hi : i < text.length) :
    i + n ≤ text.length := by
  obtain ⟨-, r, -, -, -, -, rfl, -⟩ := firstMatch_of_firstMatch? h
  have hrest : text.drop i ≠ [] := fun hnil => by
    rw [List.drop_eq_nil_iff] at hnil
    omega
  have hle := r.scanner.run_le hrest
  rw [List.length_drop] at hle
  omega

theorem firstMatch?_eq_none_iff {text : List α} {rules : List (Rule κ α)} :
    firstMatch? text rules = none ↔ ∀ r ∈ rules, r.scanner.run text = 0 := by
  induction rules with
  | nil => simp [firstMatch?]
  | cons r rs ih =>
      rw [firstMatch?, List.forall_mem_cons]
      split
      · next hr => rw [ih, and_iff_right hr]
      · next hr => exact iff_of_false (Option.some_ne_none _) fun h => hr h.1

end Lexer

/-! ### Cuts -/

namespace Cut

variable {rules : List (Rule κ α)} {text : List α} {i j : Nat} {ts : List (Token κ)}

/-- The tokens of a cut lie end to end. -/
theorem tiles (h : Cut rules text i ts j) : Tiles j i (ts.map fun t => (t.start, t.stop)) := by
  induction h with
  | nil => rfl
  | @cons i j n kind ts hi hm h ih =>
      have hn := Lexer.firstMatch?_pos hm
      exact ⟨rfl, by dsimp only; omega, ih⟩

/-- **The tokens of a cut are of the kinds, and as long, as the first rule which matches says.** -/
theorem exact (h : Cut rules text i ts j) :
    ∀ t ∈ ts, FirstMatch rules (text.drop t.start) t.kind (t.stop - t.start) := by
  induction h with
  | nil => exact nofun
  | @cons i j n kind ts hi hm h ih =>
      refine List.forall_mem_cons.mpr ⟨?_, ih⟩
      have hle := Lexer.firstMatch?_le hm hi
      have hlength : min text.length (i + n) - i = n := by omega
      rw [hlength]
      exact Lexer.firstMatch_of_firstMatch? hm

end Cut

namespace Lexer

/-! ### Taking tokens one by one -/

/-- A lexer is asked for tokens until it has none: the tokens which are had, and the lexer then. -/
inductive Drains : Lexer κ α → List (Token κ) → Lexer κ α → Prop where
  | done {l l' : Lexer κ α} : l.hasNext = (false, l') → Drains l [] l'
  | more {l l₁ l₂ l' : Lexer κ α} {t : Token κ} {ts : List (Token κ)} :
      l.hasNext = (true, l₁) → l₁.next = .ok (t, l₂) → Drains l₂ ts l' → Drains l (t :: ts) l'

variable [BEq κ]

/-- **To collect is to look for a token and take it, as long as there is one.** -/
theorem drains_collect {l : Lexer κ α} (h : l.found = false) :
    Drains l (l.collect []).1 (l.collect []).2 := by
  fun_induction collect l [] with
  | case1 l htoken =>
      refine .done ?_
      rw [hasNext, h, htoken]
      rfl
  | case2 l t htoken rest ih =>
      have hlooked : l.hasNext = (true, { l with found := true }) := by
        rw [hasNext, htoken, Option.isSome_some, Bool.or_true]
      have htaken : ({ l with found := true } : Lexer κ α).next = .ok (t, l.advance t) := by
        have hfound : ({ l with found := true } : Lexer κ α).token? = some t := htoken
        rw [next, hfound]
        rfl
      exact .more hlooked htaken (ih rfl)

/-! ### The tokens of a text -/

/-- **The tokens of a text tile what was read of it.**  No scanner matches more than there is, where
there is text.  From a text of `n` items tokens are collected which lie end to end from its start up
to some `k`, each of the kind and as long as the first rule which matches there says; then, if and
only if `k` is the end of the text and a rule matches the empty text, one more, which is empty.  If
`k` is not the end, no rule matches there, and what is left is the rest of the text.  These are the
tokens had by taking one after the other, and kinds which are ignored are dropped from them. -/
theorem collect_tiles (rules : List (Rule κ α)) (text : List α) :
    (∀ (s : Scanner α) (input : List α), input ≠ [] → s.run input ≤ input.length) ∧
    ∃ (ts last : List (Token κ)) (k : Nat) (l : Lexer κ α),
      (new rules text).collect [] = (ts ++ last, l) ∧ Drains (new rules text) (ts ++ last) l ∧
      k ≤ text.length ∧ Tiles k 0 (ts.map fun t => (t.start, t.stop)) ∧
      (∀ t ∈ ts, FirstMatch rules (text.drop t.start) t.kind (t.stop - t.start)) ∧
      ((k = text.length ∧ ∃ r ∈ rules, r.scanner.run [] ≠ 0) ∧
          (∃ kind n, last = [⟨kind, text.length, text.length⟩] ∧ FirstMatch rules [] kind n) ∨
        ¬ (k = text.length ∧ ∃ r ∈ rules, r.scanner.run [] ≠ 0) ∧ last = []) ∧
      (k < text.length → ∀ r ∈ rules, r.scanner.run (text.drop k) = 0) ∧
      l.remaining = text.length - k ∧
      ∀ ignored, (new rules text).collect ignored =
        ((ts ++ last).filter fun t => !ignored.contains t.kind, l) := by
  refine ⟨fun s input h => s.run_le h, ?_⟩
  have hdrains : Drains (new rules text) _ _ := drains_collect rfl
  obtain ⟨ts, k, hcut, hk, hcases⟩ := collect_cases rules text
  rcases hcases with ⟨hnone, hcollect⟩ | ⟨rfl, kind, n, hend, hcollect⟩
  · -- Nothing matches at `k`, be it the end of the text or not.
    rw [firstMatch?_eq_none_iff] at hnone
    have hlast : ¬ (k = text.length ∧ ∃ r ∈ rules, r.scanner.run [] ≠ 0) := by
      rintro ⟨rfl, r, hr, hne⟩
      rw [List.drop_length] at hnone
      exact hne (hnone r hr)
    rw [hcollect] at hdrains
    refine ⟨ts, [], k, placed rules text k, ?_, ?_, hk, hcut.tiles, hcut.exact, .inr ⟨hlast, rfl⟩,
      fun _ => hnone, rfl, fun ignored => ?_⟩
    · rw [hcollect, List.append_nil]
    · rw [List.append_nil]
      exact hdrains
    · rw [collect_eq_filter, hcollect, List.append_nil]
  · -- The end of the text is reached, and a rule matches there.
    have hfirst := firstMatch_of_firstMatch? hend
    have hmatch : ∃ r ∈ rules, r.scanner.run [] ≠ 0 := by
      obtain ⟨before, r, after, rfl, -, -, rfl, hpos⟩ := hfirst
      exact ⟨r, by simp, Nat.ne_of_gt hpos⟩
    rw [hcollect] at hdrains
    refine ⟨ts, [⟨kind, text.length, text.length⟩], text.length,
      placed rules text (text.length + 1), hcollect, hdrains, Nat.le_refl _, hcut.tiles, hcut.exact,
      .inl ⟨⟨rfl, hmatch⟩, kind, n, rfl, hfirst⟩, fun hlt => absurd hlt (Nat.lt_irrefl _), ?_,
      fun ignored => ?_⟩
    · simp only [remaining, placed]
      omega
    · rw [collect_eq_filter, hcollect]

/-- Runs of the letter a, and the end of the text. -/
def runsAndEnd : List (Rule Bool) := [⟨.many (.unit ['a']), false⟩, ⟨.eof, true⟩]

theorem runsAndEnd_tiles : ∃ ts last k l,
    (new runsAndEnd ['a', 'a', 'b']).collect [] = (ts ++ last, l) ∧ k < 3 ∧ l.remaining = 3 - k ∧
      Tiles k 0 (ts.map fun t => (t.start, t.stop)) ∧ last = [] ∧
      ∀ r ∈ runsAndEnd, r.scanner.run (['a', 'a', 'b'].drop k) = 0 := by
  obtain ⟨-, ts, last, k, l, hcollect, -, -, htiles, -, hlast, hstuck, hremaining, -⟩ :=
    collect_tiles runsAndEnd ['a', 'a', 'b']
  have hone : ((new runsAndEnd ['a', 'a', 'b']).collect []).2.remaining = 1 := by
    decide +kernel
  rw [hcollect, hremaining] at hone
  have hk : k < 3 := by
    have : 3 - k = 1 := hone
    omega
  refine ⟨ts, last, k, l, hcollect, hk, hremaining, htiles, ?_, hstuck hk⟩
  rcases hlast with ⟨⟨rfl, -⟩, -⟩ | ⟨-, hnone⟩
  · exact absurd hk (Nat.lt_irrefl 3)
  · exact hnone

end Lexer

end BytecodeVerifier.Lexing
