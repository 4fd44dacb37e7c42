import BytecodeVerifier.Proofs.Collecting
import BytecodeVerifier.Proofs.Lexeme
import BytecodeVerifier.Proofs.Separation
import Mathlib.Data.List.TakeWhile

/-!
# Spacing — blanks and comments do not change the tokens

Blanks, or a comment with the newline which ends it, may be put in wherever one token stops and the
next starts.  What is put in is seen by the rules at every token before it.

Most rules are guarded against a blank or a number sign (`guarded_of_isSolid`): they match before it
what they matched before any other text, and fail where they failed.  Texts in quotation marks and
descriptors may hold blanks, but where one of these starts no other rule matches, so that it is
there already and stays (`firstMatch?_before_separator`).  A run of blanks and a comment do take in
what is put in after them, or part of it; they are dropped anyway, and what they leave over is
blanks or a comment again (`Lexes.extend`).

So a text with something put in is spelled by the same lexemes but for blanks and comments
(`Lexes.insert`), and **lexing it gives the same tokens** (`tokens_insertAt`).
-/

namespace BytecodeVerifier

/-- The source with a text put in at a position. -/
def Source.insertAt (f : Source) (b : Nat) (w : List Char) : Source :=
  { f with contents := (f.contents.toList.take b ++ (w ++ f.contents.toList.drop b)).toArray }

namespace Assembly

open Lexing Scanner

/-! ### Separators -/

/-- The first character of blanks or of a comment. -/
def isSeparator (c : Char) : Bool := isBlank c || c == '#'

/-- Text which holds no token: blanks, or a comment with the newline which ends it. -/
inductive Spacing : List Char → Prop where
  | blanks {w : List Char} (hne : w ≠ []) (hw : ∀ c ∈ w, isBlank c = true) : Spacing w
  | comment {body : List Char} (h : '\n' ∉ body) : Spacing ('#' :: body ++ ['\n'])

theorem Spacing.parted {w : List Char} (h : Spacing w) (text : List Char) :
    Parted isSeparator (w ++ text) := by
  cases h with
  | blanks hne hw =>
      obtain ⟨c, w, rfl⟩ := List.exists_cons_of_ne_nil hne
      simp [Parted, isSeparator, hw c List.mem_cons_self]
  | comment h => simp [Parted, isSeparator]

/-- Blanks leave nothing of blanks over, and a comment as it is. -/
theorem Spacing.dropWhile_blank {w : List Char} (h : Spacing w) :
    w.dropWhile isBlank = [] ∨ Spacing (w.dropWhile isBlank) := by
  cases h with
  | blanks hne hw => exact .inl (List.dropWhile_eq_nil_iff.mpr hw)
  | comment h => exact .inr (.comment h)

/-- The text of a comment goes on to the end of the line. -/
theorem ne_newline_of_comment {body : List Char} (h : '\n' ∉ body) :
    ∀ c ∈ '#' :: body, (c != '\n') = true :=
  List.forall_mem_cons.mpr ⟨rfl, fun _ hc => bne_iff_ne.mpr fun e => h (e ▸ hc)⟩

/-- Of blanks, and of a comment, the rest of a line leaves the blanks from a newline on. -/
theorem Spacing.dropWhile_line {w : List Char} (h : Spacing w) :
    w.dropWhile (· != '\n') = [] ∨ Spacing (w.dropWhile (· != '\n')) := by
  refine or_iff_not_imp_left.mpr fun hne => .blanks hne ?_
  cases h with
  | blanks _ hw => exact fun c hc => hw c ((List.dropWhile_sublist _).subset hc)
  | comment h =>
      rw [List.dropWhile_append_of_pos (ne_newline_of_comment h)]
      exact List.forall_mem_singleton.mpr rfl

/-- What holds of no separator, tried at each of them. -/
theorem eq_false_of_isSeparator {p : Char → Bool}
    (h : ([' ', '\t', '\r', '\n', '#'].all fun c => !p c) = true) :
    ∀ c, isSeparator c = true → p c = false := by
  intro c hc
  have hmem : c ∈ [' ', '\t', '\r', '\n', '#'] := by
    simpa [isSeparator, isBlank, or_assoc] using hc
  simpa using List.all_eq_true.mp h c hmem

/-! ### Guarded rules -/

theorem halting_char {c : Char} (hc : isSeparator c = false) :
    (Form.char c).Halting isSeparator := by
  refine (picks_unit c).halting fun d hd => beq_eq_false_iff_ne.mpr ?_
  rintro rfl
  rw [hc] at hd
  cases hd

theorem halting_many {s : Scanner} {p : Char → Bool} (hs : s.Picks p)
    (h : ([' ', '\t', '\r', '\n', '#'].all fun c => !p c) = true) :
    (many s).Halting isSeparator :=
  halting_of_run (eq_false_of_isSeparator h) (run_many hs)

theorem halting_fieldTypes : Form.fieldTypes.Halting isSeparator :=
  halting_of_run (eq_false_of_isSeparator (by decide)) run_fieldTypes

theorem halting_className : Form.className.Halting isSeparator :=
  halting_of_run (eq_false_of_isSeparator (by decide)) run_className

/-- Digits of some base after the mark of the base, and more of them. -/
theorem guarded_based {w : String} {digit : Scanner} {p : Char → Bool}
    (hw : (word w).Halting isSeparator) (hdigit : digit.Picks p)
    (hp : ([' ', '\t', '\r', '\n', '#'].all fun c => !p c) = true) :
    (sequenceOpen [sequence [word w, digit], many (any [digit, Form.char '_'])]).Guarded
      isSeparator := by
  have hrest := picks_any_cons hdigit (picks_any_cons (picks_unit '_') picks_any_nil)
  refine guarded_open (guarded_sequence_cons hw (guarded_sequence_one ?_)) ?_
  · exact (hdigit.halting (eq_false_of_isSeparator hp)).toGuarded
  · refine (halting_many hrest ?_).toGuarded
    simpa using hp

theorem guarded_number : Form.number.Guarded isSeparator := by
  have hdigits := picks_any_cons picks_digit (picks_any_cons (picks_unit '_') picks_any_nil)
  have hhex := picks_any_cons picks_digit <| picks_any_cons (picks_within 'A' 'F') <|
    picks_any_cons (picks_within 'a' 'f') picks_any_nil
  refine guarded_any_cons (guarded_based (halting_spaced (by decide)) (picks_within '0' '1')
    (by decide)) (guarded_any_cons (guarded_based (halting_spaced (by decide)) hhex (by decide))
    (guarded_any_cons (guarded_open ?_ ?_) guarded_any_nil))
  · exact (picks_digit.halting (eq_false_of_isSeparator (by decide))).toGuarded
  · exact (halting_many hdigits (by decide)).toGuarded

theorem guarded_type : Form.type.Guarded isSeparator :=
  guarded_any_cons
    (guarded_sequence_cons (halting_char (by decide)) (guarded_sequence_cons halting_className
      (guarded_sequence_one (halting_char (by decide)).toGuarded)))
    (guarded_any_cons (guarded_sequence_cons (halting_char (by decide))
      (guarded_sequence_one halting_fieldTypes.toGuarded)) guarded_any_nil)

theorem guarded_identifier : Form.identifier.Guarded isSeparator :=
  guarded_all (picks_identifierStart.halting (eq_false_of_isSeparator (by decide))).toGuarded
    (halting_of_run (eq_false_of_isSeparator (by decide)) run_identifierRest).toGuarded

/-- Tokens of the kind hold neither blanks nor number signs. -/
def TokenKind.isSolid (kind : TokenKind) : Bool :=
  !([.whitespace, .comment, .string, .descriptor] : List TokenKind).contains kind

/-- **The rule of every solid kind is guarded.** -/
theorem guarded_of_isSolid :
    ∀ r ∈ rules, r.kind.isSolid = true → r.scanner.Guarded isSeparator := by
  have hmark {c : Char} (hc : isSeparator c = false) : (Form.char c).Guarded isSeparator :=
    (halting_char hc).toGuarded
  have hword {w : String} (hw : covers isSeparator (firstBytes 0 w.toList) w.utf8ByteSize = true) :
      (word w).Guarded isSeparator := (halting_spaced hw).toGuarded
  simp only [rules, List.forall_mem_cons]
  refine ⟨fun h => ?_, fun _ => hmark (by decide), fun _ => hmark (by decide),
    fun _ => hmark (by decide), fun _ => hmark (by decide), fun _ => hmark (by decide), fun h => ?_,
    fun _ => guarded_number, fun h => ?_, fun h => ?_, fun _ => hword (by decide),
    fun _ => hword (by decide), fun _ => hword (by decide), fun _ => guarded_type,
    fun _ => guarded_identifier, fun _ => guarded_eof, nofun⟩
  all_goals exact absurd h (by decide)

/-! ### Rules which take in blanks -/

theorem lasting_string : Form.string.Lasting isSeparator := by
  have hend : (sequence [Form.char '"']).Lasting isSeparator :=
    (guarded_sequence_one (halting_char (by decide)).toGuarded).lasting
  have hbody : (many (except ['"', '\n'])).Inner isSeparator :=
    inner_of_run (run_many (picks_except _))
  have hquote : (Form.char '"').Inner isSeparator :=
    (halting_char (by decide)).toGuarded.lasting.inner
  exact lasting_any_cons (halting_spaced (by decide)).toGuarded
    (lasting_any_one (lasting_sequence_cons hquote (lasting_sequence_cons hbody hend)))

theorem lasting_descriptor : Form.descriptor.Lasting isSeparator := by
  have hend : (sequence [Form.char ')']).Lasting isSeparator :=
    (guarded_sequence_one (halting_char (by decide)).toGuarded).lasting
  have hbody : (many (except [')', '\n'])).Inner isSeparator :=
    inner_of_run (run_many (picks_except _))
  have hparameters : Inner isSeparator
      (any [Form.char ')', sequence [many (except [')', '\n']), Form.char ')']]) :=
    (lasting_any_cons (halting_char (by decide)).toGuarded
      (lasting_any_one (lasting_sequence_cons hbody hend))).inner
  exact lasting_sequence_cons (halting_char (by decide)).toGuarded.lasting.inner
    (lasting_sequence_cons hparameters (guarded_sequence_one halting_fieldTypes.toGuarded).lasting)

/-- A number sign starts a comment, which goes on up to the next newline. -/
theorem firstMatch?_comment (text : List Char) :
    Lexer.firstMatch? ('#' :: text) rules =
      some (.comment, (('#' :: text).takeWhile (· != '\n')).length) := by
  have hkinds : kindsAt '#' = [.comment] := rfl
  have hrun : Form.comment.run ('#' :: text) = (('#' :: text).takeWhile (· != '\n')).length := by
    rw [Form.comment, run_open _ _ (List.cons_ne_nil _ _), run_char, if_neg Nat.one_ne_zero,
      run_sequence_one, List.takeWhile_cons_of_pos (by decide), List.length_cons, Nat.add_comm]
    cases text with
    | nil => rfl
    | cons c text => rfl
  rw [firstMatch?_of_kindsAt hkinds]
  show Lexer.firstMatch? _ [⟨Form.comment, TokenKind.comment⟩] = _
  rw [Lexer.firstMatch?, hrun]
  exact if_neg (by simp)

/-- A blank starts a run of blanks. -/
theorem firstMatch?_blank {c : Char} (hc : isBlank c = true) (text : List Char) :
    Lexer.firstMatch? (c :: text) rules =
      some (.whitespace, ((c :: text).takeWhile isBlank).length) := by
  rw [firstMatch?_of_kindsAt (kindsAt_blank hc)]
  show Lexer.firstMatch? _ [⟨Form.whitespace, TokenKind.whitespace⟩] = _
  rw [Lexer.firstMatch?, run_whitespace]
  exact if_neg (by simp [hc])

/-- The one rule which a character opens, if it is lasting, matches before a separator as before. -/
theorem firstMatch?_lasting {r : Rule TokenKind} (hr : r.scanner.Lasting isSeparator)
    {cs text text' : List Char} {kind : TokenKind} {n : Nat} (ht : Parted isSeparator text')
    (h : Lexer.firstMatch? (cs ++ text) [r] = some (kind, n)) (hn : n ≤ cs.length) :
    Lexer.firstMatch? (cs ++ text') [r] = some (kind, n) := by
  rw [Lexer.firstMatch?] at h ⊢
  split at h
  · cases h
  · next hne =>
      cases h
      rw [hr.lasts ht hne hn, if_neg hne]

/-- The character may start a token of the kind; of solid kinds nothing is said. -/
def TokenKind.starts : TokenKind → Char → Bool
  | .comment, c => c == '#'
  | .whitespace, c => isBlank c
  | .string, c => c == '"'
  | .descriptor, c => c == '('
  | _, _ => true

theorem eq_of_opens_char {c d : Char} (h : (Form.char d).opens c = true) : c = d :=
  (Option.some.inj (beq_iff_eq.mp h)).symm

theorem starts_of_opens {c : Char} :
    ∀ r ∈ rules, r.scanner.opens c = true → r.kind.starts c = true := by
  simp only [rules, List.forall_mem_cons]
  refine ⟨fun h => ?_, fun _ => rfl, fun _ => rfl, fun _ => rfl, fun _ => rfl, fun _ => rfl,
    fun h => ?_, fun _ => rfl, fun h => ?_, fun h => ?_, fun _ => rfl, fun _ => rfl, fun _ => rfl,
    fun _ => rfl, fun _ => rfl, fun _ => rfl, nofun⟩
  · exact beq_iff_eq.mpr (eq_of_opens_char h)
  · simp only [Form.whitespace, opens, opensAny, Bool.or_false, Bool.or_eq_true] at h
    rcases h with h | h | h | h <;> rw [eq_of_opens_char h] <;> rfl
  · have hword : (word "\"\"").opens c = true → (c == '"') = true := fun h =>
      (Bool.and_eq_true_iff.mp (Bool.and_eq_true_iff.mp h).2).1
    rcases Bool.or_eq_true_iff.mp h with h | h
    · exact hword h
    · exact beq_iff_eq.mpr (eq_of_opens_char ((Bool.or_false _).symm.trans h))
  · exact beq_iff_eq.mpr (eq_of_opens_char h)

/-- What is dropped starts with a separator. -/
theorem isSeparator_of_dropped {c : Char} {text : List Char} {kind : TokenKind} {n : Nat}
    (h : Lexer.firstMatch? (c :: text) rules = some (kind, n)) (hkind : kind.isKept = false) :
    isSeparator c = true := by
  obtain ⟨before, r, after, hrules, -, rfl, rfl, hpos⟩ := Lexer.firstMatch_of_firstMatch? h
  have hmem : r ∈ rules := hrules ▸ List.mem_append_right before List.mem_cons_self
  have hopens : r.scanner.opens c = true := by
    cases hc : r.scanner.opens c with
    | true => rfl
    | false => exact absurd (run_eq_zero _ hc) (Nat.ne_of_gt hpos)
  have hstarts := starts_of_opens r hmem hopens
  cases hr : r.kind <;> rw [hr] at hstarts hkind
  case comment => exact Bool.or_eq_true_iff.mpr (.inr hstarts)
  case whitespace => exact Bool.or_eq_true_iff.mpr (.inl hstarts)
  all_goals cases hkind

/-- **A token is found before a separator as before any other text.**  Let a token end before a
place or at it.  If what follows there is replaced by a text which starts with a separator, the
token is still there, unless it is a comment or a run of blanks up to that place. -/
theorem firstMatch?_before_separator {cs text text' : List Char} {kind : TokenKind} {n : Nat}
    (ht : Parted isSeparator text') (hne : cs ≠ [])
    (h : Lexer.firstMatch? (cs ++ text) rules = some (kind, n)) (hn : n ≤ cs.length)
    (hkind : kind.isKept = true ∨ n < cs.length) :
    Lexer.firstMatch? (cs ++ text') rules = some (kind, n) := by
  obtain ⟨c, cs, rfl⟩ := List.exists_cons_of_ne_nil hne
  by_cases hcomment : c = '#'
  · subst hcomment
    rw [List.cons_append, firstMatch?_comment, ← List.cons_append] at h ⊢
    obtain ⟨rfl, rfl⟩ := Prod.mk.inj (Option.some.inj h)
    rw [takeWhile_append_of_lt (hkind.resolve_left (by decide)) text']
  by_cases hblank : isBlank c = true
  · rw [List.cons_append, firstMatch?_blank hblank, ← List.cons_append] at h ⊢
    obtain ⟨rfl, rfl⟩ := Prod.mk.inj (Option.some.inj h)
    rw [takeWhile_append_of_lt (hkind.resolve_left (by decide)) text']
  by_cases hquote : c = '"'
  · subst hquote
    have hkinds : kindsAt '"' = [.string] := rfl
    rw [List.cons_append, firstMatch?_of_kindsAt hkinds, ← List.cons_append] at h ⊢
    exact firstMatch?_lasting lasting_string ht h hn
  by_cases hbracket : c = '('
  · subst hbracket
    have hkinds : kindsAt '(' = [.descriptor] := rfl
    rw [List.cons_append, firstMatch?_of_kindsAt hkinds, ← List.cons_append] at h ⊢
    exact firstMatch?_lasting lasting_descriptor ht h hn
  · rw [List.cons_append, Lexer.firstMatch?_eq_filter, ← List.cons_append] at h ⊢
    refine Lexer.firstMatch?_parted (fun r hr => ?_) ht h hn
    obtain ⟨hmem, hopens⟩ := List.mem_filter.mp hr
    have hstarts := starts_of_opens r hmem hopens
    refine guarded_of_isSolid r hmem ?_
    cases hkind : r.kind <;> rw [hkind] at hstarts
    case comment => exact absurd (beq_iff_eq.mp hstarts) hcomment
    case whitespace => exact absurd hstarts hblank
    case string => exact absurd (beq_iff_eq.mp hstarts) hquote
    case descriptor => exact absurd (beq_iff_eq.mp hstarts) hbracket
    all_goals rfl

/-! ### Lexemes with something put in -/

variable {l : Lexeme} {ls as bs : List Lexeme} {w : List Char}

theorem Lexes.ne_nil (h : Lexes (l :: ls)) : l.2 ≠ [] :=
  List.length_pos_iff.mp (Lexer.firstMatch?_pos h.1)

/-- A run which ends at a place has only characters of its class before it, and none there. -/
theorem run_ends {p : Char → Bool} {cs text : List Char}
    (h : ((cs ++ text).takeWhile p).length = cs.length) :
    (∀ c ∈ cs, p c = true) ∧ ∀ c ∈ text.head?, p c = false := by
  rw [List.takeWhile_append] at h
  split at h
  · next hcs =>
      rw [List.length_append] at h
      have hall := (List.takeWhile_prefix (l := cs) p).eq_of_length hcs
      refine ⟨List.all_eq_true.mp (hall ▸ List.all_takeWhile), fun c hc => ?_⟩
      obtain ⟨text, rfl⟩ := List.head?_eq_some_iff.mp hc
      cases hp : p c with
      | false => rfl
      | true => simp [hp] at h
  · next hcs => exact absurd h hcs

/-- The first lexemes spell the text, and are the second ones but for blanks and comments. -/
def Respells (ls' : List Lexeme) (text : List Char) (ls : List Lexeme) : Prop :=
  Lexes ls' ∧ spell ls' = text ∧ ls'.filter (·.1.isKept) = ls.filter (·.1.isKept)

/-- Blanks put in before lexemes are one more, or go into the first of them. -/
theorem Lexes.insert_blanks (h : Lexes ls) (hne : w ≠ []) (hw : ∀ c ∈ w, isBlank c = true) :
    ∃ ls', Respells ls' (w ++ spell ls) ls := by
  by_cases hhead : ∃ c ∈ (spell ls).head?, isBlank c = true
  · obtain ⟨c, hc, hblank⟩ := hhead
    cases ls with
    | nil => cases hc
    | cons l ls =>
        obtain ⟨d, cs, hcs⟩ := List.exists_cons_of_ne_nil h.ne_nil
        obtain ⟨hl, hls⟩ := h
        obtain rfl : d = c := by
          rw [spell_cons, hcs] at hc
          exact Option.some.inj hc
        rw [hcs, List.cons_append, firstMatch?_blank hblank, ← List.cons_append, ← hcs] at hl
        obtain ⟨hkind, hlength⟩ := Prod.mk.inj (Option.some.inj hl)
        obtain ⟨hcs, htext⟩ := run_ends hlength
        have hblanks : ∀ c ∈ w ++ l.2, isBlank c = true := fun c hc =>
          (List.mem_append.mp hc).elim (hw c) (hcs c)
        refine ⟨(.whitespace, w ++ l.2) :: ls,
          ⟨firstMatch?_blanks (by simp [hne]) hblanks htext, hls⟩, ?_, ?_⟩
        · rw [spell_cons, spell_cons, List.append_assoc]
        · rw [List.filter_cons, List.filter_cons, ← hkind]
          rfl
  · have htext : ∀ c ∈ (spell ls).head?, isBlank c = false := fun c hc =>
      Bool.eq_false_iff.mpr fun hblank => hhead ⟨c, hc, hblank⟩
    exact ⟨(.whitespace, w) :: ls, ⟨firstMatch?_blanks hne hw htext, h⟩, spell_cons _ _, rfl⟩

/-- Spacing can be put in before lexemes. -/
theorem Lexes.insert_before (h : Lexes ls) (hw : Spacing w) :
    ∃ ls', Respells ls' (w ++ spell ls) ls := by
  cases hw with
  | blanks hne hw => exact h.insert_blanks hne hw
  | @comment body hbody =>
      obtain ⟨ls', hls', htext, hkept⟩ :=
        h.insert_blanks (List.cons_ne_nil '\n' []) (List.forall_mem_singleton.mpr rfl)
      have hline : ('#' :: body ++ spell ls').takeWhile (· != '\n') = '#' :: body := by
        rw [htext]
        refine takeWhile_append_of_head (ne_newline_of_comment hbody) ?_
        rintro _ ⟨⟩
        rfl
      refine ⟨(.comment, '#' :: body) :: ls', ⟨?_, hls'⟩, ?_, hkept⟩
      · rw [List.cons_append, firstMatch?_comment, ← List.cons_append, hline]
      · rw [spell_cons, htext, ← List.append_assoc]

/-- A lexeme which is a run of characters of a class, and is dropped, takes in as much as it can of
what is put in after it; what it leaves over goes before the next lexeme. -/
theorem Lexes.extend {p : Char → Bool} (h : Lexes (l :: bs)) (hl : l.1.isKept = false)
    (hrun : ∀ text, Lexer.firstMatch? (l.2 ++ text) rules =
      some (l.1, ((l.2 ++ text).takeWhile p).length))
    (hrest : w.dropWhile p = [] ∨ Spacing (w.dropWhile p)) :
    ∃ ls', Respells ls' (l.2 ++ (w ++ spell bs)) (l :: bs) := by
  obtain ⟨hmatch, hbs⟩ := h
  rw [hrun] at hmatch
  obtain ⟨hcs, htext⟩ := run_ends (Prod.mk.inj (Option.some.inj hmatch)).2
  obtain ⟨ls', hls', hspell, hkept⟩ : ∃ ls', Respells ls' (w.dropWhile p ++ spell bs) bs := by
    rcases hrest with hnone | hspacing
    · exact ⟨bs, hbs, by rw [hnone]; rfl, rfl⟩
    · exact hbs.insert_before hspacing
  have htaken : ∀ c ∈ l.2 ++ w.takeWhile p, p c = true := fun c hc =>
    (List.mem_append.mp hc).elim (hcs c) fun hc => List.all_eq_true.mp List.all_takeWhile c hc
  have hleft : ∀ c ∈ (spell ls').head?, p c = false := by
    rw [hspell]
    cases hw : w.dropWhile p with
    | nil => exact htext
    | cons d rest =>
        rintro c ⟨⟩
        have := List.head_dropWhile_not p (l := w) (by rw [hw]; exact List.cons_ne_nil _ _)
        simpa [hw] using this
  refine ⟨(l.1, l.2 ++ w.takeWhile p) :: ls', ⟨?_, hls'⟩, ?_, ?_⟩
  · show Lexer.firstMatch? (l.2 ++ w.takeWhile p ++ spell ls') rules = _
    rw [List.append_assoc, hrun, ← List.append_assoc, takeWhile_append_of_head htaken hleft]
  · rw [spell_cons, hspell, List.append_assoc, ← List.append_assoc (w.takeWhile p),
      List.takeWhile_append_dropWhile]
  · rw [List.filter_cons, List.filter_cons, hl, hkept]
    rfl

/-- Spacing can be put in after a lexeme which is dropped. -/
theorem Lexes.insert_after (h : Lexes (l :: bs)) (hl : l.1.isKept = false) (hw : Spacing w) :
    ∃ ls', Respells ls' (l.2 ++ (w ++ spell bs)) (l :: bs) := by
  obtain ⟨c, cs, hcs⟩ := List.exists_cons_of_ne_nil h.ne_nil
  have hmatch := h.1
  rw [hcs, List.cons_append] at hmatch
  rcases Bool.or_eq_true_iff.mp (isSeparator_of_dropped hmatch hl) with hblank | hcomment
  · have hkind : .whitespace = l.1 := by
      rw [firstMatch?_blank hblank] at hmatch
      exact (Prod.mk.inj (Option.some.inj hmatch)).1
    refine h.extend hl (fun text => ?_) hw.dropWhile_blank
    rw [hcs, List.cons_append, firstMatch?_blank hblank, hkind]
  · obtain rfl := beq_iff_eq.mp hcomment
    have hkind : .comment = l.1 := by
      rw [firstMatch?_comment] at hmatch
      exact (Prod.mk.inj (Option.some.inj hmatch)).1
    refine h.extend hl (fun text => ?_) hw.dropWhile_line
    rw [hcs, List.cons_append, firstMatch?_comment, hkind]

/-- **Spacing can be put in between lexemes**, which stay but for blanks and comments. -/
theorem Lexes.insert (h : Lexes (as ++ bs)) (hw : Spacing w) :
    ∃ ls', Respells ls' (spell as ++ (w ++ spell bs)) (as ++ bs) := by
  induction as with
  | nil => exact h.insert_before hw
  | cons l as ih =>
      by_cases hl : l.1.isKept = true ∨ as ≠ []
      · -- The lexeme is kept, or ends before the place: it is there as before.
        have hne : l.2 ≠ [] := h.ne_nil
        obtain ⟨hmatch, hlexes⟩ : Lexer.firstMatch? (l.2 ++ spell (as ++ bs)) rules =
          some (l.1, l.2.length) ∧ Lexes (as ++ bs) := h
        rw [spell_append, ← List.append_assoc] at hmatch
        obtain ⟨ls', hls', hspell, hkept⟩ := ih hlexes
        have hshorter : l.1.isKept = true ∨ l.2.length < (l.2 ++ spell as).length := by
          refine hl.imp_right fun hmore => ?_
          obtain ⟨k, ks, rfl⟩ := List.exists_cons_of_ne_nil hmore
          have hk := List.length_pos_iff.mpr (Lexes.ne_nil hlexes)
          simp only [spell_cons, List.length_append]
          omega
        refine ⟨l :: ls', ⟨?_, hls'⟩, ?_, ?_⟩
        · rw [hspell, ← List.append_assoc]
          refine firstMatch?_before_separator (hw.parted _) ?_ hmatch ?_ hshorter
          · exact List.append_ne_nil_of_left_ne_nil hne _
          · simp only [List.length_append, Nat.le_add_right]
        · rw [spell_cons, spell_cons, hspell, List.append_assoc]
        · rw [List.cons_append, List.filter_cons, List.filter_cons, hkept]
      · obtain ⟨hdropped, hlast⟩ := not_or.mp hl
        obtain rfl := not_not.mp hlast
        rw [spell_cons, List.append_assoc]
        exact h.insert_after (Bool.eq_false_iff.mpr hdropped) hw

/-! ### Sources with something put in -/

/-- The tokens of a source, with blanks and comments. -/
def rawTokens (f : Source) : List (Lexing.Token TokenKind) :=
  ((Lexer.new rules f.contents.toList).collect []).1

/-- The position is the start or the end of the text, or one where a token stops, which may be
blanks or a comment. -/
def Boundary (f : Source) (b : Nat) : Prop :=
  b = 0 ∨ b = f.length ∨ ∃ t ∈ rawTokens f, t.stop = b

variable {f : Source} {ts : List Token}

/-- A source which has tokens is cut up to its end. -/
theorem exists_cut (h : tokens f = .ok ts) :
    ∃ raw, Cut rules f.contents.toList 0 raw f.length := by
  obtain ⟨raw, k, hcut, hk, hend⟩ := Lexer.collect_cases rules f.contents.toList
  rcases hend with ⟨hnone, hcollect⟩ | ⟨rfl, -⟩
  · -- Where lexing stops short, text is left.
    have hremaining : f.contents.toList.length - k = 0 := by
      by_contra hne
      unfold tokens at h
      rw [Lexer.collect_eq_filter, hcollect] at h
      simp only [Lexer.remaining, Lexer.placed, hne, if_false] at h
      cases h
    obtain rfl : k = f.contents.toList.length := by omega
    rw [List.drop_length, firstMatch?_nil] at hnone
    cases hnone
  · exact ⟨raw, hcut⟩

theorem rawTokens_of_cut {raw : List (Lexing.Token TokenKind)}
    (h : Cut rules f.contents.toList 0 raw f.length) :
    rawTokens f = raw ++ [⟨.endOfText, f.length, f.length⟩] := by
  have hlength : f.contents.toList.length = f.length := Array.length_toList
  rw [rawTokens, Lexer.new_eq_placed, h.collect, ← hlength, Lexer.collect_end firstMatch?_nil]

/-- A source which has tokens is cut at each boundary. -/
theorem Boundary.exists_cuts {b : Nat} (hb : Boundary f b) (h : tokens f = .ok ts) :
    ∃ us vs, Cut rules f.contents.toList 0 us b ∧ Cut rules f.contents.toList b vs f.length := by
  obtain ⟨raw, hcut⟩ := exists_cut h
  have hend : ∃ us vs, Cut rules f.contents.toList 0 us f.length ∧
    Cut rules f.contents.toList f.length vs f.length := ⟨raw, [], hcut, .nil _⟩
  rcases hb with rfl | rfl | ⟨t, ht, rfl⟩
  · exact ⟨[], raw, .nil 0, hcut⟩
  · exact hend
  · rw [rawTokens_of_cut hcut, List.mem_append, List.mem_singleton] at ht
    rcases ht with ht | rfl
    · exact hcut.split ht
    · exact hend

theorem lexeme_withText (kind : TokenKind) (i n : Nat) :
    (withText f ⟨kind, i, i + n⟩).lexeme = (kind, (f.contents.toList.drop i).take n) := by
  rw [withText, Token.lexeme, String.toList_ofList, Source.slice, Array.toList_extract,
    List.extract_eq_take_drop, Nat.add_sub_cancel_left]

/-- The tokens of a cut are lexemes, which spell the text from where the cut starts. -/
theorem Lexes.of_cut {i j : Nat} {raw : List (Lexing.Token TokenKind)}
    (h : Cut rules f.contents.toList i raw j) (hj : j = f.length) :
    Lexes (raw.map fun t => (withText f t).lexeme) ∧
      spell (raw.map fun t => (withText f t).lexeme) = f.contents.toList.drop i := by
  induction h with
  | nil i =>
      subst hj
      exact ⟨trivial, (List.drop_length (l := f.contents.toList)).symm⟩
  | @cons i j n kind raw hi hm h ih =>
      have hle := Lexer.firstMatch?_le hm hi
      obtain ⟨hlexes, hspell⟩ := ih hj
      rw [Nat.min_eq_right hle, ← List.drop_drop] at hspell
      rw [List.map_cons, Nat.min_eq_right hle, lexeme_withText]
      have htext : (f.contents.toList.drop i).take n ++ spell (raw.map fun t =>
          (withText f t).lexeme) = f.contents.toList.drop i := by
        rw [hspell, List.take_append_drop]
      have hlength : ((f.contents.toList.drop i).take n).length = n := by
        rw [List.length_take, List.length_drop]
        omega
      refine ⟨⟨?_, hlexes⟩, htext⟩
      dsimp only
      rw [htext, hm, hlength]

/-- **Blanks and comments do not change the tokens.**  Let a source have tokens.  Wherever one of
these stops, those which are dropped included, and at the start and the end of the text, blanks can
be put in, or a comment with its newline: the source then has tokens of the same kinds and texts. -/
theorem tokens_insertAt {b : Nat} (h : tokens f = .ok ts) (hb : Boundary f b) (hw : Spacing w) :
    ∃ ts', tokens (f.insertAt b w) = .ok ts' ∧ ts'.map Token.lexeme = ts.map Token.lexeme := by
  obtain ⟨us, vs, hus, hvs⟩ := hb.exists_cuts h
  obtain ⟨hlexes, hwhole⟩ := Lexes.of_cut (hus.append hvs) rfl
  obtain ⟨-, hafter⟩ := Lexes.of_cut hvs rfl
  rw [List.map_append] at hlexes hwhole
  have hbefore : spell (us.map fun t => (withText f t).lexeme) = f.contents.toList.take b := by
    rw [spell_append, hafter, List.drop_zero] at hwhole
    exact List.append_cancel_right (hwhole.trans (List.take_append_drop b _).symm)
  obtain ⟨ls', hls', hspell, hkept⟩ := hlexes.insert hw
  rw [hbefore, hafter] at hspell
  obtain ⟨ts', htokens', hts'⟩ := tokens_of_lexes (f := f.insertAt b w) hls' hspell.symm
  obtain ⟨ts₀, htokens, hts⟩ := tokens_of_lexes hlexes hwhole.symm
  obtain rfl := Except.ok.inj (h.symm.trans htokens)
  exact ⟨ts', htokens', by rw [hts', hts, hkept]⟩

/-- A numeral, an identifier which starts with the mark of a base, and a comment which no newline
ends. -/
def unmarked : Source := ⟨"", #['0', 'b', '2', '#', 'x']⟩

theorem unmarked_insertAt :
    tokens unmarked =
        .ok [⟨.number, 0, 1, "0"⟩, ⟨.identifier, 1, 3, "b2"⟩, ⟨.endOfText, 5, 5, ""⟩] ∧
      Spacing ['#', '1', '\n'] ∧ ∀ b ∈ [1, 5], Boundary unmarked b ∧
        ∃ ts, tokens (unmarked.insertAt b ['#', '1', '\n']) = .ok ts ∧
          ts.map Token.lexeme =
            [(.number, ['0']), (.identifier, ['b', '2']), (.endOfText, [])] := by
  have htokens : tokens unmarked =
      .ok [⟨.number, 0, 1, "0"⟩, ⟨.identifier, 1, 3, "b2"⟩, ⟨.endOfText, 5, 5, ""⟩] := by
    decide +kernel
  have hspacing : Spacing ['#', '1', '\n'] := @Spacing.comment ['1'] (by decide)
  have hnumeral : (⟨.number, 0, 1⟩ : Lexing.Token TokenKind) ∈ rawTokens unmarked := by
    decide +kernel
  refine ⟨htokens, hspacing, List.forall_mem_cons.mpr ⟨?_, List.forall_mem_singleton.mpr ?_⟩⟩
  · have hboundary : Boundary unmarked 1 := .inr (.inr ⟨_, hnumeral, rfl⟩)
    exact ⟨hboundary, tokens_insertAt htokens hboundary hspacing⟩
  · have hboundary : Boundary unmarked 5 := .inr (.inl rfl)
    exact ⟨hboundary, tokens_insertAt htokens hboundary hspacing⟩

end Assembly

end BytecodeVerifier
