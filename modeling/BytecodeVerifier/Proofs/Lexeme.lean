import BytecodeVerifier.Proofs.Scanning
import BytecodeVerifier.Proofs.Tokens
import Mathlib.Data.List.Nodup

/-!
# Lexemes — texts which are one token each

A lexeme is a kind of token and a text.  Where the first rule which matches takes just that text, a
source which is spelled out by lexemes has these tokens (`tokens_of_lexes`).

Which rule comes first at a lexeme, and how much it takes, depends on the lexeme and on the
character after it.  Marks and keywords are taken whatever follows them; a run of blanks is followed
by no blank; and identifiers, decimal numbers and descriptors are taken whole before a character
which belongs to none of them (`Stops`).  An identifier is not taken for a class, although both may
start with `L`, because no semicolon follows.
-/

namespace BytecodeVerifier.Assembly

open Lexing Scanner

/-! ### Classes of characters -/

/-- A blank or a line end. -/
def isBlank (c : Char) : Bool := c == ' ' || c == '\t' || c == '\r' || c == '\n'

/-- A character of a class name. -/
def isClassChar (c : Char) : Bool := c.isAlphanum || c == '_' || c == '$' || c == '/'

/-- A character of field types. -/
def isTypeChar (c : Char) : Bool := isClassChar c || c == '[' || c == ';'

/-- The first character of an identifier. -/
def isInitial (c : Char) : Bool := c.isAlpha || c == '_' || c == '$' || c == '<'

/-- A character of an identifier. -/
def isIdentifierChar (c : Char) : Bool := isClassChar c || c == '<' || c == '>' || c == '-'

/-- A character which neither identifiers nor numbers nor field types have. -/
def isStop (c : Char) : Bool := isBlank c || c == ',' || c == '(' || c == '\x7d'

/-- The text does not go on with a character of identifiers, numbers or field types. -/
def Stops (text : List Char) : Prop := ∀ c ∈ text.head?, isStop c = true

theorem isAlpha_iff (c : Char) : c.isAlpha = true ↔ c.isUpper = true ∨ c.isLower = true :=
  Iff.of_eq (Bool.or_eq_true c.isUpper c.isLower)

theorem picks_digit : Form.digit.Picks Char.isDigit :=
  (picks_within '0' '9').congr fun c => by rw [Bool.decide_and]; rfl

theorem picks_small : Form.small.Picks Char.isLower :=
  (picks_within 'a' 'z').congr fun c => by rw [Bool.decide_and]; rfl

theorem picks_capital : Form.capital.Picks Char.isUpper :=
  (picks_within 'A' 'Z').congr fun _ => Iff.rfl

theorem run_whitespace (text : List Char) :
    Form.whitespace.run text = (text.takeWhile isBlank).length := by
  have h := picks_any_cons (picks_unit ' ') <| picks_any_cons (picks_unit '\t') <|
    picks_any_cons (picks_unit '\r') <| picks_any_cons (picks_unit '\n') picks_any_nil
  exact run_many (h.congr fun c => by simp [isBlank, Bool.or_assoc]) text

theorem run_className (text : List Char) :
    Form.className.run text = (text.takeWhile isClassChar).length := by
  have h := picks_any_cons (picks_unit '_') <| picks_any_cons (picks_unit '$') <|
    picks_any_cons (picks_unit '/') <| picks_any_cons picks_digit <|
    picks_any_cons picks_small <| picks_any_cons picks_capital picks_any_nil
  refine run_many (h.congr fun c => ?_) text
  simp only [isClassChar, Char.isAlphanum, isAlpha_iff, Bool.or_eq_true, Bool.false_eq_true]
  tauto

theorem run_identifierRest (text : List Char) :
    Form.identifierRest.run text = (text.takeWhile isIdentifierChar).length := by
  have h := picks_any_cons (picks_unit '_') <| picks_any_cons (picks_unit '$') <|
    picks_any_cons (picks_unit '<') <| picks_any_cons (picks_unit '>') <|
    picks_any_cons (picks_unit '-') <| picks_any_cons (picks_unit '/') <|
    picks_any_cons picks_digit <| picks_any_cons picks_small <|
    picks_any_cons picks_capital picks_any_nil
  refine run_many (h.congr fun c => ?_) text
  simp only [isIdentifierChar, isClassChar, Char.isAlphanum, isAlpha_iff,
    Bool.or_eq_true, Bool.false_eq_true]
  tauto

theorem picks_identifierStart : Form.identifierStart.Picks isInitial := by
  have h := picks_any_cons (picks_unit '_') <| picks_any_cons (picks_unit '$') <|
    picks_any_cons (picks_unit '<') <| picks_any_cons picks_small <|
    picks_any_cons picks_capital picks_any_nil
  refine h.congr fun c => ?_
  simp only [isInitial, isAlpha_iff, Bool.or_eq_true, Bool.false_eq_true]
  tauto

theorem length_takeWhile_le {p q : Char → Bool} (h : ∀ c, p c → q c) (text : List Char) :
    (text.takeWhile p).length ≤ (text.takeWhile q).length := by
  induction text with
  | nil => exact Nat.le_refl 0
  | cons c text ih =>
      cases hp : p c with
      | false => simp [hp]
      | true => simpa [hp, h c hp] using ih

theorem run_fieldType_cons (c : Char) (text : List Char) :
    (any [Form.char '[', Form.char ';', Form.className]).run (c :: text) =
      if c = '[' ∨ c = ';' then 1 else ((c :: text).takeWhile isClassChar).length := by
  simp only [run, runAny, Form.char, picks_unit '[' (c :: text), picks_unit ';' (c :: text),
    run_className, List.head?_cons, Option.any_some, beq_iff_eq]
  split_ifs <;> simp_all

/-- Field types are a run of characters, although class names are taken many at a time. -/
theorem run_fieldTypes (text : List Char) :
    Form.fieldTypes.run text = (text.takeWhile isTypeChar).length := by
  unfold Form.fieldTypes
  rw [run]
  refine repeated_eq (fun text => ?_) (fun text => ?_) text
  · cases text with
    | nil => simp [run, runAny, Form.char, run_className]
    | cons c text =>
        rw [run_fieldType_cons]
        split
        · next h =>
            have hc : isTypeChar c = true := by rcases h with rfl | rfl <;> rfl
            simp [hc]
        · exact length_takeWhile_le (fun c hc => by simp [isTypeChar, hc]) _
  · cases text with
    | nil => exact fun _ => rfl
    | cons c text =>
        rw [run_fieldType_cons]
        split
        · exact fun h => absurd h Nat.one_ne_zero
        · next h =>
            intro hnone
            have hc : isClassChar c = false := by
              cases hc : isClassChar c with
              | false => rfl
              | true => simp [hc] at hnone
            have hc' : isTypeChar c = false := by
              simpa [isTypeChar, hc] using h
            simp [hc']

/-! ### The rules which a character opens -/

/-- What holds of each of the first characters holds of all which are below 128. -/
theorem forall_ascii (P : Char → Prop) (h : ∀ n : Fin 128, P (Char.ofNat n)) {c : Char}
    (hc : c.toNat < 128) : P c := by
  have hP := h ⟨c.toNat, hc⟩
  rwa [Char.ofNat_toNat] at hP

theorem toNat_lt_of_isAlphanum {c : Char} (h : c.isAlphanum = true) : c.toNat < 128 := by
  have hval : c.val ≤ 'z'.val := by
    simp only [Char.isAlphanum, isAlpha_iff, Bool.or_eq_true] at h
    rcases h with (h | h) | h
    · have hle : c.val ≤ 'Z'.val := (of_decide_eq_true h).2
      exact UInt32.le_trans hle (by decide)
    · exact of_decide_eq_true (Bool.and_eq_true_iff.mp h).2
    · have hle : c.val ≤ '9'.val := of_decide_eq_true (Bool.and_eq_true_iff.mp h).2
      exact UInt32.le_trans hle (by decide)
  exact Nat.lt_of_le_of_lt (UInt32.le_iff_toNat_le.mp hval) (by decide)

/-- The kinds of the rules which a character opens. -/
def kindsAt (c : Char) : List TokenKind := (rules.filter (·.scanner.opens c)).map Rule.kind

/-- At a character only the rules of the kinds count which it opens. -/
theorem firstMatch?_of_kindsAt {c : Char} {kinds : List TokenKind} (h : kindsAt c = kinds)
    (text : List Char) :
    Lexer.firstMatch? (c :: text) rules =
      Lexer.firstMatch? (c :: text) (rules.filter fun r => kinds.contains r.kind) := by
  have hdistinct : (rules.map Rule.kind).Nodup := by decide
  rw [Lexer.firstMatch?_eq_filter]
  congr 1
  refine List.filter_congr fun r hr => ?_
  rw [Bool.eq_iff_iff, List.contains_iff_mem, ← h, kindsAt]
  constructor
  · exact fun hc => List.mem_map_of_mem (List.mem_filter.mpr ⟨hr, hc⟩)
  · intro hk
    obtain ⟨r', hr', hkind⟩ := List.mem_map.mp hk
    obtain ⟨hmem, hc⟩ := List.mem_filter.mp hr'
    exact List.inj_on_of_nodup_map hdistinct hmem hr hkind ▸ hc

theorem kindsAt_initial {c : Char} (h : isInitial c = true) :
    kindsAt c = if c = 'L' then [.type, .identifier] else [.identifier] := by
  have hlt : c.toNat < 128 := by
    simp only [isInitial, Bool.or_eq_true, beq_iff_eq] at h
    rcases h with ((h | rfl) | rfl) | rfl
    · exact toNat_lt_of_isAlphanum (by simp [Char.isAlphanum, h])
    · decide
    · decide
    · decide
  exact forall_ascii (fun c => isInitial c = true →
    kindsAt c = if c = 'L' then [.type, .identifier] else [.identifier]) (by decide +kernel) hlt h

theorem kindsAt_digit {c : Char} (h : c.isDigit = true) : kindsAt c = [.number] := by
  have hlt : c.toNat < 128 := toNat_lt_of_isAlphanum (by simp [Char.isAlphanum, h])
  exact forall_ascii (fun c => c.isDigit = true → kindsAt c = [.number]) (by decide +kernel) hlt h

theorem kindsAt_blank {c : Char} (h : isBlank c = true) : kindsAt c = [.whitespace] := by
  simp only [isBlank, Bool.or_eq_true, beq_iff_eq] at h
  rcases h with ((rfl | rfl) | rfl) | rfl <;> rfl

/-! ### Marks and keywords -/

/-- A kind of token, and a text of that kind. -/
abbrev Lexeme : Type := TokenKind × List Char

/-- The lexemes which are taken whatever follows them. -/
def marks : List Lexeme :=
  [(.leftCurly, ['\x7b']), (.rightCurly, ['\x7d']), (.comma, [',']), (.colon, [':']),
    (.minus, ['-']), (.methodKeyword, ['.', 'm', 'e', 't', 'h', 'o', 'd']),
    (.registersKeyword, ['.', 'r', 'e', 'g', 'i', 's', 't', 'e', 'r', 's']),
    (.endKeyword, ['.', 'e', 'n', 'd'])]

theorem firstMatch?_end (text : List Char) :
    Lexer.firstMatch? ('.' :: 'e' :: 'n' :: 'd' :: text) rules = some (.endKeyword, 4) := by
  -- How much text is left cannot be told, but the second character is not that of the others.
  have hmethod : (word ".method").run ('.' :: 'e' :: 'n' :: 'd' :: text) = 0 :=
    run_word_eq_zero rfl
  have hregisters : (word ".registers").run ('.' :: 'e' :: 'n' :: 'd' :: text) = 0 :=
    run_word_eq_zero rfl
  rw [Lexer.firstMatch?_eq_filter]
  show Lexer.firstMatch? _ [⟨.word ".method", TokenKind.methodKeyword⟩,
    ⟨.word ".registers", .registersKeyword⟩, ⟨.word ".end", .endKeyword⟩] = _
  rw [Lexer.firstMatch?, hmethod, if_pos rfl, Lexer.firstMatch?, hregisters, if_pos rfl]
  rfl

theorem firstMatch?_mark {l : Lexeme} (h : l ∈ marks) (text : List Char) :
    Lexer.firstMatch? (l.2 ++ text) rules = some (l.1, l.2.length) := by
  simp only [marks, List.mem_cons, List.not_mem_nil, or_false] at h
  rcases h with rfl | rfl | rfl | rfl | rfl | rfl | rfl | rfl
  case inr.inr.inr.inr.inr.inr.inr => exact firstMatch?_end text
  all_goals exact (Lexer.firstMatch?_eq_filter _ _ rules).trans rfl

/-! ### Blanks, identifiers, numbers and descriptors -/

theorem takeWhile_append_of_head {p : Char → Bool} {cs text : List Char} (hcs : ∀ c ∈ cs, p c)
    (htext : ∀ c ∈ text.head?, p c = false) : (cs ++ text).takeWhile p = cs := by
  rw [List.takeWhile_append_of_pos hcs]
  cases text with
  | nil => simp
  | cons c text => simp [htext c rfl]

theorem drop_takeWhile (p : Char → Bool) (text : List Char) :
    text.drop (text.takeWhile p).length = text.dropWhile p := by
  have h := @List.drop_left _ (text.takeWhile p) (text.dropWhile p)
  rwa [List.takeWhile_append_dropWhile] at h

theorem firstMatch?_blanks {cs text : List Char} (hne : cs ≠ []) (hcs : ∀ c ∈ cs, isBlank c)
    (htext : ∀ c ∈ text.head?, isBlank c = false) :
    Lexer.firstMatch? (cs ++ text) rules = some (.whitespace, cs.length) := by
  obtain ⟨c, cs, rfl⟩ := List.exists_cons_of_ne_nil hne
  rw [List.cons_append, firstMatch?_of_kindsAt (kindsAt_blank (hcs c List.mem_cons_self)),
    ← List.cons_append]
  show Lexer.firstMatch? _ [⟨Form.whitespace, TokenKind.whitespace⟩] = _
  rw [Lexer.firstMatch?, run_whitespace, takeWhile_append_of_head hcs htext]
  rfl

/-- The text is an identifier. -/
def IsIdentifier (cs : List Char) : Prop :=
  cs.head?.any isInitial = true ∧ ∀ c ∈ cs, isIdentifierChar c = true

instance (cs : List Char) : Decidable (IsIdentifier cs) :=
  decidable_of_iff (cs.head?.any isInitial && cs.all isIdentifierChar) (by simp [IsIdentifier])

theorem isIdentifierChar_of_isStop {c : Char} (h : isStop c = true) :
    isIdentifierChar c = false ∧ isTypeChar c = false ∧ c ≠ ';' := by
  simp only [isStop, isBlank, Bool.or_eq_true, beq_iff_eq] at h
  rcases h with (((((rfl | rfl) | rfl) | rfl) | rfl) | rfl) | rfl <;> decide

theorem run_identifier {c : Char} {cs text : List Char} (hc : isInitial c = true)
    (hcs : ∀ c' ∈ c :: cs, isIdentifierChar c') (htext : Stops text) :
    Form.identifier.run (c :: cs ++ text) = (c :: cs).length := by
  have hstart : Form.identifierStart.run (c :: cs ++ text) = 1 := by
    rw [picks_identifierStart]
    simp [hc]
  have hrest : Form.identifierRest.run (c :: cs ++ text) = (c :: cs).length := by
    rw [run_identifierRest, takeWhile_append_of_head hcs fun c' hc' =>
      (isIdentifierChar_of_isStop (htext c' hc')).1]
  rw [Form.identifier, run, runAll, hstart, runAll, hrest]
  simp

/-- A text which the rule of identifiers takes as a whole is an identifier. -/
theorem isIdentifier_of_run {cs : List Char} (hne : cs ≠ [])
    (h : Form.identifier.run cs = cs.length) : IsIdentifier cs := by
  have hpos := List.length_pos_iff.mpr hne
  have hrun : Form.identifier.run cs = if Form.identifierStart.run cs = 0 ∨
      Form.identifierRest.run cs = 0 then 0
      else max (Form.identifierStart.run cs) (Form.identifierRest.run cs) := rfl
  rw [picks_identifierStart, run_identifierRest, h] at hrun
  by_cases hstart : cs.head?.any isInitial = true
  · rw [if_pos hstart] at hrun
    have hlength : (cs.takeWhile isIdentifierChar).length = cs.length := by
      split at hrun <;> omega
    have hall := (List.takeWhile_prefix isIdentifierChar).eq_of_length hlength
    exact ⟨hstart, List.all_eq_true.mp (hall ▸ List.all_takeWhile)⟩
  · rw [if_neg hstart, if_pos (.inl rfl)] at hrun
    omega

/-- After the class name that an identifier starts with no semicolon follows. -/
theorem head_dropWhile_ne {cs text : List Char} (hcs : ∀ c ∈ cs, isIdentifierChar c)
    (htext : Stops text) : ((cs ++ text).dropWhile isClassChar).head? ≠ some ';' := by
  induction cs with
  | nil =>
      cases text with
      | nil => simp
      | cons c text =>
          obtain ⟨hchar, -, hne⟩ := isIdentifierChar_of_isStop (htext c rfl)
          have hclass : isClassChar c = false := by
            simp only [isIdentifierChar, Bool.or_eq_false_iff] at hchar
            exact hchar.1.1.1
          simpa [hclass] using hne
  | cons c cs ih =>
      have hc : isIdentifierChar c = true := hcs c List.mem_cons_self
      cases hclass : isClassChar c with
      | true => simpa [hclass] using ih fun c' hc' => hcs c' (List.mem_cons_of_mem c hc')
      | false =>
          have hne : c ≠ ';' := by
            rintro rfl
            exact absurd hc (by decide)
          simpa [hclass] using hne

/-- What starts as an identifier and is followed by no semicolon is no class. -/
theorem run_type_eq_zero {cs text : List Char} (hcs : ∀ c ∈ cs, isIdentifierChar c)
    (htext : Stops text) : Form.type.run ('L' :: cs ++ text) = 0 := by
  have hname : runSequence [Form.className, Form.char ';'] (cs ++ text) = 0 := by
    rw [runSequence]
    split
    · rfl
    · have hsemicolon : runSequence [Form.char ';']
          ((cs ++ text).drop (Form.className.run (cs ++ text))) = 0 := by
        have hhead := head_dropWhile_ne hcs htext
        rw [run_className, drop_takeWhile]
        cases hrest : (cs ++ text).dropWhile isClassChar with
        | nil => rfl
        | cons c rest =>
            rw [hrest] at hhead
            exact run_eq_zero (Form.char ';') (beq_false_of_ne fun h => hhead h.symm)
      exact if_pos (.inr hsemicolon)
  have hclass : (sequence [Form.char 'L', Form.className, Form.char ';']).run
      ('L' :: cs ++ text) = 0 := by
    rw [run, runSequence, List.cons_append, List.isEmpty_cons, if_neg Bool.false_ne_true]
    exact if_pos (.inr hname)
  have harray : (sequence [Form.char '[', Form.fieldTypes]).run ('L' :: cs ++ text) = 0 :=
    run_eq_zero _ rfl
  rw [Form.type, run, runAny, hclass, if_pos rfl, runAny, harray, if_pos rfl, runAny]

theorem firstMatch?_identifier {cs text : List Char} (h : IsIdentifier cs) (htext : Stops text) :
    Lexer.firstMatch? (cs ++ text) rules = some (.identifier, cs.length) := by
  obtain ⟨hinitial, hcs⟩ := h
  cases cs with
  | nil => cases hinitial
  | cons c cs =>
      have hrun := run_identifier hinitial hcs htext
      rw [List.cons_append, firstMatch?_of_kindsAt (kindsAt_initial hinitial), ← List.cons_append]
      split
      · next hL =>
          subst hL
          have htype : Form.type.run ('L' :: cs ++ text) = 0 :=
            run_type_eq_zero (fun c hc => hcs c (List.mem_cons_of_mem _ hc)) htext
          show Lexer.firstMatch? _ [⟨Form.type, .type⟩, ⟨Form.identifier, TokenKind.identifier⟩] = _
          rw [Lexer.firstMatch?, htype, Lexer.firstMatch?, hrun]
          rfl
      · show Lexer.firstMatch? _ [⟨Form.identifier, TokenKind.identifier⟩] = _
        rw [Lexer.firstMatch?, hrun]
        rfl

/-- A numeral of which the second character does not give the base is not of that base. -/
theorem run_based_eq_zero {w : String} {mark c : Char} {digit digits : Scanner} {text : List Char}
    (hw : firstBytes 0 w.toList = [(0, '0'), (1, mark)]) (h : text.head? ≠ some mark) :
    (sequenceOpen [sequence [word w, digit], digits]).run (c :: text) = 0 := by
  have hword : (word w).run (c :: text) = 0 := by
    have hmark : ((c :: text)[1]? == some mark) = false := by
      rw [List.getElem?_cons_succ, ← List.head?_eq_getElem?]
      exact beq_false_of_ne h
    refine run_word_eq_zero ?_
    rw [hw, List.all_cons, List.all_cons]
    dsimp only
    rw [hmark, Bool.false_and, Bool.and_false]
  have hbased : (sequence [word w, digit]).run (c :: text) = 0 := by
    rw [run, runSequence, List.isEmpty_cons, if_neg Bool.false_ne_true]
    exact if_pos (.inl hword)
  rw [run, runOpen, List.isEmpty_cons, if_neg Bool.false_ne_true]
  dsimp only
  rw [if_pos hbased]
  rfl

theorem run_number {c : Char} {cs text : List Char} (hcs : ∀ c' ∈ c :: cs, c'.isDigit)
    (htext : Stops text) : Form.number.run (c :: cs ++ text) = (c :: cs).length := by
  have hhead : ∀ c' ∈ (cs ++ text).head?, c'.isDigit ∨ isStop c' := by
    cases cs with
    | nil => exact fun c' hc' => .inr (htext c' hc')
    | cons d cs =>
        rintro _ ⟨⟩
        exact .inl (hcs d (by simp))
  have hbinary : (cs ++ text).head? ≠ some 'b' := fun h => absurd (hhead 'b' h) (by decide)
  have hhex : (cs ++ text).head? ≠ some 'x' := fun h => absurd (hhead 'x' h) (by decide)
  have hdigit : Form.digit.run (c :: (cs ++ text)) = 1 := by
    rw [picks_digit]
    simp [hcs c List.mem_cons_self]
  have hdigits : (many (any [Form.digit, Form.char '_'])).run (cs ++ text) = cs.length := by
    have h := picks_any_cons picks_digit (picks_any_cons (picks_unit '_') picks_any_nil)
    rw [Form.char, run_many h, takeWhile_append_of_head]
    · intro c' hc'
      simp [hcs c' (List.mem_cons_of_mem c hc')]
    · intro c' hc'
      have hstop := (isIdentifierChar_of_isStop (htext c' hc')).1
      simp only [isIdentifierChar, isClassChar, Char.isAlphanum, Bool.or_eq_false_iff] at hstop
      simp [hstop]
  have hdecimal : (sequenceOpen [Form.digit, many (any [Form.digit, Form.char '_'])]).run
      (c :: (cs ++ text)) = (c :: cs).length := by
    have hrest : (if (cs ++ text).isEmpty then 0
        else (many (any [Form.digit, Form.char '_'])).run (cs ++ text)) = cs.length := by
      split
      · next hempty =>
          rw [List.isEmpty_iff, List.append_eq_nil_iff] at hempty
          rw [hempty.1]
          rfl
      · exact hdigits
    rw [run, runOpen, List.isEmpty_cons, if_neg Bool.false_ne_true, hdigit]
    simp only [Nat.one_ne_zero, if_false, List.drop_succ_cons, List.drop_zero, runOpen, hrest]
    exact Nat.add_comm 1 cs.length
  rw [Form.number, run, runAny, List.cons_append, run_based_eq_zero rfl hbinary, if_pos rfl, runAny,
    run_based_eq_zero rfl hhex, if_pos rfl, runAny, hdecimal]
  rfl

theorem firstMatch?_number {cs text : List Char} (hne : cs ≠ []) (hcs : ∀ c ∈ cs, c.isDigit)
    (htext : Stops text) :
    Lexer.firstMatch? (cs ++ text) rules = some (.number, cs.length) := by
  obtain ⟨c, cs, rfl⟩ := List.exists_cons_of_ne_nil hne
  rw [List.cons_append, firstMatch?_of_kindsAt (kindsAt_digit (hcs c List.mem_cons_self)),
    ← List.cons_append]
  show Lexer.firstMatch? _ [⟨Form.number, TokenKind.number⟩] = _
  rw [Lexer.firstMatch?, run_number hcs htext]
  rfl

theorem isTypeChar_ascii {c : Char} (h : isTypeChar c = true) : c.toNat < 128 := by
  simp only [isTypeChar, isClassChar, Bool.or_eq_true, beq_iff_eq] at h
  rcases h with ((((h | rfl) | rfl) | rfl) | rfl) | rfl
  · exact toNat_lt_of_isAlphanum h
  all_goals decide

theorem isTypeChar_ne {c : Char} (h : isTypeChar c = true) : c ≠ ')' ∧ c ≠ '\n' :=
  ⟨by rintro rfl; exact absurd h (by decide), by rintro rfl; exact absurd h (by decide)⟩

theorem run_char (c : Char) (text : List Char) : (Form.char c).run (c :: text) = 1 := by
  rw [Form.char, picks_unit]
  simp

/-- The parameters of a descriptor go up to the closing parenthesis. -/
theorem run_parameters {arguments : List Char} (h : ∀ c ∈ arguments, isTypeChar c)
    (text : List Char) :
    (any [Form.char ')', sequence [many (except [')', '\n']), Form.char ')']]).run
      (arguments ++ [')'] ++ text) = (arguments ++ [')']).length := by
  rw [run, runAny, List.append_assoc]
  cases arguments with
  | nil =>
      rw [List.nil_append, List.singleton_append, run_char]
      rfl
  | cons c arguments =>
      have hclose : (Form.char ')').run (c :: arguments ++ ([')'] ++ text)) = 0 := by
        refine run_eq_zero (Form.char ')') (beq_false_of_ne fun he => ?_)
        exact (isTypeChar_ne (h c List.mem_cons_self)).1 (Option.some.inj he).symm
      have hrun : (many (except [')', '\n'])).run (c :: arguments ++ ([')'] ++ text)) =
          (c :: arguments).length := by
        rw [run_many (picks_except _), takeWhile_append_of_head]
        · intro c' hc'
          simpa using isTypeChar_ne (h c' hc')
        · rintro _ ⟨⟩
          rfl
      have hend : runSequence [Form.char ')'] ([')'] ++ text) = 1 := run_char ')' text
      rw [hclose, if_pos rfl, runAny, run,
        runSequence_cons hrun (List.cons_ne_nil _ _) hend Nat.one_ne_zero, List.length_append]
      rfl

theorem run_descriptor {arguments result text : List Char}
    (harguments : ∀ c ∈ arguments, isTypeChar c) (hresult : ∀ c ∈ result, isTypeChar c)
    (hne : result ≠ []) (htext : Stops text) :
    Form.descriptor.run ('(' :: arguments ++ ')' :: result ++ text) =
      ('(' :: arguments ++ ')' :: result).length := by
  have hlength : result.length ≠ 0 := fun h => hne (List.length_eq_zero_iff.mp h)
  have htypes : runSequence [Form.fieldTypes] (result ++ text) = result.length := by
    have hempty : (result ++ text).isEmpty = false := by simp [hne]
    rw [runSequence, hempty, if_neg Bool.false_ne_true, run_fieldTypes,
      takeWhile_append_of_head hresult fun c hc => (isIdentifierChar_of_isStop (htext c hc)).2.1]
  have hrest := runSequence_cons (run_parameters harguments (result ++ text)) (by simp) htypes
    hlength
  have hall := runSequence_cons (run_char '(' _) (List.cons_ne_nil '(' []) hrest (by simp)
  have hshape : '(' :: arguments ++ ')' :: result ++ text =
      ['('] ++ (arguments ++ [')'] ++ (result ++ text)) := by simp
  rw [Form.descriptor, run, hshape, hall]
  simp only [List.length_append, List.length_cons, List.length_nil]
  omega

theorem firstMatch?_descriptor {arguments result text : List Char}
    (harguments : ∀ c ∈ arguments, isTypeChar c) (hresult : ∀ c ∈ result, isTypeChar c)
    (hne : result ≠ []) (htext : Stops text) :
    Lexer.firstMatch? ('(' :: arguments ++ ')' :: result ++ text) rules =
      some (.descriptor, ('(' :: arguments ++ ')' :: result).length) := by
  have hkinds : kindsAt '(' = [.descriptor] := rfl
  rw [List.cons_append, List.cons_append, firstMatch?_of_kindsAt hkinds, ← List.cons_append,
    ← List.cons_append]
  show Lexer.firstMatch? _ [⟨Form.descriptor, TokenKind.descriptor⟩] = _
  rw [Lexer.firstMatch?, run_descriptor harguments hresult hne htext]
  rfl

/-! ### Texts spelled out -/

/-- The text which lexemes spell. -/
def spell (ls : List Lexeme) : List Char := ls.flatMap Prod.snd

theorem spell_cons (l : Lexeme) (ls : List Lexeme) : spell (l :: ls) = l.2 ++ spell ls :=
  List.flatMap_cons

theorem spell_append (ls ls' : List Lexeme) : spell (ls ++ ls') = spell ls ++ spell ls' :=
  List.flatMap_append

/-- Each lexeme is what the first rule which matches takes where it stands. -/
def Lexes : List Lexeme → Prop
  | [] => True
  | l :: ls => Lexer.firstMatch? (l.2 ++ spell ls) rules = some (l.1, l.2.length) ∧ Lexes ls

/-- A token as a lexeme. -/
def Token.lexeme (t : Token) : Lexeme := (t.kind, t.text.toList)

theorem slice_eq {f : Source} {before cs text : List Char}
    (hf : f.contents.toList = before ++ (cs ++ text)) :
    f.slice before.length (before ++ cs).length = cs := by
  rw [Source.slice, Array.toList_extract, hf, List.extract_eq_take_drop, List.drop_left,
    List.length_append, Nat.add_sub_cancel_left, List.take_left]

/-- A text is cut where its lexemes end. -/
theorem Lexes.cut {f : Source} {ls : List Lexeme} (h : Lexes ls) (before : List Char)
    (hf : f.contents.toList = before ++ spell ls) :
    ∃ ts, Cut rules f.contents.toList before.length ts f.length ∧
      ts.map (fun t => (withText f t).lexeme) = ls := by
  induction ls generalizing before with
  | nil =>
      have hlength : before.length = f.length := by
        rw [← List.append_nil before, show ([] : List Char) = spell [] from rfl, ← hf]
        exact Array.length_toList
      exact ⟨[], hlength ▸ .nil _, rfl⟩
  | cons l ls ih =>
      obtain ⟨hm, hls⟩ := h
      rw [spell_cons] at hf
      obtain ⟨ts, hcut, hts⟩ := ih hls (before ++ l.2) (by rw [hf, List.append_assoc])
      have hpos := Lexer.firstMatch?_pos hm
      have hlength : f.contents.toList.length =
          before.length + (l.2.length + (spell ls).length) := by
        rw [hf, List.length_append, List.length_append]
      have hstop : min f.contents.toList.length (before.length + l.2.length) =
          (before ++ l.2).length := by
        rw [List.length_append]
        omega
      have hm' : Lexer.firstMatch? (f.contents.toList.drop before.length) rules =
          some (l.1, l.2.length) := by
        rw [hf, List.drop_left, hm]
      refine ⟨_, .cons (by omega) hm' (hstop ▸ hcut), ?_⟩
      rw [List.map_cons, hts, hstop]
      refine congrArg (· :: ls) ?_
      rw [withText, Token.lexeme, slice_eq hf, String.toList_ofList]

/-- **A source which lexemes spell has these tokens**, but for blanks, and the mark of the end. -/
theorem tokens_of_lexes {f : Source} {ls : List Lexeme} (h : Lexes ls)
    (hf : f.contents.toList = spell ls) :
    ∃ ts, tokens f = .ok ts ∧
      ts.map Token.lexeme = ls.filter (·.1.isKept) ++ [(.endOfText, [])] := by
  obtain ⟨ts, hcut, hls⟩ := h.cut [] hf
  refine ⟨_, tokens_of_cut hcut, ?_⟩
  rw [← hls, List.filter_map, List.map_append, List.map_map]
  rfl

end BytecodeVerifier.Assembly
