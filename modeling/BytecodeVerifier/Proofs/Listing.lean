import BytecodeVerifier.Method
import BytecodeVerifier.Proofs.Lexeme
import BytecodeVerifier.Proofs.Mnemonic
import BytecodeVerifier.Proofs.Numeral

/-!
# Listings — methods written as assembly language

`Method.listing` writes a method as assembly language: a label before each instruction, and one
after the last, so that every target has one.  **A listing is spelled out by its lexemes**
(`spell_lexemes`), and **lexing finds just these** (`lexes_lexemes`).

Where a lexeme ends depends on what follows.  `Ready` lexemes may follow an identifier or a number;
a `Word` is a group of lexemes which may stand before ready ones, and after a blank.
-/

namespace BytecodeVerifier

namespace Assembly

open Lexing

/-! ### Lexemes which may follow others -/

/-- The lexemes may stand after an identifier or a number. -/
structure Ready (ls : List Lexeme) : Prop where
  lexes : Lexes ls
  stops : Stops (spell ls)

/-- The lexemes may stand after a blank. -/
structure Apart (ls : List Lexeme) : Prop where
  lexes : Lexes ls
  apart : ∀ c ∈ (spell ls).head?, isBlank c = false

/-- The lexemes may stand after a blank, and before anything which may follow a number. -/
def IsWord (x : List Lexeme) : Prop := ∀ ls, Ready ls → Apart (x ++ ls)

variable {ls : List Lexeme}

theorem ready_nil : Ready [] := ⟨trivial, by rintro _ ⟨⟩⟩

theorem ready_blank {cs : List Char} (hne : cs ≠ []) (hcs : ∀ c ∈ cs, isBlank c) (h : Apart ls) :
    Ready ((.whitespace, cs) :: ls) := by
  obtain ⟨c, cs, rfl⟩ := List.exists_cons_of_ne_nil hne
  refine ⟨⟨firstMatch?_blanks hne hcs h.apart, h.lexes⟩, ?_⟩
  rintro _ ⟨⟩
  simp [isStop, hcs c List.mem_cons_self]

theorem apart_mark {l : Lexeme} (hl : l ∈ marks) (h : Lexes ls) : Apart (l :: ls) := by
  refine ⟨⟨firstMatch?_mark hl _, h⟩, ?_⟩
  simp only [marks, List.mem_cons, List.not_mem_nil, or_false] at hl
  rcases hl with rfl | rfl | rfl | rfl | rfl | rfl | rfl | rfl <;> (rintro _ ⟨⟩; rfl)

theorem isBlank_eq_false {c : Char} (h : isIdentifierChar c = true) : isBlank c = false := by
  cases hc : isBlank c with
  | false => rfl
  | true =>
      have hstop := (isIdentifierChar_of_isStop (c := c) (by simp [isStop, hc])).1
      rw [h] at hstop
      cases hstop

theorem isWord_identifier {cs : List Char} (hcs : IsIdentifier cs) :
    IsWord [(.identifier, cs)] := by
  intro ls h
  refine ⟨⟨firstMatch?_identifier hcs h.stops, h.lexes⟩, ?_⟩
  cases cs with
  | nil => cases hcs.1
  | cons c cs =>
      rintro _ ⟨⟩
      exact isBlank_eq_false (hcs.2 c List.mem_cons_self)

theorem isWord_number {cs : List Char} (hne : cs ≠ []) (hcs : ∀ c ∈ cs, c.isDigit) :
    IsWord [(.number, cs)] := by
  intro ls h
  refine ⟨⟨firstMatch?_number hne hcs h.stops, h.lexes⟩, ?_⟩
  cases cs with
  | nil => exact absurd rfl hne
  | cons c cs =>
      rintro _ ⟨⟩
      exact isBlank_eq_false (by simp [isIdentifierChar, isClassChar, Char.isAlphanum, hcs c])

/-! ### Groups of lexemes -/

/-- A blank. -/
def blank : Lexeme := (.whitespace, [' '])

/-- A line end. -/
def newline : Lexeme := (.whitespace, ['\n'])

def comma : Lexeme := (.comma, [','])

/-- Groups of lexemes, with commas and blanks between them. -/
def separated (xs : List (List Lexeme)) : List Lexeme := [comma, blank].intercalate xs

theorem spell_separated (xs : List (List Lexeme)) :
    spell (separated xs) = [',', ' '].intercalate (xs.map spell) := by
  induction xs with
  | nil => rfl
  | cons x xs ih =>
      cases xs with
      | nil => simp [separated]
      | cons y ys =>
          rw [separated, List.intercalate_cons_cons, spell_append, spell_append, ← separated, ih]
          simp only [List.map_cons, List.intercalate_cons_cons]
          rfl

theorem ready_space (h : Apart ls) : Ready (blank :: ls) :=
  ready_blank (List.cons_ne_nil _ _) (List.forall_mem_singleton.mpr rfl) h

theorem ready_newline (h : Apart ls) : Ready (newline :: ls) :=
  ready_blank (List.cons_ne_nil _ _) (List.forall_mem_singleton.mpr rfl) h

theorem ready_comma (h : Apart ls) : Ready (comma :: blank :: ls) :=
  ⟨(apart_mark (by simp [marks, comma]) (ready_space h).lexes).lexes, by rintro _ ⟨⟩; rfl⟩

theorem isWord_separated {xs : List (List Lexeme)} (hne : xs ≠ []) (hxs : ∀ x ∈ xs, IsWord x) :
    IsWord (separated xs) := by
  induction xs with
  | nil => exact absurd rfl hne
  | cons x xs ih =>
      cases xs with
      | nil => simpa [separated] using hxs x List.mem_cons_self
      | cons y ys =>
          intro ls h
          have hys := ih (List.cons_ne_nil _ _) (fun z hz => hxs z (List.mem_cons_of_mem x hz)) ls h
          have hx := hxs x List.mem_cons_self _ (ready_comma hys)
          rw [separated, List.intercalate_cons_cons]
          simpa [separated] using hx

/-- The name of the label at a position. -/
def labelName (pc : Nat) : String := "l" ++ toString pc

/-- The label at a position, as it is declared and as it is used. -/
def labelLexemes (pc : Nat) : List Lexeme := [(.colon, [':']), (.identifier, (labelName pc).toList)]

/-- A number with its sign. -/
def literalLexemes (n : Int) : List Lexeme :=
  if 0 ≤ n then [(.number, Nat.toDigits 10 n.toNat)]
  else [(.minus, ['-']), (.number, Nat.toDigits 10 (-n).toNat)]

theorem isDigit_toDigits (n : Nat) : ∀ c ∈ Nat.toDigits 10 n, c.isDigit := fun _ =>
  Nat.isDigit_of_mem_toDigits (by decide) (by decide)

/-- A letter and a number are an identifier. -/
theorem isIdentifier_numbered {c : Char} (h : c.isAlpha = true) (n : Nat) :
    IsIdentifier (c :: Nat.toDigits 10 n) := by
  refine ⟨by simp [isInitial, h], ?_⟩
  simp only [List.mem_cons, forall_eq_or_imp]
  refine ⟨by simp [isIdentifierChar, isClassChar, Char.isAlphanum, h], fun d hd => ?_⟩
  simp [isIdentifierChar, isClassChar, Char.isAlphanum, isDigit_toDigits n d hd]

theorem toList_labelName (pc : Nat) : (labelName pc).toList = 'l' :: Nat.toDigits 10 pc :=
  Numeral.toList_numbered "l" pc

theorem isWord_label (pc : Nat) : IsWord (labelLexemes pc) := by
  intro ls h
  refine apart_mark (by simp [marks]) (isWord_identifier ?_ ls h).lexes
  rw [toList_labelName]
  exact isIdentifier_numbered rfl pc

theorem isWord_literal (n : Int) : IsWord (literalLexemes n) := by
  intro ls h
  unfold literalLexemes
  split
  · exact isWord_number Nat.toDigits_ne_nil (isDigit_toDigits _) ls h
  · exact apart_mark (by simp [marks])
      (isWord_number Nat.toDigits_ne_nil (isDigit_toDigits _) ls h).lexes

end Assembly

/-! ### Instructions -/

open Assembly

theorem Opcode.isIdentifier_mnemonic : ∀ op ∈ Opcode.table, IsIdentifier op.mnemonic.toList := by
  decide +kernel

theorem Register.toList_name (r : Register) :
    r.name.toList = 'v' :: Nat.toDigits 10 r.index.toNat :=
  Numeral.toList_numbered "v" r.index.toNat

theorem Register.isIdentifier_name (r : Register) : IsIdentifier r.name.toList := by
  rw [r.toList_name]
  exact isIdentifier_numbered rfl _

namespace Instruction

/-- How a target is written. -/
def targetName (t : UInt64) : String := ":" ++ labelName t.toNat

/-- The lexemes of the registers, with a blank before them. -/
def registerLexemes (i : Instruction) : List Lexeme :=
  if i.registers.isEmpty then []
  else blank :: separated (i.registers.map fun r => [(.identifier, r.name.toList)])

/-- The lexemes of the targets, with what separates them from the registers. -/
def targetLexemes (i : Instruction) : List Lexeme :=
  if i.opcode.family = .switch then
    comma :: blank :: (.leftCurly, ['\x7b']) ::
      (separated (i.targets.map fun t => labelLexemes t.toNat) ++ [(.rightCurly, ['\x7d'])])
  else
    match i.targets with
    | [t] => (if i.registers.isEmpty then [blank] else [comma, blank]) ++ labelLexemes t.toNat
    | _ => []

/-- The lexemes of an instruction. -/
def lexemes (i : Instruction) : List Lexeme :=
  (.identifier, i.opcode.mnemonic.toList) ::
    (i.registerLexemes ++
      ((if i.opcode.hasLiteral then comma :: blank :: literalLexemes i.literal.toInt else []) ++
        i.targetLexemes))

theorem ready_targetLexemes (i : Instruction) {ls : List Lexeme} (h : Ready ls) :
    Ready (i.targetLexemes ++ ls) := by
  unfold targetLexemes
  split
  · have hclose : Ready ((.rightCurly, ['\x7d']) :: ls) :=
      ⟨(apart_mark (by simp [marks]) h.lexes).lexes, by rintro _ ⟨⟩; rfl⟩
    have htable : Lexes (separated (i.targets.map fun t => labelLexemes t.toNat) ++
        (.rightCurly, ['\x7d']) :: ls) := by
      cases hts : i.targets with
      | nil => exact hclose.lexes
      | cons t ts =>
          refine (isWord_separated (by simp) ?_ _ hclose).lexes
          simp only [List.mem_map]
          rintro _ ⟨t, -, rfl⟩
          exact isWord_label t.toNat
    simpa using ready_comma (apart_mark (l := (.leftCurly, ['\x7b'])) (by simp [marks]) htable)
  · split
    · next t _ =>
        have ht := isWord_label t.toNat ls h
        split
        · exact ready_space ht
        · exact ready_comma ht
    · exact h

theorem ready_registerLexemes (i : Instruction) {ls : List Lexeme} (h : Ready ls) :
    Ready (i.registerLexemes ++ ls) := by
  unfold registerLexemes
  split
  · exact h
  · next hne =>
      refine ready_space (isWord_separated (by simpa using hne) ?_ _ h)
      simp only [List.mem_map]
      rintro _ ⟨r, -, rfl⟩
      exact isWord_identifier (r.isIdentifier_name)

/-- The lexemes of an instruction are found before a line end. -/
theorem isWord_lexemes {i : Instruction} (hop : i.opcode ∈ Opcode.table) : IsWord i.lexemes := by
  intro ls h
  have htargets := i.ready_targetLexemes h
  have hliteral : Ready ((if i.opcode.hasLiteral then
      comma :: blank :: literalLexemes i.literal.toInt else []) ++ (i.targetLexemes ++ ls)) := by
    split
    · exact ready_comma (isWord_literal _ _ htargets)
    · exact htargets
  have hregisters := i.ready_registerLexemes hliteral
  have hmnemonic := isWord_identifier (Opcode.isIdentifier_mnemonic _ hop) _ hregisters
  simpa [lexemes] using hmnemonic

theorem spell_registerLexemes (i : Instruction) :
    spell i.registerLexemes =
      (if i.registers.isEmpty then ""
        else " " ++ ", ".intercalate (i.registers.map Register.name)).toList := by
  unfold registerLexemes
  split
  · rfl
  · rw [spell_cons, spell_separated, String.toList_append, String.toList_intercalate, List.map_map,
      List.map_map]
    simp [Function.comp_def, spell, blank]

theorem toList_targetName (t : UInt64) : (targetName t).toList = spell (labelLexemes t.toNat) := by
  simp [targetName, labelLexemes, spell]

theorem spell_targetLexemes (i : Instruction) :
    spell i.targetLexemes = (i.targetText targetName).toList := by
  obtain ⟨op, rs, ts, n⟩ := i
  unfold targetLexemes targetText
  split
  · rw [spell_cons, spell_cons, spell_cons, spell_append, spell_separated, String.toList_append,
      String.toList_append, String.toList_intercalate, List.map_map, List.map_map]
    simp [Function.comp_def, spell, blank, comma, toList_targetName]
  · rcases ts with _ | ⟨t, _ | ⟨u, ts⟩⟩
    · rfl
    · dsimp only
      split <;> simp [toList_targetName, spell, blank, comma]
    · rfl

theorem spell_literalLexemes (n : Int) : spell (literalLexemes n) = (toString n).toList := by
  rw [Int.toString_eq_repr, Int.repr_eq_if, literalLexemes]
  split <;> simp [spell]

/-- The lexemes of an instruction spell its text. -/
theorem spell_lexemes (i : Instruction) : spell i.lexemes = (i.textWith targetName).toList := by
  have hliteral : spell (if i.opcode.hasLiteral then
      comma :: blank :: literalLexemes i.literal.toInt else []) =
        (if i.opcode.hasLiteral then s!", {i.literal.toInt}" else "").toList := by
    split
    · have htext : s!", {i.literal.toInt}" = ", " ++ toString i.literal.toInt := rfl
      rw [spell_cons, spell_cons, spell_literalLexemes, htext, String.toList_append]
      rfl
    · rfl
  rw [lexemes, textWith, spell_cons, spell_append, spell_append, spell_registerLexemes, hliteral,
    spell_targetLexemes, String.toList_append, String.toList_append, String.toList_append,
    List.append_assoc, List.append_assoc]

end Instruction

/-! ### Methods -/

/-- A descriptor whose class names have letters, digits, `_`, `$` and `/` only. -/
def PlainDescriptor (d : String) : Prop :=
  ∃ arguments result, d.toList = '(' :: arguments ++ ')' :: result ∧
    ∀ c ∈ arguments ++ result, isTypeChar c = true

/-- A plain descriptor is found if there is something after the parameters. -/
theorem ready_descriptor {d : String} (hd : PlainDescriptor d) (hend : d.toList.getLast? ≠ some ')')
    {ls : List Lexeme} (h : Ready ls) : Ready ((.descriptor, d.toList) :: ls) := by
  obtain ⟨arguments, result, hshape, hall⟩ := hd
  have hne : result ≠ [] := by
    rintro rfl
    rw [hshape, List.getLast?_concat] at hend
    exact hend rfl
  rw [hshape]
  refine ⟨⟨?_, h.lexes⟩, by rintro _ ⟨⟩; rfl⟩
  exact firstMatch?_descriptor (fun c hc => hall c (List.mem_append_left _ hc))
    (fun c hc => hall c (List.mem_append_right _ hc)) hne h.stops

namespace Method

/-- The lines of the statements from a position on: the label of each position, and after it the
instruction. -/
def statementText (pc : Nat) : List Instruction → String
  | [] => ":" ++ labelName pc ++ "\n"
  | i :: is =>
    ":" ++ labelName pc ++ "\n" ++ i.textWith Instruction.targetName ++ "\n" ++
      statementText (pc + 1) is

/-- A static method as assembly language, given its descriptor and the number of its registers. -/
def listing (m : Method) (descriptor : String) (count : Nat) : String :=
  ".method static " ++ m.name ++ descriptor ++ "\n.registers " ++ toString count ++ "\n" ++
    statementText 0 m.code.toList ++ ".end method"

/-- The lexemes of the statements from a position on. -/
def statementLexemes (pc : Nat) : List Instruction → List Lexeme
  | [] => labelLexemes pc
  | i :: is => labelLexemes pc ++ newline :: (i.lexemes ++ newline :: statementLexemes (pc + 1) is)

/-- The lexemes of a method, and of what follows it. -/
def lexemes (m : Method) (descriptor : String) (count : Nat) (rest : List Lexeme) : List Lexeme :=
  (.methodKeyword, ".method".toList) :: blank :: (.identifier, "static".toList) :: blank ::
    (.identifier, m.name.toList) :: (.descriptor, descriptor.toList) :: newline ::
    (.registersKeyword, ".registers".toList) :: blank :: (.number, Nat.toDigits 10 count) ::
    newline :: (statementLexemes 0 m.code.toList ++
      newline :: (.endKeyword, ".end".toList) :: blank :: (.identifier, "method".toList) :: rest)

theorem isWord_statementLexemes (pc : Nat) {is : List Instruction}
    (h : ∀ i ∈ is, i.opcode ∈ Opcode.table) : IsWord (statementLexemes pc is) := by
  induction is generalizing pc with
  | nil => exact isWord_label pc
  | cons i is ih =>
      intro ls hls
      have hrest := ih (pc + 1) (fun j hj => h j (List.mem_cons_of_mem i hj)) ls hls
      have hi := Instruction.isWord_lexemes (h i List.mem_cons_self) _ (ready_newline hrest)
      have hlabel := isWord_label pc _ (ready_newline hi)
      simpa [statementLexemes] using hlabel

/-- **Lexing finds the lexemes of a method.** -/
theorem lexes_lexemes {m : Method} {d : String} (count : Nat) {rest : List Lexeme}
    (hname : IsIdentifier m.name.toList) (hd : PlainDescriptor d)
    (hend : d.toList.getLast? ≠ some ')')
    (hcode : ∀ i ∈ m.code, i.opcode ∈ Opcode.table) (hrest : Ready rest) :
    Lexes (m.lexemes d count rest) := by
  have hending : Apart ((.endKeyword, ".end".toList) :: blank :: (.identifier, "method".toList) ::
      rest) :=
    apart_mark (by simp [marks])
      (ready_space (isWord_identifier (by decide +kernel) rest hrest)).lexes
  have hcode' : ∀ i ∈ m.code.toList, i.opcode ∈ Opcode.table := by simpa using hcode
  have hstatements := isWord_statementLexemes 0 hcode' _ (ready_newline hending)
  have hcount := isWord_number Nat.toDigits_ne_nil (isDigit_toDigits count) _
    (ready_newline hstatements)
  have hregisters := apart_mark (l := (.registersKeyword, ".registers".toList)) (by simp [marks])
    (ready_space hcount).lexes
  have hheader := isWord_identifier hname _ (ready_descriptor hd hend (ready_newline hregisters))
  have hstatic : Apart ((.identifier, "static".toList) :: _) :=
    isWord_identifier (by decide +kernel) _ (ready_space hheader)
  exact (apart_mark (l := (.methodKeyword, ".method".toList)) (by simp [marks])
    (ready_space hstatic).lexes).lexes

theorem spell_statementLexemes (pc : Nat) (is : List Instruction) :
    spell (statementLexemes pc is) ++ newline.2 = (statementText pc is).toList := by
  induction is generalizing pc with
  | nil => simp [statementLexemes, statementText, labelLexemes, newline, spell]
  | cons i is ih =>
      rw [statementLexemes, spell_append, spell_cons, spell_append, spell_cons,
        Instruction.spell_lexemes, statementText, String.toList_append, ← ih]
      simp [labelLexemes, newline, spell]

/-- **The lexemes of a method spell its listing**, and then what follows. -/
theorem spell_lexemes (m : Method) (d : String) (count : Nat) (rest : List Lexeme) :
    spell (m.lexemes d count rest) = (m.listing d count).toList ++ spell rest := by
  have hstatements := spell_statementLexemes 0 m.code.toList
  unfold lexemes listing
  generalize statementText 0 m.code.toList = text at hstatements ⊢
  simp only [spell_cons, spell_append, String.toList_append, ← hstatements]
  simp [blank, newline]

end Method

end BytecodeVerifier
