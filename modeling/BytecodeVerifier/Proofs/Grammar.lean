import BytecodeVerifier.Register.Descriptor
import Mathlib.Data.List.TakeWhile

/-!
# Grammar — the texts which are descriptors

A field type is a letter, a class name between `L` and `;`, or `[` and a field type.  A descriptor
is `(`, field types, `)`, and a field type or `V`.  Since the parameters end at the first `)`, the
class names among them have none; that of a result may.

**A text is read as a signature just when it is a descriptor of that signature, and it is one in one
way only** (`ofBytes_grammar`).  Both halves rest on two facts about one field type: reading it
gives it back and leaves what follows (`readField_bytes`), and nothing else is read
(`readField_cases`).  `readField` passes over all brackets at once; that it does so one by one is
`readField_bracket`.
-/

namespace BytecodeVerifier.Register

/-! ### Field types -/

/-- A type with a letter of its own. -/
inductive Primitive where
  | boolean
  | byte
  | short
  | char
  | int
  | float
  | long
  | double
  deriving DecidableEq, Repr

namespace Primitive

/-- The letter of a type. -/
def letter : Primitive → Char
  | boolean => 'Z'
  | byte => 'B'
  | short => 'S'
  | char => 'C'
  | int => 'I'
  | float => 'F'
  | long => 'J'
  | double => 'D'

/-- What the type is declared to be. -/
def type : Primitive → DeclaredType
  | boolean | byte | short | char | int => .int
  | float => .float
  | long => .long
  | double => .double

theorem type_ne_void (p : Primitive) : p.type ≠ .void := by cases p <;> decide

theorem typeOfLetter_letter (p : Primitive) : typeOfLetter (asciiByte p.letter) = .ok p.type := by
  cases p <;> decide

/-- The letters are no marks of a descriptor. -/
theorem letter_ne (p : Primitive) : asciiByte p.letter ≠ asciiByte '[' ∧
    asciiByte p.letter ≠ asciiByte 'L' ∧ asciiByte p.letter ≠ asciiByte ')' := by
  cases p <;> decide

theorem letter_inj {p q : Primitive} (h : asciiByte p.letter = asciiByte q.letter) : p = q := by
  revert h
  cases p <;> cases q <;> decide

end Primitive

/-- A field type whose class name, if any, has none of the given bytes. -/
inductive FieldType (stops : List UInt8) where
  | primitive (p : Primitive)
  | object (name : List UInt8) (free : ∀ b ∈ stops, b ∉ name)
  | array (element : FieldType stops)

namespace FieldType

variable {stops : List UInt8}

/-- How a field type is written. -/
def bytes : FieldType stops → List UInt8
  | primitive p => [asciiByte p.letter]
  | object name _ => asciiByte 'L' :: (name ++ [asciiByte ';'])
  | array element => asciiByte '[' :: element.bytes

/-- What the type is declared to be. -/
def type : FieldType stops → DeclaredType
  | primitive p => p.type
  | object _ _ | array _ => .reference

theorem type_ne_void (t : FieldType stops) : t.type ≠ .void := by
  cases t with
  | primitive p => exact p.type_ne_void
  | object name free => exact nofun
  | array element => exact nofun

/-- Only a class name could have a parenthesis. -/
theorem rightParenthesis_notMem_bytes (h : asciiByte ')' ∈ stops) (t : FieldType stops) :
    asciiByte ')' ∉ t.bytes := by
  induction t with
  | primitive p =>
      simpa [bytes] using p.letter_ne.2.2.symm
  | object name free =>
      have hmarks : asciiByte ')' ≠ asciiByte 'L' ∧ asciiByte ')' ≠ asciiByte ';' := by decide
      simp [bytes, free _ h, hmarks]
  | array element ih =>
      have hmark : asciiByte ')' ≠ asciiByte '[' := by decide
      simp [bytes, ih, hmark]

end FieldType

/-! ### Marks -/

section Mark

variable {mark : UInt8} {before : List UInt8}

theorem bne_mark (h : mark ∉ before) : ∀ b ∈ before, (b != mark) = true :=
  fun _ hb => bne_iff_ne.2 fun e => h (e ▸ hb)

theorem takeWhile_mark (h : mark ∉ before) (rest : List UInt8) :
    (before ++ mark :: rest).takeWhile (· != mark) = before := by
  simp [List.takeWhile_append_of_pos (bne_mark h)]

theorem dropWhile_mark (h : mark ∉ before) (rest : List UInt8) :
    (before ++ mark :: rest).dropWhile (· != mark) = mark :: rest := by
  simp [List.dropWhile_append_of_pos (bne_mark h)]

theorem mark_notMem_takeWhile (mark : UInt8) (text : List UInt8) :
    mark ∉ text.takeWhile (· != mark) := by
  intro h
  have hne := List.mem_takeWhile_imp h
  simp at hne

theorem eq_append_mark {text rest : List UInt8} {b : UInt8}
    (h : text.dropWhile (· != mark) = b :: rest) :
    text = text.takeWhile (· != mark) ++ mark :: rest := by
  have hb : b = mark := by
    have hhead := List.head?_dropWhile_not (· != mark) text
    rw [h] at hhead
    simpa using hhead
  rw [hb] at h
  rw [← h, List.takeWhile_append_dropWhile]

/-- A text is cut at its first mark in one way only. -/
theorem append_mark_inj {before' rest rest' : List UInt8} (h : mark ∉ before)
    (h' : mark ∉ before') (e : before ++ mark :: rest = before' ++ mark :: rest') :
    before = before' ∧ rest = rest' := by
  have hdrop := dropWhile_mark h rest
  rw [e, dropWhile_mark h'] at hdrop
  refine ⟨?_, (List.cons.inj hdrop).2.symm⟩
  rw [← takeWhile_mark h rest, e, takeWhile_mark h']

end Mark

/-! ### Reading a field type -/

theorem eq_asciiByte {b : UInt8} {c : Char} (h : Char.ofNat b.toNat = c) : b = asciiByte c := by
  have hvalid : b.toNat.isValidChar := .inl (Nat.lt_trans b.toNat_lt (by decide))
  rw [← h, asciiByte, Char.ofNat, dif_pos hvalid]
  exact UInt8.ofNat_toNat.symm

/-- The letters which name types. -/
theorem typeOfLetter_eq_ok {b : UInt8} {type : DeclaredType} (h : typeOfLetter b = .ok type) :
    b = asciiByte 'V' ∧ type = .void ∨ (∃ p : Primitive, b = asciiByte p.letter ∧ type = p.type) ∨
      (b = asciiByte 'L' ∨ b = asciiByte '[') ∧ type = .reference := by
  unfold typeOfLetter at h
  split at h
  · next t ht =>
      cases h
      unfold DeclaredType.ofLetter? at ht
      have hprimitive (p : Primitive) (hb : Char.ofNat b.toNat = p.letter)
          (hp : some p.type = some type) :
          ∃ p : Primitive, b = asciiByte p.letter ∧ type = p.type :=
        ⟨p, eq_asciiByte hb, (Option.some.inj hp).symm⟩
      split at ht
      · next hb => exact .inl ⟨eq_asciiByte hb, (Option.some.inj ht).symm⟩
      · next hb => exact .inr (.inl (hprimitive .boolean hb ht))
      · next hb => exact .inr (.inl (hprimitive .byte hb ht))
      · next hb => exact .inr (.inl (hprimitive .short hb ht))
      · next hb => exact .inr (.inl (hprimitive .char hb ht))
      · next hb => exact .inr (.inl (hprimitive .int hb ht))
      · next hb => exact .inr (.inl (hprimitive .float hb ht))
      · next hb => exact .inr (.inl (hprimitive .long hb ht))
      · next hb => exact .inr (.inl (hprimitive .double hb ht))
      · next hb => exact .inr (.inr ⟨.inl (eq_asciiByte hb), (Option.some.inj ht).symm⟩)
      · next hb => exact .inr (.inr ⟨.inr (eq_asciiByte hb), (Option.some.inj ht).symm⟩)
      · cases ht
  · cases h

theorem afterLetter_of_ne {b : UInt8} (text : List UInt8) (h : b ≠ asciiByte 'L') :
    afterLetter b text = .ok text :=
  if_neg h

/-- A class name ends at the first `;`. -/
theorem afterLetter_object {name : List UInt8} (h : asciiByte ';' ∉ name) (rest : List UInt8) :
    afterLetter (asciiByte 'L') (name ++ asciiByte ';' :: rest) = .ok rest := by
  rw [afterLetter, if_pos rfl, dropWhile_mark h]

theorem exists_object_of_afterLetter {text rest : List UInt8}
    (h : afterLetter (asciiByte 'L') text = .ok rest) :
    ∃ name, asciiByte ';' ∉ name ∧ text = name ++ asciiByte ';' :: rest := by
  rw [afterLetter, if_pos rfl] at h
  split at h
  · cases h
  · next hdrop =>
      cases h
      exact ⟨_, mark_notMem_takeWhile _ _, eq_append_mark hdrop⟩

/-- A letter is read with what belongs to it. -/
theorem readField_letter {b : UInt8} (text : List UInt8) (h : b ≠ asciiByte '[') :
    readField (b :: text) =
      typeOfLetter b >>= fun type => afterLetter b text >>= fun rest => .ok (type, rest) := by
  simp [readField, h]

/-- A bracket makes an array of the type after it. -/
theorem readField_bracket (text : List UInt8) :
    readField (asciiByte '[' :: text) = readField text >>= fun p =>
      if p.1 = .void then .error .arrayOfVoid else .ok (.reference, p.2) := by
  unfold readField
  simp only [List.dropWhile_cons, beq_self_eq_true, if_true, List.head?_cons]
  cases text.dropWhile (· == asciiByte '[') with
  | nil => rfl
  | cons letter following =>
      cases htype : typeOfLetter letter with
      | error e => simp [htype, bind, Except.bind]
      | ok type =>
          cases hrest : afterLetter letter following with
          | error e => simp [htype, hrest, bind, Except.bind]
          | ok rest =>
              -- Whether a bracket was there before makes no difference but to a void.
              by_cases hhead : text.head? = some (asciiByte '[') <;>
                by_cases hvoid : type = .void <;>
                simp [htype, hrest, hhead, hvoid, bind, Except.bind]

section Field

variable {stops : List UInt8}

/-- **A field type is read as it is written**, and what follows is left. -/
theorem readField_bytes (hstops : asciiByte ';' ∈ stops) (t : FieldType stops)
    (rest : List UInt8) : readField (t.bytes ++ rest) = .ok (t.type, rest) := by
  induction t with
  | primitive p =>
      rw [FieldType.bytes, List.singleton_append, readField_letter _ p.letter_ne.1,
        p.typeOfLetter_letter, afterLetter_of_ne _ p.letter_ne.2.1]
      rfl
  | object name free =>
      rw [FieldType.bytes, List.cons_append, List.append_assoc, readField_letter _ (by decide),
        show typeOfLetter (asciiByte 'L') = .ok .reference by decide, List.singleton_append,
        afterLetter_object (free _ hstops)]
      rfl
  | array element ih =>
      rw [FieldType.bytes, List.cons_append, readField_bracket, ih]
      exact if_neg element.type_ne_void

/-- **Nothing else is read** but `V`, from a text which has no other stop than `;`. -/
theorem readField_cases {text rest : List UInt8} {type : DeclaredType}
    (hstops : ∀ b ∈ stops, b = asciiByte ';' ∨ b ∉ text)
    (h : readField text = .ok (type, rest)) :
    text = asciiByte 'V' :: rest ∧ type = .void ∨
      ∃ t : FieldType stops, text = t.bytes ++ rest ∧ type = t.type := by
  induction text generalizing type with
  | nil => cases h
  | cons b text ih =>
      by_cases hb : b = asciiByte '['
      · subst hb
        rw [readField_bracket] at h
        obtain ⟨⟨element, rest'⟩, hread, h⟩ := exists_of_bind_eq_ok h
        dsimp only at h
        split at h
        · cases h
        · next hvoid =>
            cases h
            have hstops' : ∀ b ∈ stops, b = asciiByte ';' ∨ b ∉ text := fun b hb =>
              (hstops b hb).imp id fun hnot hmem => hnot (List.mem_cons_of_mem _ hmem)
            rcases ih hstops' hread with ⟨-, hv⟩ | ⟨t, rfl, -⟩
            · exact absurd hv hvoid
            · exact .inr ⟨.array t, rfl, rfl⟩
      · rw [readField_letter _ hb] at h
        obtain ⟨type', htype, h⟩ := exists_of_bind_eq_ok h
        obtain ⟨rest', hrest, h⟩ := exists_of_bind_eq_ok h
        cases h
        rcases typeOfLetter_eq_ok htype with ⟨rfl, rfl⟩ | ⟨p, rfl, rfl⟩ | ⟨rfl | rfl, rfl⟩
        · rw [afterLetter_of_ne _ (by decide)] at hrest
          cases hrest
          exact .inl ⟨rfl, rfl⟩
        · rw [afterLetter_of_ne _ p.letter_ne.2.1] at hrest
          cases hrest
          exact .inr ⟨.primitive p, rfl, rfl⟩
        · obtain ⟨name, hname, rfl⟩ := exists_object_of_afterLetter hrest
          refine .inr ⟨.object name fun b hb hmem => ?_, by simp [FieldType.bytes], rfl⟩
          rcases hstops b hb with rfl | hnot
          · exact hname hmem
          · exact hnot (by simp [hmem])
        · exact absurd rfl hb

/-- One field type is the start of a text in one way only. -/
theorem FieldType.bytes_append_inj (hstops : asciiByte ';' ∈ stops) {t u : FieldType stops}
    {rest rest' : List UInt8} (h : t.bytes ++ rest = u.bytes ++ rest') : t = u ∧ rest = rest' := by
  have hmarks : asciiByte 'L' ≠ asciiByte '[' := by decide
  induction t generalizing u with
  | primitive p =>
      cases u with
      | primitive q =>
          obtain ⟨hletter, hrest⟩ := List.cons.inj h
          exact ⟨congrArg _ (Primitive.letter_inj hletter), hrest⟩
      | object name free => exact absurd (List.cons.inj h).1 p.letter_ne.2.1
      | array element => exact absurd (List.cons.inj h).1 p.letter_ne.1
  | object name free =>
      cases u with
      | primitive q => exact absurd (List.cons.inj h).1.symm q.letter_ne.2.1
      | object name' free' =>
          have htail := (List.cons.inj h).2
          simp only [List.append_eq, List.append_assoc, List.singleton_append] at htail
          obtain ⟨rfl, hrest⟩ := append_mark_inj (free _ hstops) (free' _ hstops) htail
          exact ⟨rfl, hrest⟩
      | array element => exact absurd (List.cons.inj h).1 hmarks
  | array element ih =>
      cases u with
      | primitive q => exact absurd (List.cons.inj h).1.symm q.letter_ne.1
      | object name free => exact absurd (List.cons.inj h).1.symm hmarks
      | array element' =>
          obtain ⟨rfl, hrest⟩ := ih (List.cons.inj h).2
          exact ⟨rfl, hrest⟩

theorem FieldType.bytes_ne_nil (t : FieldType stops) : t.bytes ≠ [] := by
  cases t <;> exact nofun

end Field

/-! ### Descriptors -/

/-- A parameter: its class name ends before the parenthesis. -/
abbrev ParameterType := FieldType [asciiByte ';', asciiByte ')']

/-- A result other than void. -/
abbrev ResultType := FieldType [asciiByte ';']

/-- The parts of a descriptor; without a result type the method is void. -/
structure Descriptor where
  parameters : List ParameterType
  result : Option ResultType

namespace Descriptor

/-- How the parameters are written. -/
def parameterBytes (ts : List ParameterType) : List UInt8 := ts.flatMap FieldType.bytes

/-- How a result is written. -/
def resultBytes : Option ResultType → List UInt8
  | none => [asciiByte 'V']
  | some t => t.bytes

/-- The type of a result. -/
def resultType : Option ResultType → DeclaredType
  | none => .void
  | some t => t.type

/-- How a descriptor is written. -/
def bytes (d : Descriptor) : List UInt8 :=
  asciiByte '(' :: (parameterBytes d.parameters ++ asciiByte ')' :: resultBytes d.result)

/-- What a descriptor declares. -/
def signature (d : Descriptor) : Signature :=
  ⟨d.parameters.map FieldType.type, resultType d.result⟩

theorem rightParenthesis_notMem (ts : List ParameterType) :
    asciiByte ')' ∉ parameterBytes ts := by
  rw [parameterBytes, List.mem_flatMap]
  rintro ⟨t, -, hmem⟩
  exact t.rightParenthesis_notMem_bytes (by simp) hmem

/-! ### Reading a descriptor -/

theorem readField_void (rest : List UInt8) :
    readField (asciiByte 'V' :: rest) = .ok (.void, rest) := by
  rw [readField_letter _ (by decide), show typeOfLetter (asciiByte 'V') = .ok .void by decide,
    afterLetter_of_ne _ (by decide)]
  rfl

/-- **The parameters are read one after another, to the end.** -/
theorem readArguments_parameterBytes (ts : List ParameterType) :
    readArguments (parameterBytes ts) = .ok (ts.map FieldType.type) := by
  induction ts with
  | nil => rw [parameterBytes, List.flatMap_nil, readArguments]; rfl
  | cons t ts ih =>
      have hread := readField_bytes (by simp) t (parameterBytes ts)
      have hne : ¬(t.bytes ++ parameterBytes ts).isEmpty := by
        simp [t.bytes_ne_nil]
      rw [show parameterBytes (t :: ts) = t.bytes ++ parameterBytes ts from rfl, readArguments,
        if_neg hne]
      split
      · next e herror => rw [hread] at herror; cases herror
      · next type rest hok =>
          rw [hread] at hok
          cases hok
          rw [if_neg t.type_ne_void, ih]
          rfl

/-- A text without `)` is read as parameters only if it is some. -/
theorem exists_parameters {text : List UInt8} {types : List DeclaredType}
    (hmark : asciiByte ')' ∉ text) (h : readArguments text = .ok types) :
    ∃ ts : List ParameterType, text = parameterBytes ts ∧ types = ts.map FieldType.type := by
  fun_induction readArguments text generalizing types with
  | case1 text hempty =>
      cases h
      exact ⟨[], List.isEmpty_iff.1 hempty, rfl⟩
  | case2 => cases h
  | case3 => cases h
  | case4 text hne type rest hread hvoid ih =>
      have hstops : ∀ b ∈ [asciiByte ';', asciiByte ')'], b = asciiByte ';' ∨ b ∉ text := by
        simp [hmark]
      rcases readField_cases hstops hread with ⟨-, hv⟩ | ⟨t, rfl, rfl⟩
      · exact absurd hv hvoid
      · cases hrest : readArguments rest with
        | error e => rw [hrest] at h; cases h
        | ok others =>
            obtain ⟨ts, rfl, rfl⟩ := ih (fun hmem => hmark (List.mem_append_right _ hmem)) hrest
            rw [hrest] at h
            cases h
            exact ⟨t :: ts, rfl, rfl⟩

theorem readResult_resultBytes (r : Option ResultType) :
    readResult (resultBytes r) = .ok (resultType r) := by
  cases r with
  | none => rw [readResult, resultBytes, readField_void]; rfl
  | some t =>
      rw [readResult, resultBytes, ← List.append_nil t.bytes, readField_bytes (by simp)]
      rfl

theorem exists_result {text : List UInt8} {type : DeclaredType}
    (h : readResult text = .ok type) :
    ∃ r : Option ResultType, text = resultBytes r ∧ type = resultType r := by
  unfold readResult at h
  split at h
  · cases h
  · next type' rest hread =>
      split at h
      · next hempty =>
          cases h
          cases List.isEmpty_iff.1 hempty
          have hstops : ∀ b ∈ [asciiByte ';'], b = asciiByte ';' ∨ b ∉ text := by simp
          rcases readField_cases hstops hread with ⟨rfl, rfl⟩ | ⟨t, rfl, rfl⟩
          · exact ⟨none, rfl, rfl⟩
          · exact ⟨some t, List.append_nil _, rfl⟩
      · cases h

theorem resultBytes_ne_nil (r : Option ResultType) : resultBytes r ≠ [] := by
  cases r with
  | none => exact nofun
  | some t => exact t.bytes_ne_nil

theorem ofBytes_bytes (d : Descriptor) : Signature.ofBytes d.bytes = .ok d.signature := by
  have hmark := rightParenthesis_notMem d.parameters
  obtain ⟨b, following, hresult⟩ := List.exists_cons_of_ne_nil (resultBytes_ne_nil d.result)
  rw [bytes, Signature.ofBytes, if_pos rfl, dropWhile_mark hmark, takeWhile_mark hmark, hresult]
  dsimp only
  rw [← hresult, readArguments_parameterBytes, readResult_resultBytes]
  rfl

theorem exists_descriptor {text : List UInt8} {s : Signature}
    (h : Signature.ofBytes text = .ok s) : ∃ d : Descriptor, d.bytes = text ∧ d.signature = s := by
  unfold Signature.ofBytes at h
  split at h
  · cases h
  · next b body =>
      split at h
      · next hb =>
          split at h
          · next hdrop =>
              obtain ⟨types, harguments, h⟩ := exists_of_bind_eq_ok h
              obtain ⟨type, hresult, h⟩ := exists_of_bind_eq_ok h
              cases h
              obtain ⟨ts, hts, rfl⟩ := exists_parameters (mark_notMem_takeWhile _ _) harguments
              obtain ⟨r, hr, rfl⟩ := exists_result hresult
              refine ⟨⟨ts, r⟩, ?_, rfl⟩
              rw [bytes, ← hts, ← hr, ← eq_append_mark hdrop, hb]
          · cases h
      · cases h

/-! ### One reading -/

theorem parameterBytes_injective : Function.Injective parameterBytes := by
  intro ts us h
  induction ts generalizing us with
  | nil =>
      cases us with
      | nil => rfl
      | cons u us => exact absurd (List.append_eq_nil_iff.1 h.symm).1 u.bytes_ne_nil
  | cons t ts ih =>
      cases us with
      | nil => exact absurd (List.append_eq_nil_iff.1 h).1 t.bytes_ne_nil
      | cons u us =>
          obtain ⟨rfl, hrest⟩ := FieldType.bytes_append_inj (by simp) h
          rw [ih hrest]

theorem resultBytes_injective : Function.Injective resultBytes := by
  intro r r' h
  have htype : resultType r = resultType r' := by
    have hread := readResult_resultBytes r
    rw [h, readResult_resultBytes] at hread
    exact (Except.ok.inj hread).symm
  -- Only a void result has the type void, so its letter starts no field type.
  cases r with
  | none =>
      cases r' with
      | none => rfl
      | some t => exact absurd htype.symm t.type_ne_void
  | some t =>
      cases r' with
      | none => exact absurd htype t.type_ne_void
      | some u =>
          have hbytes : t.bytes ++ [] = u.bytes ++ [] := congrArg (· ++ []) h
          rw [(FieldType.bytes_append_inj (by simp) hbytes).1]

theorem bytes_injective : Function.Injective bytes := by
  intro d d' h
  obtain ⟨hparameters, hresult⟩ := append_mark_inj (rightParenthesis_notMem _)
    (rightParenthesis_notMem _) (List.cons.inj h).2
  obtain ⟨ts, r⟩ := d
  obtain ⟨us, r'⟩ := d'
  cases parameterBytes_injective hparameters
  cases resultBytes_injective hresult
  rfl

/-- **A text is read as a signature just when it is a descriptor which declares that signature, and
it is a descriptor in one way only.** -/
theorem ofBytes_grammar :
    (∀ text s, Signature.ofBytes text = .ok s ↔
      ∃ d : Descriptor, d.bytes = text ∧ d.signature = s) ∧ Function.Injective bytes := by
  refine ⟨fun text s => ⟨exists_descriptor, ?_⟩, bytes_injective⟩
  rintro ⟨d, rfl, rfl⟩
  exact ofBytes_bytes d

-- A parenthesis may stand in the class name of a result, but not of a parameter.
example : Signature.ofDescriptor "([IJ)La)b;" = .ok ⟨[.reference, .long], .reference⟩ := by
  decide +kernel

example : Signature.ofDescriptor "(La)b;)V" = .error (.field .unterminatedClass) := by
  decide +kernel

end Descriptor

end BytecodeVerifier.Register
