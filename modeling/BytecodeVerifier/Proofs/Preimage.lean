import BytecodeVerifier.Fingerprint
import BytecodeVerifier.Proofs.Mnemonic
import Mathlib.Data.Nat.Digits.Lemmas

/-!
# Preimages — what a fingerprint is taken of says what the method is

The elements of a method are one flat sequence, in which numbers, literals and texts look alike.
**The sequence is unambiguous** (`elements_unambiguous`): two methods with the same elements differ
in their names only, and no sequence of elements goes on from another.

Two things make it so.  No two things written in the same place give the same element, because
words, lengths, literals and short texts are told apart even modulo the order of the field.  And
everything written is *delimited* (`Delimits`): where it ends can be told whatever follows it.  A
list is delimited because its length comes first (`Delimits.counted`), and so are instructions,
which hold lists, and methods, which hold lists of instructions.

Lengths are told apart only if they can be counted in 64 bits; longer lists have no room in memory.
-/

namespace BytecodeVerifier

/-! ### Elements -/

/-- The bytes of an array, listed from a place on. -/
theorem toList_loop_eq (bytes : ByteArray) (i : Nat) (before : List UInt8) :
    ByteArray.toList.loop bytes i before = before.reverse ++ bytes.data.toList.drop i := by
  fun_induction ByteArray.toList.loop bytes i before with
  | case1 i before h ih =>
      have hi : i < bytes.data.toList.length := h
      have hget : bytes.get! i = bytes.data.toList.get ⟨i, hi⟩ :=
        getElem!_pos bytes.data i h
      rw [ih, List.drop_eq_getElem_cons (i := i) hi, List.reverse_cons, List.append_assoc, hget]
      rfl
  | case2 i before h =>
      have hi : bytes.data.toList.length ≤ i := Nat.le_of_not_lt h
      rw [List.drop_eq_nil_of_le hi, List.append_nil]

/-- A text is given by its bytes. -/
theorem eq_of_bytes_eq {s t : String} (h : s.toUTF8.toList = t.toUTF8.toList) : s = t := by
  rw [ByteArray.toList, ByteArray.toList, toList_loop_eq, toList_loop_eq] at h
  exact String.toByteArray_inj.mp (ByteArray.ext (Array.toList_inj.mp h))

namespace Fingerprint

theorem ofBytes_eq_ofDigits (bytes : List UInt8) :
    Mimc.ofBytes bytes = Nat.ofDigits 256 (bytes.reverse.map UInt8.toNat) := by
  unfold Mimc.ofBytes
  rw [← List.foldr_reverse, Nat.ofDigits_eq_foldr, List.foldr_map]
  congr
  funext b n
  simp only [Nat.cast_id]
  omega

theorem lt_of_mem_digits (bytes : List UInt8) :
    ∀ d ∈ bytes.reverse.map UInt8.toNat, d < 256 := by
  simp only [List.mem_map]
  rintro _ ⟨b, -, rfl⟩
  exact b.toNat_lt

theorem ofBytes_lt (bytes : List UInt8) : Mimc.ofBytes bytes < 256 ^ bytes.length := by
  have hlt := Nat.ofDigits_lt_base_pow_length (by decide) (lt_of_mem_digits bytes)
  rwa [← ofBytes_eq_ofDigits, List.length_map, List.length_reverse] at hlt

/-- The digits in base 256 are the bytes, unless some are lost because they are leading zeros. -/
theorem digits_ofBytes {bytes : List UInt8} (h : bytes.head? ≠ some 0) :
    Nat.digits 256 (Mimc.ofBytes bytes) = bytes.reverse.map UInt8.toNat := by
  rw [ofBytes_eq_ofDigits]
  refine Nat.digits_ofDigits 256 (by decide) _ (lt_of_mem_digits bytes) fun hne => ?_
  cases bytes with
  | nil => exact absurd rfl hne
  | cons b bytes =>
      have hb : b ≠ 0 := fun hz => h (congrArg some hz)
      simpa using fun hz : b.toNat = 0 => hb (UInt8.toNat_inj.mp hz)

/-- A text of fewer than 32 bytes, which does not start with a zero: it fits one element. -/
def Short (text : String) : Prop :=
  text.toUTF8.toList.length < 32 ∧ text.toUTF8.toList.head? ≠ some 0

instance (text : String) : Decidable (Short text) := inferInstanceAs (Decidable (_ ∧ _))

/-- A short text is not reduced by the order of the field. -/
theorem ofText_of_short {text : String} (h : Short text) :
    ofText text = Mimc.ofBytes text.toUTF8.toList := by
  refine Nat.mod_eq_of_lt ?_
  calc Mimc.ofBytes text.toUTF8.toList
      < 256 ^ text.toUTF8.toList.length := ofBytes_lt _
    _ ≤ 256 ^ 31 := Nat.pow_le_pow_right (by decide) (Nat.le_of_lt_succ h.1)
    _ ≤ Mimc.order := by decide

/-- **Short texts are told apart by their elements.** -/
theorem eq_of_ofText_eq {s t : String} (hs : Short s) (ht : Short t) (h : ofText s = ofText t) :
    s = t := by
  rw [ofText_of_short hs, ofText_of_short ht] at h
  have hdigits := congrArg (Nat.digits 256) h
  rw [digits_ofBytes hs.2, digits_ofBytes ht.2] at hdigits
  have hmap : Function.Injective (List.map UInt8.toNat) :=
    List.map_injective_iff.mpr fun _ _ => UInt8.toNat_inj.mp
  exact eq_of_bytes_eq (List.reverse_injective (hmap hdigits))

theorem eq_of_ofWord_eq {m n : UInt64} (h : ofWord m = ofWord n) : m = n := by
  have hm : m.toNat < 2 ^ 64 := m.toNat_lt
  have hn : n.toNat < 2 ^ 64 := n.toNat_lt
  unfold ofWord Mimc.order at h
  exact UInt64.toNat_inj.mp (by omega)

/-- Literals are told apart although the negative ones count from the order of the field. -/
theorem eq_of_ofLiteral_eq {m n : Int64} (h : ofLiteral m = ofLiteral n) : m = n := by
  have hm := m.toInt_lt
  have hm' := m.le_toInt
  have hn := n.toInt_lt
  have hn' := n.le_toInt
  unfold ofLiteral Mimc.order at h
  exact Int64.toInt_inj.mp (by omega)

theorem eq_of_ofLength_eq {m n : Nat} (hm : m < UInt64.size) (hn : n < UInt64.size)
    (h : ofLength m = ofLength n) : m = n := by
  unfold ofLength Mimc.order at h
  unfold UInt64.size at hm hn
  omega

/-! ### Delimited codes -/

/-- What is written for `a`, if it has the property, can be told from what follows. -/
def Delimits {α : Type} (P : α → Prop) (code : α → List Nat) : Prop :=
  ∀ ⦃a b : α⦄, P a → P b → ∀ ⦃s t : List Nat⦄, code a ++ s = code b ++ t → a = b ∧ s = t

namespace Delimits

variable {α : Type} {P : α → Prop} {code : α → List Nat}

/-- One element is delimited if it tells things apart. -/
theorem single {element : α → Nat}
    (h : ∀ ⦃a b : α⦄, P a → P b → element a = element b → a = b) :
    Delimits P fun a => [element a] := by
  intro a b ha hb s t e
  obtain ⟨he, hst⟩ := List.cons.inj e
  exact ⟨h ha hb he, hst⟩

/-- As many things as are known to come are delimited together. -/
theorem flatMap_inj (h : Delimits P code) {as bs : List α} (ha : ∀ a ∈ as, P a)
    (hb : ∀ b ∈ bs, P b) (hlen : as.length = bs.length) {s t : List Nat}
    (e : as.flatMap code ++ s = bs.flatMap code ++ t) : as = bs ∧ s = t := by
  induction as generalizing bs with
  | nil =>
      obtain rfl := List.length_eq_zero_iff.mp hlen.symm
      exact ⟨rfl, e⟩
  | cons a as ih =>
      cases bs with
      | nil => cases hlen
      | cons b bs =>
          rw [List.flatMap_cons, List.flatMap_cons, List.append_assoc, List.append_assoc] at e
          obtain ⟨rfl, hrest⟩ := h (ha a List.mem_cons_self) (hb b List.mem_cons_self) e
          obtain ⟨rfl, hst⟩ := ih (fun c hc => ha c (List.mem_cons_of_mem _ hc))
            (fun c hc => hb c (List.mem_cons_of_mem _ hc)) (Nat.succ.inj hlen) hrest
          exact ⟨rfl, hst⟩

/-- **A list after its length is delimited**, if the length can be counted in 64 bits and what is
written for its members is delimited. -/
theorem counted (h : Delimits P code) :
    Delimits (fun as : List α => as.length < UInt64.size ∧ ∀ a ∈ as, P a)
      fun as => ofLength as.length :: as.flatMap code := by
  intro as bs ⟨hlen, ha⟩ ⟨hlen', hb⟩ s t e
  obtain ⟨hcount, e⟩ := List.cons.inj e
  exact h.flatMap_inj ha hb (eq_of_ofLength_eq hlen hlen' hcount) e

/-- As `counted`, where one element is written for each member. -/
theorem counted_map {element : α → Nat} (h : ∀ ⦃a b : α⦄, element a = element b → a = b) :
    Delimits (fun as : List α => as.length < UInt64.size)
      fun as => ofLength as.length :: as.map element := by
  intro as bs hlen hlen' s t e
  have hone : Delimits (fun _ => True) fun a => [element a] := single fun _ _ _ _ he => h he
  simp only [List.map_eq_flatMap] at e
  exact hone.counted ⟨hlen, fun _ _ => trivial⟩ ⟨hlen', fun _ _ => trivial⟩ e

end Delimits

end Fingerprint

/-! ### Methods -/

/-- An instruction of the instruction set, whose lists can be counted in 64 bits. -/
structure Instruction.Standard (i : Instruction) : Prop where
  known : i.opcode ∈ Opcode.table
  registers : i.registers.length < UInt64.size
  targets : i.targets.length < UInt64.size

/-- A method over the instruction set, whose lists can be counted in 64 bits. -/
structure Method.Standard (m : Method) : Prop where
  parameters : m.registers.parameters.length < UInt64.size
  code : m.code.size < UInt64.size
  instructions : ∀ i ∈ m.code, i.Standard

/-- The methods differ in their names at most. -/
def Method.Resembles (m n : Method) : Prop :=
  m.registers.size = n.registers.size ∧ m.registers.parameters = n.registers.parameters ∧
    m.returns = n.returns ∧ m.code = n.code

namespace Fingerprint

/-- The names of types are told apart. -/
theorem eq_of_ofText_name_eq {t u : DeclaredType} (h : ofText t.name = ofText u.name) : t = u := by
  have short : ∀ t : DeclaredType, Short t.name := by
    intro t
    cases t <;> decide +kernel
  have hname := eq_of_ofText_eq (short t) (short u) h
  cases t <;> cases u <;> first | rfl | exact absurd hname (by decide)

/-- The mnemonics of the instruction set are told apart. -/
theorem eq_of_ofText_mnemonic_eq {op op' : Opcode} (h : op ∈ Opcode.table)
    (h' : op' ∈ Opcode.table) (e : ofText op.mnemonic = ofText op'.mnemonic) : op = op' := by
  have short : ∀ op ∈ Opcode.table, Short op.mnemonic := by decide +kernel
  exact Opcode.eq_of_mnemonic_eq h h' (eq_of_ofText_eq (short op h) (short op' h') e)

theorem delimits_parameter : Delimits (fun _ => True) ofParameter := by
  intro p q _ _ s t e
  obtain ⟨hslot, e₁⟩ := List.cons.inj e
  obtain ⟨htype, hst⟩ := List.cons.inj e₁
  obtain ⟨⟨slot⟩, type⟩ := p
  obtain rfl := eq_of_ofWord_eq hslot
  obtain rfl := eq_of_ofText_name_eq htype
  exact ⟨rfl, hst⟩

theorem delimits_instruction : Delimits Instruction.Standard ofInstruction := by
  intro i j hi hj s t e
  obtain ⟨op, rs, ts, n⟩ := i
  obtain ⟨op', rs', ts', n'⟩ := j
  have hregisters : Delimits (fun rs : List Register => rs.length < UInt64.size)
      fun rs => ofLength rs.length :: rs.map (ofWord ·.index) :=
    .counted_map fun ⟨_⟩ ⟨_⟩ he => congrArg Register.mk (eq_of_ofWord_eq he)
  have htargets : Delimits (fun ts : List UInt64 => ts.length < UInt64.size)
      fun ts => ofLength ts.length :: ts.map ofWord := .counted_map fun _ _ => eq_of_ofWord_eq
  simp only [ofInstruction, List.cons_append, List.append_assoc] at e
  obtain ⟨hop, e₁⟩ := List.cons.inj e
  obtain ⟨rfl, e₂⟩ := hregisters hi.registers hj.registers e₁
  obtain ⟨rfl, e₃⟩ := htargets hi.targets hj.targets e₂
  obtain ⟨hn, hst⟩ := List.cons.inj e₃
  obtain rfl := eq_of_ofText_mnemonic_eq hi.known hj.known hop
  obtain rfl := eq_of_ofLiteral_eq hn
  exact ⟨rfl, hst⟩

/-- What is written for a method is delimited, as far as it says what the method is. -/
theorem resembles_of_elements_append {m n : Method} (hm : m.Standard) (hn : n.Standard)
    {s t : List Nat} (e : elements m ++ s = elements n ++ t) : m.Resembles n ∧ s = t := by
  simp only [elements, List.cons_append, List.append_assoc] at e
  obtain ⟨hsize, e₁⟩ := List.cons.inj e
  obtain ⟨hparameters, e₂⟩ := delimits_parameter.counted
    ⟨hm.parameters, fun _ _ => trivial⟩ ⟨hn.parameters, fun _ _ => trivial⟩ e₁
  obtain ⟨hreturns, e₃⟩ := List.cons.inj e₂
  have hcode := fun k : Method => fun hk : k.Standard =>
    show k.code.toList.length < UInt64.size ∧ ∀ i ∈ k.code.toList, i.Standard from
      ⟨hk.code, fun i hi => hk.instructions i (Array.mem_toList_iff.mp hi)⟩
  obtain ⟨hinstructions, hst⟩ := delimits_instruction.counted (hcode m hm) (hcode n hn) e₃
  exact ⟨⟨eq_of_ofWord_eq hsize, hparameters, eq_of_ofText_name_eq hreturns,
    Array.toList_inj.mp hinstructions⟩, hst⟩

/-- The name is all that is not written. -/
theorem elements_of_resembles {m n : Method} (h : m.Resembles n) : elements m = elements n := by
  obtain ⟨hsize, hparameters, hreturns, hcode⟩ := h
  rw [elements, elements, hsize, hparameters, hreturns, hcode]

/-- **The elements of a method are unambiguous.**  Two methods over the instruction set have the
same elements just if they have the same registers, parameters, result and code; and no sequence of
elements is the beginning of another. -/
theorem elements_unambiguous {m n : Method} (hm : m.Standard) (hn : n.Standard) :
    (elements m = elements n ↔ m.Resembles n) ∧
      (elements m <+: elements n → elements m = elements n) := by
  refine ⟨⟨fun e => ?_, elements_of_resembles⟩, fun ⟨s, e⟩ => ?_⟩
  · exact (resembles_of_elements_append hm hn (congrArg (· ++ []) e)).1
  · exact elements_of_resembles
      (resembles_of_elements_append hm hn (e.trans (List.append_nil _).symm)).1

/-- A method which returns a literal. -/
def returning (literal : Int64) : Method where
  name := "returning"
  registers := ⟨1, [], rfl⟩
  returns := .int
  code := #[
    ⟨⟨"const/4", .const, [Opcode.writes .int]⟩, [⟨0⟩], [], literal⟩,
    ⟨⟨"return", .returnValue, [Opcode.reads .narrow]⟩, [⟨0⟩], [], 0⟩]

theorem standard_returning (literal : Int64) : (returning literal).Standard where
  parameters := (by decide : 0 < UInt64.size)
  code := (by decide : 2 < UInt64.size)
  instructions := by
    have hconst : ⟨"const/4", .const, [Opcode.writes .int]⟩ ∈ Opcode.table := by decide +kernel
    have hreturn : ⟨"return", .returnValue, [Opcode.reads .narrow]⟩ ∈ Opcode.table := by
      decide +kernel
    have hnone : 0 < UInt64.size := by decide
    have hone : 1 < UInt64.size := by decide
    simp only [returning, List.mem_toArray, List.forall_mem_cons]
    exact ⟨⟨hconst, hone, hnone⟩, ⟨hreturn, hone, hnone⟩, fun i hi => absurd hi List.not_mem_nil⟩

/-- A negative literal is not taken for a positive one, nor for what follows it. -/
theorem elements_returning : (returning 7).Standard ∧ (returning (-7)).Standard ∧
    ¬ elements (returning 7) <+: elements (returning (-7)) := by
  have h := elements_unambiguous (standard_returning 7) (standard_returning (-7))
  refine ⟨standard_returning 7, standard_returning (-7), fun hbegins => ?_⟩
  obtain ⟨-, -, -, hcode⟩ := h.1.mp (h.2 hbegins)
  exact absurd hcode (by decide)

end Fingerprint

end BytecodeVerifier
