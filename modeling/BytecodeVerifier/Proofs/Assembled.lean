import BytecodeVerifier.Proofs.Reading
import BytecodeVerifier.Proofs.Rejection

/-!
# Assembled — the form of every method which is assembled

Instructions, their spans and the labels of a method are gathered side by side, and targets are the
numbers of labels until all labels have been seen.  **Whatever the text, the methods it assembles to
are well formed** (`assemble_wellFormed`): their names differ, their instructions fit their opcodes,
their targets are positions of the code or its end, and each instruction has a span of its own, one
after the other and after the header.  All that such a method can still be rejected for before its
flow is followed is a register outside the file, or a target at the end of the code.

What is `Laid` along a body has three parts.  An instruction is constructed, so that it fits.  Its
span starts no sooner than the cursor stood before it, and stops where the cursor stands after it.
And no label is declared beyond the instructions read so far: every other step `Keeps` the positions
of the labels.
-/

namespace BytecodeVerifier

open ControlFlow

/-! ### Instructions which fit -/

/-- The instruction has a register for each operand, no target if it does not branch, and just one
if it jumps to one place. -/
structure Instruction.Fits (i : Instruction) : Prop where
  registers : i.registers.length = i.opcode.operands.length
  targets : i.opcode.branches = false → i.targets = []
  single : i.opcode.family ∈ [Family.goto, .ifCompare, .ifZero] → i.targets.length = 1

namespace Opcode

theorem branches_of_single {op : Opcode} (h : op.family ∈ [Family.goto, .ifCompare, .ifZero]) :
    op.branches = true ∧ op.family ≠ .switch := by
  unfold branches
  simp only [List.mem_cons, List.not_mem_nil, or_false] at h
  rcases h with h | h | h <;> rw [h] <;> decide

end Opcode

namespace Instruction

theorem Constructed.fits {i : Instruction} (h : i.Constructed) : i.Fits where
  registers := h.cases.1
  targets hb := by
    by_contra hts
    rw [branches_of_constructed h hts] at hb
    cases hb
  single hfamily := by
    obtain ⟨hb, hswitch⟩ := Opcode.branches_of_single hfamily
    rcases h.cases.2 with ⟨hl, -⟩ | ⟨-, -, hts⟩ | ⟨-, hb', -⟩
    · rw [Opcode.hasLiteral_of_branches hb] at hl
      cases hl
    · exact List.length_eq_one_iff.mpr (hts.resolve_left hswitch)
    · rw [hb] at hb'
      cases hb'

/-- What the structure of an instruction which fits can be at fault for: a register, or the other
half of a pair, outside the file, or a target at the end of the code. -/
inductive Overreaches (file : Register.File) (length : Nat) (i : Instruction) : Defect → Prop where
  | register {o : Operand} {r : Register} : (o, r) ∈ i.opcode.operands.zip i.registers →
      file.size.toNat ≤ r.toNat → i.Overreaches file length (.registerRange r file.size)
  | pair {o : Operand} {r : Register} : (o, r) ∈ i.opcode.operands.zip i.registers →
      o.constraint.isWide = true → r.toNat < file.size.toNat → file.size.toNat ≤ r.toNat + 1 →
      i.Overreaches file length (.pairRange r file.size)
  | target {t : UInt64} : t ∈ i.targets → t.toNat = length →
      i.Overreaches file length (.targetRange t length)

theorem Malformed.overreaches {file : Register.File} {length : Nat} {i : Instruction} {d : Defect}
    (h : i.Malformed file length d) (hfits : i.Fits) (hts : ∀ t ∈ i.targets, t.toNat ≤ length) :
    i.Overreaches file length d := by
  cases h with
  | arity hne => exact absurd hfits.registers hne
  | register hm hle => exact .register hm hle
  | pair hm hw hlt hle => exact .pair hm hw hlt hle
  | target ht hle => exact .target ht (Nat.le_antisymm (hts _ ht) hle)

end Instruction

/-! ### Methods which are well formed -/

/-- The instructions of a method fit, their targets are positions of the code or its end, and there
is a span for each of them, not empty and within the source, in order and after the header. -/
structure AssembledMethod.WellFormed (m : AssembledMethod) : Prop where
  fits : ∀ i ∈ m.method.code, i.Fits
  targets : ∀ i ∈ m.method.code, ∀ t ∈ i.targets, t.toNat ≤ m.method.code.size
  count : m.spans.size = m.method.code.size
  filled : ∀ s ∈ m.spans, 0 ≤ s.start ∧ s.start < s.stop ∧ s.stop ≤ m.source.length
  ordered : m.spans.toList.Pairwise fun s s' => s.stop ≤ s'.start
  header : ∀ s ∈ m.spans, m.header.stop ≤ s.start

/-- A method which is well formed has a graph unless an instruction overreaches. -/
theorem AssembledMethod.WellFormed.overreaches {m : AssembledMethod} (hm : m.WellFormed)
    {v : Violation} (h : Graph.build m.method.registers m.method.code = .error v) :
    ∃ pc i d, m.method.code[pc]? = some i ∧
      i.Overreaches m.method.registers m.method.code.size d ∧ v = .ofDefect pc d := by
  obtain ⟨pc, i, d, hi, hd, hv, -⟩ := build_eq_error h
  have hmem := Array.mem_of_getElem? hi
  exact ⟨pc, i, d, hi, hd.overreaches (hm.fits i hmem) (hm.targets i hmem), hv⟩

/-! ### Labels up to a position -/

theorem exists_of_forall₂_of_mem {α β : Type} {R : α → β → Prop} {as : List α} {bs : List β}
    (h : as.Forall₂ R bs) {b : β} (hb : b ∈ bs) : ∃ a ∈ as, R a b := by
  induction h with
  | nil => cases hb
  | @cons a b' _ _ hab _ ih =>
      rcases List.mem_cons.mp hb with rfl | hb
      · exact ⟨a, List.mem_cons_self, hab⟩
      · obtain ⟨a', ha', hR⟩ := ih hb
        exact ⟨a', List.mem_cons_of_mem a ha', hR⟩

namespace Assembly

namespace Labels

/-- No label has a position beyond `pc`. -/
def UpTo (pc : Nat) (ls : Labels) : Prop :=
  ∀ l ∈ ls.entries, ∀ p, l.position = some p → p.toNat ≤ pc

variable {ls : Labels} {pc pc' : Nat}

theorem upTo_empty (pc : Nat) : UpTo pc .empty := List.forall_mem_nil _

namespace UpTo

theorem mono (h : ls.UpTo pc) (hle : pc ≤ pc') : ls.UpTo pc' :=
  fun l hl p hp => Nat.le_trans (h l hl p hp) hle

theorem bind (h : ls.UpTo pc) (name : String) (span : Source.Span) :
    (ls.bind name span).2.UpTo pc := by
  intro l hl p hp
  rcases ls.mem_bind name span hl with hl | rfl
  · exact h l hl p hp
  · cases hp

theorem declare (h : ls.UpTo pc) {name : String} {span : Source.Span} {ls' : Labels}
    (hdeclare : ls.declare name (UInt64.ofNat pc) span = (true, ls')) : ls'.UpTo pc := by
  intro l hl p hp
  have hmem : l ∈ (ls.declare name (UInt64.ofNat pc) span).2.entries := by rwa [hdeclare]
  rcases ls.mem_declare _ _ _ (by rw [hdeclare]) hmem with ⟨-, hposition⟩ | ⟨-, hl⟩
  · rw [hposition, position?] at hp
    split at hp
    · cases hp
    · cases hp
      exact Nat.mod_le _ _
  · exact h l hl p hp

/-- The targets of a resolved instruction are positions of labels. -/
theorem targets (h : ls.UpTo pc) {i i' : Instruction} (hi : ls.Resolves i i') :
    ∀ t ∈ i'.targets, t.toNat ≤ pc := by
  obtain ⟨ts, rfl, hts⟩ := hi
  intro t ht
  obtain ⟨number, -, hposition⟩ := exists_of_forall₂_of_mem hts ht
  unfold positionOf at hposition
  split at hposition
  · next hlabel =>
      cases hposition
      exact h _ (List.mem_of_getElem? hlabel) t rfl
  · cases hposition

end UpTo

/-- An instruction fits with positions for its targets if it does with numbers. -/
theorem Resolves.fits {i i' : Instruction} (hi : ls.Resolves i i') (h : i.Fits) : i'.Fits := by
  obtain ⟨ts, rfl, hts⟩ := hi
  refine ⟨h.registers, fun hb => ?_, fun hfamily => ?_⟩
  · rw [h.targets hb] at hts
    exact List.forall₂_nil_left_iff.mp hts
  · exact hts.length_eq ▸ h.single hfamily

end Labels

open Cursor

variable {n pc : Nat} {c c' : Cursor} {α β : Type}

/-- If the step succeeds, no label which it leaves has a position beyond `pc`. -/
def Keeps (pc : Nat) : Except Failure (α × Cursor) → Prop
  | .ok (_, c) => c.labels.UpTo pc
  | .error _ => True

theorem Keeps.bind {x : Except Failure (α × Cursor)} {g : α × Cursor → Except Failure (β × Cursor)}
    (hx : Keeps pc x) (hg : ∀ a c', c'.labels.UpTo pc → Keeps pc (g (a, c'))) :
    Keeps pc (x >>= g) := by
  match x, hx with
  | .ok (a, c'), hc' => exact hg a c' hc'
  | .error e, _ => exact trivial

theorem Keeps.of_ok {x : Except Failure (α × Cursor)} {a : α} (hx : Keeps pc x)
    (h : x = .ok (a, c')) : c'.labels.UpTo pc := by
  rw [h] at hx
  exact hx

namespace Labels.UpTo

theorem keeps {x : Except Failure β} (hc : c.labels.UpTo pc) (f : β → α) :
    Keeps pc (x >>= fun b => .ok (f b, c)) := by
  cases x with
  | ok b => exact hc
  | error e => exact trivial

theorem take (hc : c.labels.UpTo pc) : Keeps pc c.take := by
  unfold Cursor.take
  split
  · exact trivial
  · exact hc

theorem expect (hc : c.labels.UpTo pc) (kind : TokenKind) : Keeps pc (c.expect kind) := by
  refine hc.take.bind fun t c' hc' => ?_
  dsimp only
  split
  · exact hc'
  · exact trivial

theorem register (hc : c.labels.UpTo pc) (file : Register.File) :
    Keeps pc (register file c) := by
  refine (hc.expect _).bind fun t c' hc' => ?_
  dsimp only
  split
  · exact hc'
  · exact trivial

theorem moreRegisters (hc : c.labels.UpTo pc) (file : Register.File) (os : List Operand) :
    Keeps pc (moreRegisters file os c) := by
  induction os generalizing c with
  | nil => exact hc
  | cons o os ih =>
      refine (hc.expect _).bind fun _ c₁ hc₁ => ?_
      refine (hc₁.register file).bind fun r c₂ hc₂ => ?_
      exact (ih hc₂).bind fun rs c₃ hc₃ => hc₃

theorem registers (hc : c.labels.UpTo pc) (file : Register.File) (os : List Operand) :
    Keeps pc (registers file os c) := by
  cases os with
  | nil => exact hc
  | cons o os =>
      refine (hc.register file).bind fun r c₁ hc₁ => ?_
      exact (hc₁.moreRegisters file os).bind fun rs c₂ hc₂ => hc₂

theorem number (hc : c.labels.UpTo pc) (negative : Bool) : Keeps pc (number negative c) := by
  refine (hc.expect _).bind fun t c' hc' => ?_
  dsimp only
  split
  · exact hc'
  · exact trivial

theorem literal (hc : c.labels.UpTo pc) : Keeps pc (literal c) := by
  refine hc.take.bind fun t c' hc' => ?_
  dsimp only
  split
  · exact hc'.number true
  · exact hc'
  · exact hc'
  · exact hc.number false

/-- A target adds a label at most, and that has no position yet. -/
theorem target (hc : c.labels.UpTo pc) : Keeps pc (target c) := by
  refine (hc.expect _).bind fun colon c₁ hc₁ => ?_
  refine (hc₁.expect _).bind fun name c₂ hc₂ => ?_
  dsimp only
  cases c₂.spanFrom colon.start with
  | ok span => exact hc₂.bind name.text span
  | error e => exact trivial

theorem moreTargets (hc : c.labels.UpTo pc) : Keeps pc (moreTargets c) := by
  fun_induction Assembly.moreTargets c with
  | case1 | case3 | case4 | case6 => exact trivial
  | case2 c t rest htake _ => exact hc.take.of_ok htake
  | case5 c t rest htake _ _ i rest₁ htarget is rest₂ hmore ih =>
      have hc₁ := (target (hc.take.of_ok htake)).of_ok htarget
      exact (ih hc₁).of_ok hmore

theorem targetTable (hc : c.labels.UpTo pc) : Keeps pc (targetTable c) := by
  refine (hc.expect _).bind fun _ c₁ hc₁ => ?_
  refine hc₁.take.bind fun t c' hc' => ?_
  dsimp only
  split
  · exact hc'
  · refine hc₁.target.bind fun i c₂ hc₂ => ?_
    exact hc₂.moreTargets.bind fun is c₃ hc₃ => hc₃

theorem separator (hc : c.labels.UpTo pc) (op : Opcode) : Keeps pc (separator op c) := by
  unfold Assembly.separator
  split
  · exact (hc.expect _).bind fun _ c' hc' => hc'
  · exact hc

theorem completion (hc : c.labels.UpTo pc) (op : Opcode) (rs : List Register) :
    Keeps pc (completion op rs c) := by
  unfold Assembly.completion
  split
  · exact hc.literal.bind fun m c' hc' => hc'.keeps id
  · split
    · exact hc.targetTable.bind fun ts c' hc' => hc'.keeps id
    · split
      · exact hc.target.bind fun t c' hc' => hc'.keeps id
      · exact hc.keeps id

theorem skipType (hc : c.labels.UpTo pc) (op : Opcode) : (skipType op c).labels.UpTo pc := by
  unfold Assembly.skipType
  split
  · split
    · split
      · exact hc
      · exact hc
    · exact hc
  · exact hc

theorem instruction (hc : c.labels.UpTo pc) (file : Register.File) :
    Keeps pc (instruction file c) := by
  refine (hc.expect _).bind fun mnemonic c₁ hc₁ => ?_
  dsimp only
  split
  · exact trivial
  · next op _ =>
      refine (hc₁.registers file op.operands).bind fun rs c₂ hc₂ => ?_
      refine (hc₂.separator op).bind fun _ c₃ hc₃ => ?_
      refine (hc₃.completion op rs).bind fun i c₄ hc₄ => ?_
      exact (hc₄.skipType op).keeps fun span => (i, span)

theorem label (hc : c.labels.UpTo pc) : Keeps pc (label pc c) := by
  refine (hc.expect _).bind fun colon c₁ hc₁ => ?_
  refine (hc₁.expect _).bind fun name c₂ hc₂ => ?_
  dsimp only
  cases c₂.spanFrom colon.start with
  | error e => exact trivial
  | ok span =>
      dsimp only [Bind.bind, Except.bind]
      split
      · next labels hdeclare => exact hc₂.declare hdeclare
      · exact trivial

theorem header (hc : c.labels.UpTo pc) : Keeps pc (header c) := by
  refine (hc.expect _).bind fun keyword c₁ hc₁ => ?_
  have hrest : Labels.UpTo pc { c₁ with rest := (modifiers c₁.rest).2 }.labels := hc₁
  refine (hrest.expect _).bind fun name c₂ hc₂ => ?_
  exact (hc₂.expect _).bind fun descriptor c₃ hc₃ => hc₃.keeps _

theorem registerFile (hc : c.labels.UpTo pc) (h : Header) : Keeps pc (registerFile h c) := by
  refine (hc.expect _).bind fun _ c₁ hc₁ => ?_
  refine (hc₁.expect _).bind fun count c₂ hc₂ => ?_
  dsimp only
  split
  · exact trivial
  · split
    · exact trivial
    · exact hc₂

theorem ending (hc : c.labels.UpTo pc) : Keeps pc (ending c) := by
  refine (hc.expect _).bind fun _ c₁ hc₁ => ?_
  refine (hc₁.expect _).bind fun word c₂ hc₂ => ?_
  dsimp only
  split
  · exact hc₂
  · exact trivial

end Labels.UpTo

/-! ### Statements -/

theorem eq_ok_of_orFault {x : Except Fault α} {a : α} (h : orFault x = .ok a) : x = .ok a := by
  cases x with
  | ok b => exact congrArg Except.ok (Except.ok.inj h)
  | error e => cases h

theorem eq_of_spanFrom {start : Nat} {span : Source.Span} (h : c.spanFrom start = .ok span) :
    span = ⟨start, c.last⟩ := by
  have hnew := eq_ok_of_orFault h
  unfold Source.Span.new at hnew
  split at hnew
  · exact (Except.ok.inj hnew).symm
  · cases hnew

/-- Every instruction which is read is constructed. -/
theorem constructed_of_completion {op : Opcode} {rs : List Register} {i : Instruction}
    (h : completion op rs c = .ok (i, c')) : i.Constructed := by
  unfold completion at h
  split at h
  · obtain ⟨⟨_, _⟩, -, h⟩ := exists_of_bind_eq_ok h
    obtain ⟨_, hi, h⟩ := exists_of_bind_eq_ok h
    cases h
    exact .literal (eq_ok_of_orFault hi)
  · split at h
    · obtain ⟨⟨_, _⟩, -, h⟩ := exists_of_bind_eq_ok h
      obtain ⟨_, hi, h⟩ := exists_of_bind_eq_ok h
      cases h
      exact .branch (eq_ok_of_orFault hi)
    · split at h
      · obtain ⟨⟨_, _⟩, -, h⟩ := exists_of_bind_eq_ok h
        obtain ⟨_, hi, h⟩ := exists_of_bind_eq_ok h
        cases h
        exact .branch (eq_ok_of_orFault hi)
      · obtain ⟨_, hi, h⟩ := exists_of_bind_eq_ok h
        cases h
        exact .plain (eq_ok_of_orFault hi)

/-- A span, not empty, lies between where one cursor stands and where another one does. -/
structure Cursor.Spans (c : Cursor) (s : Source.Span) (c' : Cursor) : Prop where
  start : c.last ≤ s.start
  filled : s.start < s.stop
  stop : s.stop = c'.last

/-- **An instruction which is read fits its opcode, and its span is what has been read.** -/
theorem Cursor.Sound.of_instruction (hc : c.Sound n) {file : Register.File} {i : Instruction}
    {s : Source.Span} (h : Assembly.instruction file c = .ok ((i, s), c')) :
    i.Fits ∧ c.Spans s c' := by
  obtain ⟨⟨mnemonic, c₁⟩, h₁, h⟩ := exists_of_bind_eq_ok h
  obtain ⟨hc₁, -, htook⟩ := (hc.expect (by decide)).of_ok h₁
  dsimp only at h
  split at h
  · cases h
  · next op _ =>
      obtain ⟨⟨rs, c₂⟩, h₂, h⟩ := exists_of_bind_eq_ok h
      obtain ⟨⟨_, c₃⟩, h₃, h⟩ := exists_of_bind_eq_ok h
      obtain ⟨⟨j, c₄⟩, h₄, h⟩ := exists_of_bind_eq_ok h
      obtain ⟨hc₂, hl₂, hrs⟩ := (hc₁.registers file op.operands).of_ok h₂
      obtain ⟨hc₃, hl₃, -⟩ := (hc₂.separator op).of_ok h₃
      obtain ⟨hc₄, hl₄, -⟩ := (hc₃.completion hrs).of_ok h₄
      have hl := hl₂.trans (hl₃.trans (hl₄.trans (hc₄.skipType op).2))
      obtain ⟨span, hspan, h⟩ := exists_of_bind_eq_ok h
      cases h
      cases eq_of_spanFrom hspan
      have hlast : mnemonic.start < (Assembly.skipType op c₄).last :=
        Nat.lt_of_lt_of_le htook.filled (htook.stop ▸ hl.last)
      exact ⟨(constructed_of_completion h₄).fits, Int.ofNat_le.mpr htook.start,
        Int.ofNat_lt.mpr hlast, rfl⟩

/-! ### Bodies -/

/-- The statements between two cursors, after `pc` instructions: all of them fit, their spans stand
one after the other, and no label is declared beyond them. -/
structure Laid (pc : Nat) (c : Cursor) (is : List (Instruction × Source.Span)) (c' : Cursor) :
    Prop where
  fits : ∀ i ∈ is, i.1.Fits
  spans : ∀ i ∈ is, c.last ≤ i.2.start ∧ i.2.start < i.2.stop ∧ i.2.stop ≤ c'.last
  ordered : is.Pairwise fun i j => i.2.stop ≤ j.2.start
  labels : c'.labels.UpTo (pc + is.length)

namespace Laid

variable {is : List (Instruction × Source.Span)} {c₁ : Cursor}

theorem nil (h : c.labels.UpTo pc) : Laid pc c [] c where
  fits := List.forall_mem_nil _
  spans := List.forall_mem_nil _
  ordered := .nil
  labels := h

/-- What is read before the first instruction makes no difference. -/
theorem after (h : Laid pc c₁ is c') (hl : c.Leads c₁) : Laid pc c is c' where
  fits := h.fits
  spans i hi := ⟨Int.le_trans (Int.ofNat_le.mpr hl.last) (h.spans i hi).1, (h.spans i hi).2⟩
  ordered := h.ordered
  labels := h.labels

theorem cons {i : Instruction × Source.Span} (hfits : i.1.Fits) (hspan : c.Spans i.2 c₁)
    (hle : c₁.last ≤ c'.last) (h : Laid (pc + 1) c₁ is c') : Laid pc c (i :: is) c' where
  fits := List.forall_mem_cons.mpr ⟨hfits, h.fits⟩
  spans := by
    have hstart := hspan.start
    have hfilled := hspan.filled
    have hstop := hspan.stop
    refine List.forall_mem_cons.mpr ⟨⟨hstart, hfilled, by omega⟩, fun j hj => ?_⟩
    have hj := h.spans j hj
    exact ⟨by omega, hj.2⟩
  ordered := List.pairwise_cons.mpr ⟨fun j hj => hspan.stop ▸ (h.spans j hj).1, h.ordered⟩
  labels := by
    rw [List.length_cons, Nat.add_comm is.length, ← Nat.add_assoc]
    exact h.labels

end Laid

/-- **The statements of a body are laid one after the other.** -/
theorem Cursor.Sound.laid (hc : c.Sound n) {file : Register.File}
    {is : List (Instruction × Source.Span)} (hls : c.labels.UpTo pc)
    (h : Assembly.body file pc c = .ok (is, c')) : Laid pc c is c' := by
  fun_induction Assembly.body file pc c generalizing is c' with
  | case1 | case3 | case5 | case6 => cases h
  | case2 =>
      cases h
      exact .nil hls
  | case4 pc c t _ _ _ u c₁ hlabel ih =>
      obtain ⟨hc₁, hl, -⟩ := (hc.label pc).of_ok hlabel
      exact (ih hc₁ (hls.label.of_ok hlabel) h).after hl
  | case7 pc c t _ _ _ i c₁ hinstruction is c₂ hbody ih =>
      cases h
      obtain ⟨hc₁, -, -⟩ := (hc.instruction file).of_ok hinstruction
      obtain ⟨-, hl₂, -⟩ := (hc₁.body file (pc + 1)).of_ok hbody
      obtain ⟨hfits, hspan⟩ := hc.of_instruction hinstruction
      have hls₁ := ((hls.instruction file).of_ok hinstruction).mono (Nat.le_succ pc)
      exact .cons hfits hspan hl₂.last (ih hc₁ hls₁ hbody)

/-! ### Methods -/

theorem stop_of_header {h : Header} (hh : header c = .ok (h, c')) : h.span.stop = c'.last := by
  obtain ⟨⟨_, _⟩, -, hh⟩ := exists_of_bind_eq_ok hh
  obtain ⟨⟨_, _⟩, -, hh⟩ := exists_of_bind_eq_ok hh
  obtain ⟨⟨_, c₃⟩, -, hh⟩ := exists_of_bind_eq_ok hh
  obtain ⟨span, hspan, hh⟩ := exists_of_bind_eq_ok hh
  cases hh
  rw [eq_of_spanFrom hspan]

/-- What a sequence gives, its steps give. -/
theorem forall₂_of_mapM_eq_ok {ε : Type} {f : α → Except ε β} {as : List α} {bs : List β}
    (h : as.mapM f = .ok bs) : as.Forall₂ (fun a b => f a = .ok b) bs := by
  induction as generalizing bs with
  | nil =>
      cases h
      exact .nil
  | cons a as ih =>
      rw [List.mapM_cons] at h
      obtain ⟨b, hb, h⟩ := exists_of_bind_eq_ok h
      obtain ⟨bs', hbs', h⟩ := exists_of_bind_eq_ok h
      cases h
      exact .cons hb (ih hbs')

theorem Labels.resolves_of_resolve {ls : Labels} {code code' : List Instruction}
    (h : ls.resolve code = .ok (.ok code')) : code.Forall₂ ls.Resolves code' := by
  unfold resolve at h
  split at h
  · cases h
  · obtain ⟨resolved, hresolved, h⟩ := exists_of_bind_eq_ok h
    cases h
    refine (forall₂_of_mapM_eq_ok hresolved).imp fun i i' hi => ?_
    obtain ⟨ts, hts, hi⟩ := exists_of_bind_eq_ok hi
    cases hi
    exact ⟨ts, rfl, forall₂_of_mapM_eq_ok hts⟩

/-- Statements with positions for their targets make a method which is well formed. -/
theorem Laid.wellFormed {f : Source} {statements : List (Instruction × Source.Span)}
    {code : List Instruction} {ls : Labels} {header : Source.Span}
    (h : Laid 0 c statements c') (hcode : (statements.map Prod.fst).Forall₂ ls.Resolves code)
    (hls : ls.UpTo statements.length) (hheader : header.stop ≤ c.last) (hend : c'.last ≤ f.length)
    (name : String) (file : Register.File) (returns : DeclaredType) :
    AssembledMethod.WellFormed ⟨⟨name, file, returns, code.toArray⟩, f, header,
      (statements.map Prod.snd).toArray⟩ where
  fits i' hi' := by
    obtain ⟨i, hi, hresolves⟩ := exists_of_forall₂_of_mem hcode (List.mem_toArray.mp hi')
    obtain ⟨statement, hstatement, rfl⟩ := List.mem_map.mp hi
    exact hresolves.fits (h.fits statement hstatement)
  targets i' hi' := by
    obtain ⟨i, -, hresolves⟩ := exists_of_forall₂_of_mem hcode (List.mem_toArray.mp hi')
    simpa [← hcode.length_eq] using hls.targets hresolves
  count := by simp [← hcode.length_eq]
  filled := by
    simp only [List.mem_toArray, List.mem_map]
    rintro _ ⟨statement, hstatement, rfl⟩
    have hspan := h.spans statement hstatement
    omega
  ordered := List.pairwise_map.mpr h.ordered
  header := by
    simp only [List.mem_toArray, List.mem_map]
    rintro _ ⟨statement, hstatement, rfl⟩
    exact Int.le_trans hheader (h.spans statement hstatement).1

/-- **A method which is read is well formed.** -/
theorem Cursor.Sound.wellFormed {f : Source} (hc : c.Sound f.length) {m : AssembledMethod}
    (h : Assembly.method f c = .ok (m, c')) : m.source = f ∧ m.WellFormed := by
  obtain ⟨⟨hd, c₁⟩, h₁, h⟩ := exists_of_bind_eq_ok h
  obtain ⟨⟨⟨file, returns⟩, c₂⟩, h₂, h⟩ := exists_of_bind_eq_ok h
  obtain ⟨⟨statements, c₃⟩, h₃, h⟩ := exists_of_bind_eq_ok h
  obtain ⟨⟨_, c₄⟩, h₄, h⟩ := exists_of_bind_eq_ok h
  obtain ⟨resolved, h₅, h⟩ := exists_of_bind_eq_ok h
  -- The cursor stays over the text, and no label is declared beyond the statements.
  have hc₀ : Cursor.Sound f.length { c with labels := .empty } :=
    hc.withLabels (List.forall_mem_nil _)
  obtain ⟨hc₁, -, -, hdescriptor⟩ := hc₀.header.of_ok h₁
  obtain ⟨hc₂, hl₂, -⟩ := (hc₁.registerFile hdescriptor).of_ok h₂
  obtain ⟨hc₃, -, -⟩ := (hc₂.body file 0).of_ok h₃
  have hls₁ := (Labels.UpTo.header (Labels.upTo_empty 0)).of_ok h₁
  have hls₂ := (hls₁.registerFile hd).of_ok h₂
  have hlaid := hc₂.laid hls₂ h₃
  have hls₄ := hlaid.labels.ending.of_ok h₄
  have hheader : hd.span.stop ≤ c₂.last :=
    stop_of_header h₁ ▸ Int.ofNat_le.mpr hl₂.last
  split at h
  · cases h
  · next code =>
      cases h
      have hcode := Labels.resolves_of_resolve (eq_ok_of_orFault h₅)
      rw [Nat.zero_add] at hls₄
      exact ⟨rfl, hlaid.wellFormed hcode hls₄ hheader hc₃.legible.le _ _ _⟩

/-! ### Sources -/

/-- The methods of a source are well formed, and each has a name which was not taken. -/
theorem methods_wellFormed {f : Source} {taken : List String} {ms : List AssembledMethod}
    (hc : c.Sound f.length) (h : methods f taken c = .ok ms) :
    (ms.map (·.method.name)).Nodup ∧
      ∀ m ∈ ms, m.method.name ∉ taken ∧ m.source = f ∧ m.WellFormed := by
  fun_induction methods f taken c generalizing ms with
  | case1 | case3 | case4 | case5 | case7 => cases h
  | case2 =>
      cases h
      exact ⟨List.nodup_nil, List.forall_mem_nil _⟩
  | case6 taken c t _ _ _ m c₁ hmethod hnew ms hmethods ih =>
      cases h
      obtain ⟨hc₁, -, -⟩ := (hc.method f).of_ok hmethod
      obtain ⟨hnodup, hms⟩ := ih hc₁ hmethods
      refine ⟨List.nodup_cons.mpr ⟨fun hmem => ?_, hnodup⟩, List.forall_mem_cons.mpr ⟨?_, ?_⟩⟩
      · obtain ⟨m', hm', hname⟩ := List.mem_map.mp hmem
        exact (hms m' hm').1 (hname ▸ List.mem_cons_self)
      · exact ⟨by simpa using hnew, hc.wellFormed hmethod⟩
      · intro m' hm'
        exact ⟨fun hmem => (hms m' hm').1 (List.mem_cons_of_mem _ hmem), (hms m' hm').2⟩

/-- **Assembled methods are well formed.** The names of the methods of a source differ, each of the
methods is well formed, and if it has no graph, then for a register outside its file or a target at
the end of its code. -/
theorem assemble_wellFormed {f : Source} {ms : List AssembledMethod} (h : assemble f = .ok ms) :
    (ms.map (·.method.name)).Nodup ∧ ∀ m ∈ ms, m.source = f ∧ m.WellFormed ∧
      ∀ v, Graph.build m.method.registers m.method.code = .error v →
        ∃ pc i d, m.method.code[pc]? = some i ∧
          i.Overreaches m.method.registers m.method.code.size d ∧ v = .ofDefect pc d := by
  unfold assemble at h
  rcases tokens_cases f with ⟨ts, hts, hlegible⟩ | ⟨span, hspan, -⟩
  · rw [hts] at h
    obtain ⟨hnodup, hms⟩ := methods_wellFormed ⟨hlegible, List.forall_mem_nil _⟩ h
    refine ⟨hnodup, fun m hm => ?_⟩
    obtain ⟨-, hsource, hformed⟩ := hms m hm
    exact ⟨hsource, hformed, fun v hv => hformed.overreaches hv⟩
  · rw [hspan] at h
    cases h

/-- A method which jumps beyond its end, and one which moves a pair that its file does not hold. -/
def astray : Source where
  name := "astray.asm"
  contents := ".method loop()V .registers 1
:top if-eqz v0, :out
goto :top
:out
.end method
.method pair()V .registers 1
move-wide v0, v0
.end method".toList.toArray

/-- The methods of that text. -/
def astrayMethods : List AssembledMethod :=
  [⟨⟨"loop", ⟨1, [⟨⟨0⟩, .reference⟩], rfl⟩, .void, #[
        ⟨⟨"if-eqz", .ifZero, [Opcode.reads .int]⟩, [⟨0⟩], [2], 0⟩,
        ⟨⟨"goto", .goto, []⟩, [], [0], 0⟩]⟩,
      astray, ⟨0, 15⟩, #[⟨34, 49⟩, ⟨50, 59⟩]⟩,
    ⟨⟨"pair", ⟨1, [⟨⟨0⟩, .reference⟩], rfl⟩, .void, #[
        ⟨⟨"move-wide", .move, [Opcode.writes .wide, Opcode.reads .wide]⟩, [⟨0⟩, ⟨0⟩], [], 0⟩]⟩,
      astray, ⟨77, 92⟩, #[⟨106, 122⟩]⟩]

/-- Both methods are well formed, and are rejected for what they reach for. -/
theorem astray_wellFormed : assemble astray = .ok astrayMethods ∧
    (astrayMethods.map (·.method.name)).Nodup ∧ ∀ m ∈ astrayMethods, m.source = astray ∧
      m.WellFormed ∧ ∃ v, Graph.build m.method.registers m.method.code = .error v ∧
        ∃ pc i d, m.method.code[pc]? = some i ∧
          i.Overreaches m.method.registers m.method.code.size d ∧ v = .ofDefect pc d := by
  have hassembled : assemble astray = .ok astrayMethods := by decide +kernel
  have hrejected : ∀ m ∈ astrayMethods,
      ∃ v, Graph.build m.method.registers m.method.code = .error v := by
    simp only [astrayMethods, List.forall_mem_cons]
    exact ⟨⟨_, rfl⟩, ⟨_, rfl⟩, List.forall_mem_nil _⟩
  obtain ⟨hnodup, hms⟩ := assemble_wellFormed hassembled
  refine ⟨hassembled, hnodup, fun m hm => ?_⟩
  obtain ⟨hsource, hformed, hoverreaches⟩ := hms m hm
  obtain ⟨v, hv⟩ := hrejected m hm
  exact ⟨hsource, hformed, v, hv, hoverreaches v hv⟩

end Assembly

end BytecodeVerifier
