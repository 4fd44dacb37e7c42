import BytecodeVerifier.Assembly
import BytecodeVerifier.Proofs.Labels
import BytecodeVerifier.Proofs.Tokens

/-!
# Totality — every text is assembled or complained about

Assembling could fail in other ways than by a complaint: by reading beyond the last token, by a span
which ends before it starts, by an instruction which does not fit its opcode, by the number of no
label.  **It never does** (`assemble_total`): every source gives methods, or a complaint about a
span of its text.

A cursor over legible tokens is `Sound`.  A step from a sound cursor `Answers`: it leaves a sound
cursor further on, or complains about a span of the text.  The mark of the end is never passed,
because a step reads on only from a token of another kind.
-/

namespace BytecodeVerifier

/-! ### Construction -/

theorem Opcode.branches_of_switch {op : Opcode} (h : op.family = .switch) : op.branches = true := by
  rw [branches, h]
  rfl

namespace Instruction

variable {op : Opcode} {rs : List Register} {ts : List UInt64}

theorem plain_eq (hb : op.branches = false) (hrs : rs.length = op.operands.length) :
    plain op rs = .ok ⟨op, rs, [], 0⟩ := by
  rw [plain, hb, if_neg Bool.false_ne_true]
  exact if_pos hrs

theorem withLiteral_eq {m : Int64} (hl : op.hasLiteral = true)
    (hrs : rs.length = op.operands.length) : withLiteral op m rs = .ok ⟨op, rs, [], m⟩ := by
  rw [withLiteral, if_pos hl]
  exact if_pos hrs

theorem branch_eq (hb : op.branches = true) (hts : op.family = .switch ∨ ts.length = 1)
    (hrs : rs.length = op.operands.length) : branch op ts rs = .ok ⟨op, rs, ts, 0⟩ := by
  rw [branch, hb, Bool.not_true, if_neg Bool.false_ne_true,
    if_neg fun h => h.2 (hts.resolve_left h.1)]
  exact if_pos hrs

end Instruction

namespace Assembly

open Cursor

variable {n : Nat} {c c' : Cursor} {α β : Type}

/-! ### Cursors -/

namespace Cursor

/-- The cursor is over a text of `n` characters. -/
structure Sound (n : Nat) (c : Cursor) : Prop where
  legible : Legible n c.last c.rest
  labels : ∀ l ∈ c.labels.entries, l.span.Within n

/-- The second cursor is further on, and numbers labels as the first one does. -/
structure Leads (c c' : Cursor) : Prop where
  last : c.last ≤ c'.last
  names : c.labels.names <+: c'.labels.names

theorem Leads.refl (c : Cursor) : c.Leads c := ⟨Nat.le_refl _, List.prefix_rfl⟩

theorem Leads.trans {c₁ c₂ c₃ : Cursor} (h : c₁.Leads c₂) (h' : c₂.Leads c₃) : c₁.Leads c₃ :=
  ⟨Nat.le_trans h.last h'.last, h.names.trans h'.names⟩

/-- A token, not empty, lies between where one cursor stands and where another one does. -/
structure Took (c : Cursor) (t : Token) (c' : Cursor) : Prop where
  start : c.last ≤ t.start
  filled : t.start < t.stop
  stop : t.stop = c'.last

theorem Took.within {t : Token} (h : c.Took t c') (hc' : c'.Sound n) : t.span.Within n :=
  Source.Span.within_of_le (Nat.le_of_lt h.filled) (h.stop ▸ hc'.legible.le)

/-- A token starts before any place further on. -/
theorem Took.start_le {c'' : Cursor} {t : Token} (h : c.Took t c') (hl : c'.Leads c'') :
    t.start ≤ c''.last :=
  Nat.le_trans (Nat.le_of_lt h.filled) (h.stop ▸ hl.last)

end Cursor

/-- What a step from a cursor may end in: a sound cursor further on, and a result with a property,
or a complaint about a span of the text.  A fault it does not end in. -/
def Answers (n : Nat) (c : Cursor) (Q : α → Cursor → Prop) : Except Failure (α × Cursor) → Prop
  | .ok (a, c') => c'.Sound n ∧ c.Leads c' ∧ Q a c'
  | .error (.complaint span _) => span.Within n
  | .error (.fault _) => False

namespace Answers

variable {Q : α → Cursor → Prop} {R : β → Cursor → Prop}

theorem after {x : Except Failure (α × Cursor)} (hx : Answers n c' Q x) (h : c.Leads c') :
    Answers n c Q x := by
  match x, hx with
  | .ok (a, c''), ⟨hc'', hl, hQ⟩ => exact ⟨hc'', h.trans hl, hQ⟩
  | .error (.complaint span p), hspan => exact hspan

theorem of_ok {x : Except Failure (α × Cursor)} {a : α} (hx : Answers n c Q x)
    (h : x = .ok (a, c')) : c'.Sound n ∧ c.Leads c' ∧ Q a c' := by
  rw [h] at hx
  exact hx

theorem of_error {x : Except Failure (α × Cursor)} {e : Failure} (hx : Answers n c Q x)
    (h : x = .error e) : Answers n c' R (.error e) := by
  rw [h] at hx
  cases e with
  | complaint span p => exact hx
  | fault f => exact hx

/-- Steps which answer do so one after the other. -/
theorem bind {x : Except Failure (α × Cursor)} {g : α × Cursor → Except Failure (β × Cursor)}
    (hx : Answers n c Q x)
    (hg : ∀ a c', c'.Sound n → c.Leads c' → Q a c' → Answers n c' R (g (a, c'))) :
    Answers n c R (x >>= g) := by
  match x, hx with
  | .ok (a, c'), ⟨hc', hl, hQ⟩ => exact (hg a c' hc' hl hQ).after hl
  | .error (.complaint span p), hspan => exact hspan

end Answers

namespace Cursor.Sound

/-- A sound cursor has a next token, and reads on after it unless it is the mark of the end. -/
theorem exists_take (hc : c.Sound n) :
    ∃ t c', c.peek = .ok t ∧ c.take = .ok (t, c') ∧ t.span.Within n ∧
      (t.kind ≠ .endOfText → c'.Sound n ∧ c.Leads c' ∧ c.Took t c') := by
  obtain ⟨rest, last, labels⟩ := c
  obtain ⟨t, rest, rfl⟩ := List.exists_cons_of_ne_nil hc.legible.ne_nil
  refine ⟨t, ⟨rest, t.stop, labels⟩, rfl, rfl, hc.legible.within, fun hk => ?_⟩
  have hb := hc.legible.bounds t List.mem_cons_self
  exact ⟨⟨hc.legible.tail hk, hc.labels⟩, ⟨Nat.le_trans hb.1 hb.2.1, List.prefix_rfl⟩,
    ⟨hb.1, hc.legible.filled t List.mem_cons_self hk, rfl⟩⟩

theorem of_take (hc : c.Sound n) {t : Token} (h : c.take = .ok (t, c')) (hk : t.kind ≠ .endOfText) :
    c'.Sound n ∧ c.Leads c' ∧ c.Took t c' := by
  obtain ⟨t', c'', -, htake, -, hread⟩ := hc.exists_take
  obtain ⟨rfl, rfl⟩ := Prod.mk.inj (Except.ok.inj (h.symm.trans htake))
  exact hread hk

theorem expect (hc : c.Sound n) {kind : TokenKind} (hk : kind ≠ .endOfText) :
    Answers n c (fun t c' => c.Took t c') (c.expect kind) := by
  obtain ⟨t, c', -, htake, hspan, hread⟩ := hc.exists_take
  unfold Cursor.expect
  rw [htake]
  show Answers n c _ (if t.kind = kind then _ else _)
  split
  · next heq => exact hread (heq ▸ hk)
  · exact hspan

theorem withLabels (hc : c.Sound n) {ls : Labels} (h : ∀ l ∈ ls.entries, l.span.Within n) :
    Cursor.Sound n { c with labels := ls } := ⟨hc.legible, h⟩

theorem bindLabel (hc : c.Sound n) (name : String) {span : Source.Span} (hspan : span.Within n) :
    Cursor.Sound n { c with labels := (c.labels.bind name span).2 } := by
  refine hc.withLabels fun l hl => ?_
  rcases Labels.mem_bind _ _ _ hl with h | rfl
  · exact hc.labels l h
  · exact hspan

theorem declareLabel (hc : c.Sound n) (name : String) (pc : UInt64) {span : Source.Span}
    (hspan : span.Within n) :
    Cursor.Sound n { c with labels := (c.labels.declare name pc span).2 } := by
  refine hc.withLabels fun l hl => ?_
  rcases Labels.span_of_mem_declare _ _ _ _ hl with h | ⟨l', hl', h⟩
  · exact h ▸ hspan
  · exact h ▸ hc.labels l' hl'

end Cursor.Sound

theorem spanFrom_eq {start : Nat} (h : start ≤ c.last) :
    c.spanFrom start = .ok ⟨start, c.last⟩ := by
  simp only [spanFrom, Source.Span.new, Int.ofNat_le, if_pos h]
  rfl

/-! ### Parts of instructions -/

namespace Cursor.Sound

theorem register (hc : c.Sound n) (file : Register.File) :
    Answers n c (fun _ _ => True) (register file c) := by
  refine (hc.expect (by decide)).bind fun t c' hc' _ htook => ?_
  dsimp only
  split
  · exact ⟨hc', .refl _, trivial⟩
  · exact htook.within hc'

theorem moreRegisters (hc : c.Sound n) (file : Register.File) (os : List Operand) :
    Answers n c (fun rs _ => rs.length = os.length) (moreRegisters file os c) := by
  induction os generalizing c with
  | nil => exact ⟨hc, .refl _, rfl⟩
  | cons o os ih =>
      refine (hc.expect (by decide)).bind fun _ c₁ hc₁ _ _ => ?_
      refine (hc₁.register file).bind fun r c₂ hc₂ _ _ => ?_
      refine (ih hc₂).bind fun rs c₃ hc₃ _ hlength => ?_
      exact ⟨hc₃, .refl _, congrArg Nat.succ hlength⟩

/-- As many registers are read as there are operands. -/
theorem registers (hc : c.Sound n) (file : Register.File) (os : List Operand) :
    Answers n c (fun rs _ => rs.length = os.length) (registers file os c) := by
  cases os with
  | nil => exact ⟨hc, .refl _, rfl⟩
  | cons o os =>
      refine (hc.register file).bind fun r c₁ hc₁ _ _ => ?_
      refine (hc₁.moreRegisters file os).bind fun rs c₂ hc₂ _ hlength => ?_
      exact ⟨hc₂, .refl _, congrArg Nat.succ hlength⟩

theorem number (hc : c.Sound n) (negative : Bool) :
    Answers n c (fun _ _ => True) (number negative c) := by
  refine (hc.expect (by decide)).bind fun t c' hc' _ htook => ?_
  dsimp only
  split
  · exact ⟨hc', .refl _, trivial⟩
  · exact htook.within hc'

theorem literal (hc : c.Sound n) : Answers n c (fun _ _ => True) (literal c) := by
  obtain ⟨t, c', -, htake, -, hread⟩ := hc.exists_take
  unfold Assembly.literal
  rw [htake]
  dsimp only [bind, Except.bind]
  split
  · next hk =>
      obtain ⟨hc', hl, -⟩ := hread (by rw [hk]; decide)
      exact (hc'.number true).after hl
  · next hk =>
      obtain ⟨hc', hl, -⟩ := hread (by rw [hk]; decide)
      exact ⟨hc', hl, trivial⟩
  · next hk =>
      obtain ⟨hc', hl, -⟩ := hread (by rw [hk]; decide)
      exact ⟨hc', hl, trivial⟩
  · exact hc.number false

/-- A target is the number of a label. -/
theorem target (hc : c.Sound n) :
    Answers n c (fun i c' => i.toNat < c'.labels.names.length) (target c) := by
  refine (hc.expect (by decide)).bind fun colon c₁ hc₁ _ hcolon => ?_
  refine (hc₁.expect (by decide)).bind fun name c₂ hc₂ hl hname => ?_
  have hstart := hcolon.start_le hl
  dsimp only
  rw [spanFrom_eq hstart]
  have hspan := Source.Span.within_of_le hstart hc₂.legible.le
  have hnumber := c₂.labels.names_bind_fst name.text ⟨colon.start, c₂.last⟩
  refine ⟨hc₂.bindLabel _ hspan, ⟨Nat.le_refl _, Labels.names_bind ..⟩, ?_⟩
  exact Nat.lt_of_le_of_lt (Nat.mod_le _ _) (List.getElem?_eq_some_iff.mp hnumber).1

theorem moreTargets (hc : c.Sound n) :
    Answers n c (fun is c' => ∀ i ∈ is, i.toNat < c'.labels.names.length) (moreTargets c) := by
  fun_induction Assembly.moreTargets c with
  | case1 c e htake =>
      obtain ⟨_, _, -, htake', -⟩ := hc.exists_take
      rw [htake'] at htake
      cases htake
  | case2 c t rest htake hk =>
      obtain ⟨hc', hl, -⟩ := hc.of_take htake (by rw [hk]; decide)
      exact ⟨hc', hl, List.forall_mem_nil _⟩
  | case3 c t rest htake _ hk e htarget =>
      obtain ⟨hc', -, -⟩ := hc.of_take htake (by rw [hk]; decide)
      exact hc'.target.of_error htarget
  | case4 c t rest htake _ hk i rest₁ htarget e hmore ih =>
      obtain ⟨hc', -, -⟩ := hc.of_take htake (by rw [hk]; decide)
      obtain ⟨hc₁, -, -⟩ := hc'.target.of_ok htarget
      exact (ih hc₁).of_error hmore
  | case5 c t rest htake _ hk i rest₁ htarget is rest₂ hmore ih =>
      obtain ⟨hc', hl, -⟩ := hc.of_take htake (by rw [hk]; decide)
      obtain ⟨hc₁, hl₁, hi⟩ := hc'.target.of_ok htarget
      obtain ⟨hc₂, hl₂, his⟩ := (ih hc₁).of_ok hmore
      refine ⟨hc₂, hl.trans (hl₁.trans hl₂), List.forall_mem_cons.mpr ⟨?_, his⟩⟩
      exact Nat.lt_of_lt_of_le hi hl₂.names.length_le
  | case6 c t rest htake =>
      obtain ⟨t', _, -, htake', hspan, -⟩ := hc.exists_take
      obtain ⟨rfl, -⟩ := Prod.mk.inj (Except.ok.inj (htake.symm.trans htake'))
      exact hspan

/-- The targets of a table are the numbers of labels. -/
theorem targetTable (hc : c.Sound n) :
    Answers n c (fun is c' => ∀ i ∈ is, i.toNat < c'.labels.names.length) (targetTable c) := by
  refine (hc.expect (by decide)).bind fun _ c₁ hc₁ _ _ => ?_
  obtain ⟨t, c', -, htake, -, hread⟩ := hc₁.exists_take
  dsimp only
  rw [htake]
  show Answers n c₁ _ (if t.kind = .rightCurly then _ else _)
  split
  · next hk =>
      obtain ⟨hc', hl, -⟩ := hread (by rw [hk]; decide)
      exact ⟨hc', hl, List.forall_mem_nil _⟩
  · refine hc₁.target.bind fun i c₂ hc₂ _ hi => ?_
    refine hc₂.moreTargets.bind fun is c₃ hc₃ hl his => ?_
    refine ⟨hc₃, .refl _, List.forall_mem_cons.mpr ⟨?_, his⟩⟩
    exact Nat.lt_of_lt_of_le hi hl.names.length_le

/-! ### Statements -/

theorem separator (hc : c.Sound n) (op : Opcode) :
    Answers n c (fun _ _ => True) (separator op c) := by
  unfold Assembly.separator
  split
  · refine (hc.expect (by decide)).bind fun _ c' hc' _ _ => ?_
    exact ⟨hc', .refl _, trivial⟩
  · exact ⟨hc, .refl _, trivial⟩

/-- The instruction fits its opcode, and its targets are the numbers of labels. -/
theorem completion (hc : c.Sound n) {op : Opcode} {rs : List Register}
    (hrs : rs.length = op.operands.length) :
    Answers n c (fun i c' => ∀ t ∈ i.targets, t.toNat < c'.labels.names.length)
      (completion op rs c) := by
  unfold Assembly.completion
  split
  · next hliteral =>
      refine hc.literal.bind fun m c' hc' _ _ => ?_
      dsimp only
      rw [Instruction.withLiteral_eq hliteral hrs]
      exact ⟨hc', .refl _, List.forall_mem_nil _⟩
  · split
    · next hswitch =>
        refine hc.targetTable.bind fun ts c' hc' _ hts => ?_
        dsimp only
        rw [Instruction.branch_eq (Opcode.branches_of_switch hswitch) (.inl hswitch) hrs]
        exact ⟨hc', .refl _, hts⟩
    · split
      · next hbranches =>
          refine hc.target.bind fun t c' hc' _ ht => ?_
          dsimp only
          rw [Instruction.branch_eq hbranches (.inr rfl) hrs]
          exact ⟨hc', .refl _, List.forall_mem_singleton.mpr ht⟩
      · next hbranches =>
          rw [Instruction.plain_eq (Bool.eq_false_iff.mpr hbranches) hrs]
          exact ⟨hc, .refl _, List.forall_mem_nil _⟩

theorem skipType (hc : c.Sound n) (op : Opcode) :
    (skipType op c).Sound n ∧ c.Leads (skipType op c) := by
  unfold Assembly.skipType
  split
  · split
    · next comma type rest hrest =>
        split
        · next hk =>
            have h₁ := hrest ▸ hc.legible
            have h₂ := h₁.tail (by rw [hk.1]; decide)
            have h₃ := h₂.tail (by rw [hk.2]; decide)
            have hb₁ := h₁.bounds comma List.mem_cons_self
            have hb₂ := h₂.bounds type List.mem_cons_self
            exact ⟨⟨h₃, hc.labels⟩, by dsimp only; omega, List.prefix_rfl⟩
        · exact ⟨hc, .refl _⟩
    · exact ⟨hc, .refl _⟩
  · exact ⟨hc, .refl _⟩

/-- The targets of an instruction are the numbers of labels. -/
theorem instruction (hc : c.Sound n) (file : Register.File) :
    Answers n c (fun i c' => ∀ t ∈ i.1.targets, t.toNat < c'.labels.names.length)
      (instruction file c) := by
  refine (hc.expect (by decide)).bind fun mnemonic c₁ hc₁ _ htook => ?_
  dsimp only
  split
  · exact htook.within hc₁
  · next op _ =>
      refine (hc₁.registers file op.operands).bind fun rs c₂ hc₂ hl₂ hrs => ?_
      refine (hc₂.separator op).bind fun _ c₃ hc₃ hl₃ _ => ?_
      refine (hc₃.completion hrs).bind fun i c₄ hc₄ hl₄ hi => ?_
      obtain ⟨hc₅, hl₅⟩ := hc₄.skipType op
      have hstart := htook.start_le (hl₂.trans (hl₃.trans (hl₄.trans hl₅)))
      dsimp only
      rw [spanFrom_eq hstart]
      exact ⟨hc₅, hl₅, fun t ht => Nat.lt_of_lt_of_le (hi t ht) hl₅.names.length_le⟩

theorem label (hc : c.Sound n) (pc : Nat) : Answers n c (fun _ _ => True) (label pc c) := by
  refine (hc.expect (by decide)).bind fun colon c₁ hc₁ _ hcolon => ?_
  refine (hc₁.expect (by decide)).bind fun name c₂ hc₂ hl hname => ?_
  have hstart := hcolon.start_le hl
  have hspan := Source.Span.within_of_le hstart hc₂.legible.le
  dsimp only
  rw [spanFrom_eq hstart]
  dsimp only [bind, Except.bind]
  split
  · next labels hdeclare =>
      have hlabels : labels = (c₂.labels.declare name.text (UInt64.ofNat pc)
        ⟨colon.start, c₂.last⟩).2 := by rw [hdeclare]
      subst hlabels
      exact ⟨hc₂.declareLabel _ _ hspan, ⟨Nat.le_refl _, Labels.names_declare ..⟩, trivial⟩
  · exact hspan

/-- The targets of the instructions of a body are the numbers of labels. -/
theorem body (hc : c.Sound n) (file : Register.File) (pc : Nat) :
    Answers n c (fun is c' => ∀ i ∈ is, ∀ t ∈ i.1.targets, t.toNat < c'.labels.names.length)
      (body file pc c) := by
  fun_induction Assembly.body file pc c with
  | case1 pc c e hpeek =>
      obtain ⟨_, _, hpeek', -⟩ := hc.exists_take
      rw [hpeek'] at hpeek
      cases hpeek
  | case2 pc c t _ _ => exact ⟨hc, .refl _, List.forall_mem_nil _⟩
  | case3 pc c t _ _ _ e hlabel => exact (hc.label pc).of_error hlabel
  | case4 pc c t _ _ _ u c₁ hlabel ih =>
      obtain ⟨hc₁, hl, -⟩ := (hc.label pc).of_ok hlabel
      exact (ih hc₁).after hl
  | case5 pc c t _ _ _ e hinstruction => exact (hc.instruction file).of_error hinstruction
  | case6 pc c t _ _ _ i c₁ hinstruction e hbody ih =>
      obtain ⟨hc₁, -, -⟩ := (hc.instruction file).of_ok hinstruction
      exact (ih hc₁).of_error hbody
  | case7 pc c t _ _ _ i c₁ hinstruction is c₂ hbody ih =>
      obtain ⟨hc₁, hl₁, hi⟩ := (hc.instruction file).of_ok hinstruction
      obtain ⟨hc₂, hl₂, his⟩ := (ih hc₁).of_ok hbody
      refine ⟨hc₂, hl₁.trans hl₂, List.forall_mem_cons.mpr ⟨fun t ht => ?_, his⟩⟩
      exact Nat.lt_of_lt_of_le (hi t ht) hl₂.names.length_le

end Cursor.Sound

/-! ### Methods -/

/-- Modifiers are passed over one by one. -/
theorem Legible.modifiers {i : Nat} {ts : List Token} (h : Legible n i ts) :
    Legible n i (modifiers ts).2 := by
  induction ts generalizing i with
  | nil => exact h
  | cons t ts ih =>
      unfold Assembly.modifiers
      split
      · next hk =>
          have hb := h.bounds t List.mem_cons_self
          exact ih ((h.tail (by rw [hk.1]; decide)).mono (Nat.le_trans hb.1 hb.2.1))
      · exact h

namespace Cursor.Sound

theorem modifiers (hc : c.Sound n) {isStatic : Bool} {rest : List Token}
    (h : modifiers c.rest = (isStatic, rest)) : Cursor.Sound n { c with rest } := by
  have hrest := hc.legible.modifiers
  rw [h] at hrest
  exact ⟨hrest, hc.labels⟩

theorem header (hc : c.Sound n) :
    Answers n c (fun h _ => h.span.Within n ∧ h.descriptor.span.Within n) (header c) := by
  refine (hc.expect (by decide)).bind fun keyword c₁ hc₁ _ hkeyword => ?_
  dsimp only
  cases hm : Assembly.modifiers c₁.rest with
  | mk isStatic rest =>
    have hl₁ : c₁.Leads { c₁ with rest } := ⟨Nat.le_refl _, List.prefix_rfl⟩
    refine Answers.after ?_ hl₁
    refine ((hc₁.modifiers hm).expect (by decide)).bind fun name c₂ hc₂ hl₂ _ => ?_
    refine (hc₂.expect (by decide)).bind fun descriptor c₃ hc₃ hl₃ hdescriptor => ?_
    have hstart := hkeyword.start_le (hl₁.trans (hl₂.trans hl₃))
    dsimp only
    rw [spanFrom_eq hstart]
    exact ⟨hc₃, .refl _, Source.Span.within_of_le hstart hc₃.legible.le, hdescriptor.within hc₃⟩

theorem registerFile (hc : c.Sound n) {h : Header} (hh : h.descriptor.span.Within n) :
    Answers n c (fun _ _ => True) (registerFile h c) := by
  refine (hc.expect (by decide)).bind fun _ c₁ hc₁ _ _ => ?_
  refine (hc₁.expect (by decide)).bind fun count c₂ hc₂ _ hcount => ?_
  dsimp only
  split
  · exact hcount.within hc₂
  · split
    · exact hh
    · exact ⟨hc₂, .refl _, trivial⟩

theorem ending (hc : c.Sound n) : Answers n c (fun _ _ => True) (ending c) := by
  refine (hc.expect (by decide)).bind fun _ c₁ hc₁ _ _ => ?_
  refine (hc₁.expect (by decide)).bind fun word c₂ hc₂ _ hword => ?_
  dsimp only
  split
  · exact ⟨hc₂, .refl _, trivial⟩
  · exact hword.within hc₂

theorem method (hc : c.Sound n) (f : Source) :
    Answers n { c with labels := .empty } (fun m _ => m.header.Within n) (method f c) := by
  refine (hc.withLabels (List.forall_mem_nil _)).header.bind fun h c₁ hc₁ _ ⟨hh, hd⟩ => ?_
  refine (hc₁.registerFile hd).bind fun shape c₂ hc₂ _ _ => ?_
  obtain ⟨file, returns⟩ := shape
  refine (hc₂.body file 0).bind fun statements c₃ hc₃ _ htargets => ?_
  refine hc₃.ending.bind fun _ c₄ hc₄ hl _ => ?_
  have hnumbers : ∀ i ∈ statements.map Prod.fst, ∀ t ∈ i.targets,
      t.toNat < c₄.labels.names.length := by
    simp only [List.mem_map]
    rintro _ ⟨i, hi, rfl⟩ t ht
    exact Nat.lt_of_lt_of_le (htargets i hi t ht) hl.names.length_le
  dsimp only
  rcases c₄.labels.resolve_cases hnumbers with ⟨l, hmem, -, hresolve⟩ | ⟨code, hresolve, -⟩
  · rw [hresolve]
    exact hc₄.labels l hmem
  · rw [hresolve]
    exact ⟨hc₄, .refl _, hh⟩

end Cursor.Sound

/-! ### Sources -/

/-- From a sound cursor on there are methods, or a complaint about a span of the text. -/
theorem methods_cases (f : Source) (taken : List String) (hc : c.Sound n) :
    (∃ ms, methods f taken c = .ok ms) ∨
      ∃ span problem, methods f taken c = .error (.complaint span problem) ∧ span.Within n := by
  fun_induction methods f taken c with
  | case1 taken c e hpeek =>
      obtain ⟨_, _, hpeek', -⟩ := hc.exists_take
      rw [hpeek'] at hpeek
      cases hpeek
  | case2 => exact .inl ⟨[], rfl⟩
  | case3 taken c t _ _ _ e hmethod =>
      have h := hc.method f
      rw [hmethod] at h
      cases e with
      | complaint span problem => exact .inr ⟨span, problem, rfl, h⟩
      | fault f => exact h.elim
  | case4 taken c t _ _ _ m c₁ hmethod _ =>
      obtain ⟨-, -, hheader⟩ := (hc.method f).of_ok hmethod
      exact .inr ⟨m.header, .duplicateMethod, rfl, hheader⟩
  | case5 taken c t _ _ _ m c₁ hmethod _ e hmethods ih =>
      obtain ⟨hc₁, -, -⟩ := (hc.method f).of_ok hmethod
      have h := ih hc₁
      rwa [hmethods] at h
  | case6 taken c t _ _ _ m c₁ hmethod _ ms hmethods ih => exact .inl ⟨m :: ms, rfl⟩
  | case7 taken c t hpeek _ _ =>
      obtain ⟨t', _, hpeek', -, hspan, -⟩ := hc.exists_take
      obtain rfl := Except.ok.inj (hpeek.symm.trans hpeek')
      exact .inr ⟨t.span, .unknownDeclaration, rfl, hspan⟩

/-- **The assembler is total.** Every source gives methods, or a complaint about a span of its
text. -/
theorem assemble_total (f : Source) :
    (∃ ms, assemble f = .ok ms) ∨
      ∃ span problem, assemble f = .error (.complaint span problem) ∧
        0 ≤ span.start ∧ span.start ≤ span.stop ∧ span.stop ≤ f.length := by
  unfold assemble
  rcases tokens_cases f with ⟨ts, hts, hlegible⟩ | ⟨span, hspan, hwithin⟩
  · rw [hts]
    exact methods_cases f [] ⟨hlegible, List.forall_mem_nil _⟩
  · rw [hspan]
    exact .inr ⟨span, .unknownText, rfl, hwithin⟩

end Assembly

end BytecodeVerifier
