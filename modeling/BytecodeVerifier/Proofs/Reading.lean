import BytecodeVerifier.Proofs.Listing
import BytecodeVerifier.Proofs.Numeral
import BytecodeVerifier.Proofs.Representation
import BytecodeVerifier.Proofs.Totality
import Mathlib.Data.List.Perm.Subperm

/-!
# Reading — what a step makes of the lexemes before it

`Reads` says which lexemes a cursor has before it.  Each step which reads the parts of an
instruction takes the lexemes of that part and `Yields` it, leaving those which follow.

Targets are numbers of labels at first.  The labels are `Charted`: there is at most one for each
position, known by the name of its position, and declared there if it has been passed.  So **the
number that a target gets stands for the target** (`Labels.Charted.stands`), and when every position
has been passed it is replaced by just that (`Labels.Charted.positionOf`).
-/

namespace BytecodeVerifier

namespace Assembly

/-! ### Labels which name their positions -/

theorem labelName_inj {j k : Nat} (h : labelName j = labelName k) : j = k := by
  have hlists := congrArg String.toList h
  rw [toList_labelName, toList_labelName] at hlists
  have hdigits := congrArg (Numeral.digits? 10 0) (List.cons.inj hlists).2
  rw [Numeral.digits?_toDigits, Numeral.digits?_toDigits] at hdigits
  exact Option.some.inj hdigits

namespace Labels

/-- The labels are names of positions up to `len`, of which those before `pc` have been declared. -/
structure Charted (len pc : Nat) (ls : Labels) : Prop where
  nodup : ls.names.Nodup
  known : ∀ l ∈ ls.entries, ∃ k ≤ len, l.name = labelName k ∧
    l.position = if k < pc then some (UInt64.ofNat k) else none
  declared : ∀ k < pc, labelName k ∈ ls.names

/-- The number stands for the name of a position. -/
def Stands (ls : Labels) (i t : UInt64) : Prop := ls.names[i.toNat]? = some (labelName t.toNat)

variable {ls ls' : Labels} {len pc k : Nat}

theorem Stands.mono {i t : UInt64} (h : ls.Stands i t) (hnames : ls.names <+: ls'.names) :
    ls'.Stands i t := by
  obtain ⟨rest, hrest⟩ := hnames
  have hlt := (List.getElem?_eq_some_iff.mp h).1
  rw [Stands, ← hrest, List.getElem?_append_left hlt]
  exact h

theorem charted_empty (len : Nat) : Charted len 0 .empty where
  nodup := List.nodup_nil
  known := List.forall_mem_nil _
  declared k hk := absurd hk (Nat.not_lt_zero k)

namespace Charted

/-- There are no more labels than positions. -/
theorem length_le (h : Charted len pc ls) : ls.names.length ≤ len + 1 := by
  have hsubset : ls.names ⊆ (List.range (len + 1)).map labelName := by
    intro name hname
    obtain ⟨l, hl, rfl⟩ := List.mem_map.mp hname
    obtain ⟨k, hk, hname, -⟩ := h.known l hl
    rw [hname]
    exact List.mem_map_of_mem (List.mem_range.mpr (Nat.lt_succ_of_le hk))
  have hle := (h.nodup.subperm hsubset).length_le
  rwa [List.length_map, List.length_range] at hle

theorem bind (h : Charted len pc ls) (hk : k ≤ len) (span : Source.Span) :
    Charted len pc (ls.bind (labelName k) span).2 := by
  rcases ls.bind_cases (labelName k) span with ⟨-, hsame⟩ | ⟨hnew, hadded⟩
  · rwa [hsame]
  · have hnames : (ls.bind (labelName k) span).2.names = ls.names ++ [labelName k] := by
      rw [names, hadded, List.map_append]
      rfl
    refine ⟨?_, ?_, ?_⟩
    · rw [hnames]
      exact List.concat_eq_append ▸ h.nodup.concat hnew
    · rw [hadded]
      intro l hl
      rcases List.mem_append.mp hl with hl | hl
      · exact h.known l hl
      · obtain rfl := List.mem_singleton.mp hl
        exact ⟨k, hk, rfl, (if_neg fun hlt => hnew (h.declared k hlt)).symm⟩
    · intro j hj
      rw [hnames]
      exact List.mem_append_left _ (h.declared j hj)

/-- The number which a target gets stands for it. -/
theorem stands (h : Charted len pc ls) (hlen : len + 1 < UInt64.size) {t : UInt64}
    (ht : t.toNat ≤ len) (span : Source.Span) :
    (ls.bind (labelName t.toNat) span).2.Stands
      (UInt64.ofNat (ls.bind (labelName t.toNat) span).1) t := by
  have hget := ls.names_bind_fst (labelName t.toNat) span
  have hlt := (List.getElem?_eq_some_iff.mp hget).1
  have hle := (h.bind ht span).length_le
  have hnat : (UInt64.ofNat (ls.bind (labelName t.toNat) span).1).toNat =
      (ls.bind (labelName t.toNat) span).1 := UInt64.toNat_ofNat_of_lt' (by omega)
  rw [Stands, hnat, hget]

/-- The next position can be declared. -/
theorem declare (h : Charted len pc ls) (hpc : pc ≤ len) (hlen : len + 1 < UInt64.size)
    (span : Source.Span) :
    (ls.declare (labelName pc) (UInt64.ofNat pc) span).1 = true ∧
      Charted len (pc + 1) (ls.declare (labelName pc) (UInt64.ofNat pc) span).2 := by
  -- a label of this name has been used at most, since only those before `pc` have been declared
  have hnone : ∀ l ∈ ls.entries, l.name = labelName pc → l.position = none := by
    intro l hl hname
    obtain ⟨k, -, hk, hposition⟩ := h.known l hl
    obtain rfl := labelName_inj (hname.symm.trans hk)
    rw [hposition, if_neg (Nat.lt_irrefl _)]
  have hnew := ls.declare_fst (labelName pc) (UInt64.ofNat pc) span hnone
  have hposition : position? (UInt64.ofNat pc) = some (UInt64.ofNat pc) := by
    refine if_neg fun hmax => ?_
    have hnat := congrArg UInt64.toNat hmax
    rw [UInt64.toNat_ofNat_of_lt' (by omega)] at hnat
    unfold UInt64.size at hlen
    change pc = 18446744073709551615 at hnat
    omega
  refine ⟨hnew, ?_, ?_, ?_⟩
  · rcases ls.declare_cases (labelName pc) (UInt64.ofNat pc) span with ⟨-, hsame⟩ | ⟨hn, hadded⟩
    · rw [hsame]
      exact h.nodup
    · rw [hadded]
      exact List.concat_eq_append ▸ h.nodup.concat hn
  · intro l hl
    rcases ls.mem_declare _ _ _ hnew hl with ⟨hname, hpos⟩ | ⟨hne, hl⟩
    · exact ⟨pc, hpc, hname, by rw [hpos, hposition, if_pos (Nat.lt_succ_self pc)]⟩
    · obtain ⟨k, hk, hname, hpos⟩ := h.known l hl
      have hkpc : k ≠ pc := fun he => hne (he ▸ hname)
      have hiff : k < pc + 1 ↔ k < pc := by omega
      exact ⟨k, hk, hname, by simp only [hpos, hiff]⟩
  · intro k hk
    rcases Nat.lt_succ_iff_lt_or_eq.mp hk with hlt | rfl
    · exact (ls.names_declare _ _ _).subset (h.declared k hlt)
    · rcases ls.declare_cases (labelName k) (UInt64.ofNat k) span with ⟨hmem, hsame⟩ | ⟨-, hadded⟩
      · rwa [hsame]
      · rw [hadded]
        exact List.mem_append_right _ (List.mem_singleton_self _)

/-- At the end each number has the position it stands for. -/
theorem positionOf (h : Charted len (len + 1) ls) {i t : UInt64} (hi : ls.Stands i t) :
    ls.positionOf i = .ok t := by
  rw [Stands, names, List.getElem?_map] at hi
  obtain ⟨⟨name, position, span⟩, hget, rfl⟩ := Option.map_eq_some_iff.mp hi
  obtain ⟨k, hk, hname, hposition⟩ := h.known _ (List.mem_of_getElem? hget)
  obtain rfl := labelName_inj hname
  dsimp only at hposition
  rw [if_pos (Nat.lt_succ_of_le hk), UInt64.ofNat_toNat] at hposition
  rw [Labels.positionOf, hget, hposition]

end Charted

end Labels

/-! ### Cursors before given lexemes -/

theorem moreTargets_eq (c : Cursor) :
    moreTargets c = (do
      let (t, rest) ← c.take
      if t.kind = .rightCurly then return ([], rest)
      else if t.kind = .comma then
        let (i, rest) ← target rest
        let (is, rest) ← moreTargets rest
        return (i :: is, rest)
      else .error (.complaint t.span .unexpectedToken)) := by
  rw [moreTargets]
  split
  · next e htake => rw [htake]; rfl
  · next t rest htake =>
      rw [htake]
      show _ = if t.kind = .rightCurly then _ else if t.kind = .comma then _ else _
      split
      · rfl
      · split
        · split
          · next e htarget => rw [htarget]; rfl
          · next i rest' htarget =>
              rw [htarget]
              show _ = moreTargets rest' >>= _
              cases moreTargets rest' <;> rfl
        · rfl

open Cursor

/-- The lexemes but for blanks and comments. -/
def kept (ls : List Lexeme) : List Lexeme := ls.filter (·.1.isKept)

theorem kept_append (ls ls' : List Lexeme) : kept (ls ++ ls') = kept ls ++ kept ls' :=
  List.filter_append ..

/-- Of what separates groups of lexemes the commas are kept. -/
theorem kept_separated (x : List Lexeme) (xs : List (List Lexeme)) :
    kept (separated (x :: xs)) = kept x ++ xs.flatMap fun y => comma :: kept y := by
  induction xs generalizing x with
  | nil => simp [separated]
  | cons y ys ih =>
      rw [separated, List.intercalate_cons_cons, kept_append, kept_append, ← separated, ih]
      simp [kept, comma, blank, TokenKind.isKept]

/-- The cursor is over a text of `n` characters, has the lexemes before it and has passed the labels
of the positions before `pc`. -/
structure Reads (n len pc : Nat) (c : Cursor) (ws : List Lexeme) : Prop where
  sound : c.Sound n
  lexemes : c.rest.map Token.lexeme = ws
  charted : c.labels.Charted len pc

/-- The step has a result with a property, and the lexemes are left. -/
def Yields {α : Type} (n len pc : Nat) (c : Cursor) (ws : List Lexeme) (Q : α → Cursor → Prop)
    (x : Except Failure (α × Cursor)) : Prop :=
  ∃ a c', x = .ok (a, c') ∧ Reads n len pc c' ws ∧ c.Leads c' ∧ Q a c'

variable {α β : Type} {n len pc pc' : Nat} {c : Cursor} {ws ws' : List Lexeme}

theorem Yields.after {Q : α → Cursor → Prop} {x : Except Failure (α × Cursor)} {c' : Cursor}
    (hx : Yields n len pc c' ws Q x) (h : c.Leads c') : Yields n len pc c ws Q x := by
  obtain ⟨a, c'', hx, hc'', hl, hQ⟩ := hx
  exact ⟨a, c'', hx, hc'', h.trans hl, hQ⟩

theorem Yields.bind {Q : α → Cursor → Prop} {R : β → Cursor → Prop}
    {x : Except Failure (α × Cursor)} {g : α × Cursor → Except Failure (β × Cursor)}
    (hx : Yields n len pc c ws Q x)
    (hg : ∀ a c', Reads n len pc c' ws → c.Leads c' → Q a c' →
      Yields n len pc' c' ws' R (g (a, c'))) :
    Yields n len pc' c ws' R (x >>= g) := by
  obtain ⟨a, c', rfl, hc', hl, hQ⟩ := hx
  exact (hg a c' hc' hl hQ).after hl

namespace Reads

/-- The step has been carried out. -/
theorem yields {Q : α → Cursor → Prop} {a : α} (h : Reads n len pc c ws) (hQ : Q a c) :
    Yields n len pc c ws Q (.ok (a, c)) := ⟨a, c, rfl, h, .refl c, hQ⟩

variable {kind : TokenKind} {cs : List Char}

theorem exists_take (h : Reads n len pc c ((kind, cs) :: ws)) (hk : kind ≠ .endOfText) :
    ∃ t c', c.peek = .ok t ∧ c.take = .ok (t, c') ∧ t.kind = kind ∧ t.text.toList = cs ∧
      Reads n len pc c' ws ∧ c.Leads c' ∧ c.Took t c' := by
  obtain ⟨rest, last, labels⟩ := c
  cases rest with
  | nil => cases h.lexemes
  | cons t rest =>
      obtain ⟨hlexeme, hrest⟩ := List.cons.inj h.lexemes
      obtain ⟨hkind, htext⟩ := Prod.mk.inj hlexeme
      obtain ⟨hsound, hl, htook⟩ := h.sound.of_take rfl (hkind ▸ hk)
      exact ⟨t, _, rfl, rfl, hkind, htext, ⟨hsound, hrest, h.charted⟩, hl, htook⟩

theorem expect (h : Reads n len pc c ((kind, cs) :: ws)) (hk : kind ≠ .endOfText) :
    Yields n len pc c ws (fun t c' => t.text.toList = cs ∧ c.Took t c') (c.expect kind) := by
  obtain ⟨t, c', -, htake, hkind, htext, hc', hl, htook⟩ := h.exists_take hk
  refine ⟨t, c', ?_, hc', hl, htext, htook⟩
  unfold Cursor.expect
  rw [htake]
  exact if_pos hkind

/-! ### Operands -/

theorem register {file : Register.File} {r : Register} (hr : r.index.toNat < UInt32.size)
    (h : Reads n len pc c ((.identifier, r.name.toList) :: ws)) :
    Yields n len pc c ws (fun r' _ => r' = r) (register file c) := by
  refine (h.expect (by decide)).bind fun t c' hc' _ ⟨htext, _⟩ => ?_
  have hnamed : file.named? t.text = some r := by
    unfold Register.File.named?
    rw [htext, r.toList_name]
    show Option.map _ (Numeral.decimal? 32 (Nat.toDigits 10 r.index.toNat)) = some r
    rw [Numeral.decimal?_toDigits hr, Option.map_some, UInt64.ofNat_toNat]
  dsimp only
  rw [hnamed]
  exact hc'.yields rfl

/-- The lexemes of registers after the first. -/
def moreRegisterLexemes (rs : List Register) : List Lexeme :=
  rs.flatMap fun r => [comma, (.identifier, r.name.toList)]

theorem moreRegisters {file : Register.File} {os : List Operand} {rs : List Register}
    (hlength : rs.length = os.length) (hrs : ∀ r ∈ rs, r.index.toNat < UInt32.size)
    (h : Reads n len pc c (moreRegisterLexemes rs ++ ws)) :
    Yields n len pc c ws (fun rs' _ => rs' = rs) (moreRegisters file os c) := by
  induction os generalizing rs c with
  | nil =>
      obtain rfl := List.length_eq_zero_iff.mp hlength
      exact h.yields rfl
  | cons o os ih =>
      cases rs with
      | nil => cases hlength
      | cons r rs =>
          refine (h.expect (by decide)).bind fun _ c₁ hc₁ _ _ => ?_
          refine (hc₁.register (hrs r List.mem_cons_self)).bind fun r' c₂ hc₂ _ hr => ?_
          refine (ih (Nat.succ.inj hlength)
            (fun r hr => hrs r (List.mem_cons_of_mem _ hr)) hc₂).bind fun rs' c₃ hc₃ _ hrs' => ?_
          exact hc₃.yields (hr ▸ hrs' ▸ rfl)

theorem kept_registerLexemes {i : Instruction} {r : Register} {rs : List Register}
    (h : i.registers = r :: rs) :
    kept i.registerLexemes = (.identifier, r.name.toList) :: moreRegisterLexemes rs := by
  have hkept : kept i.registerLexemes =
      kept (separated ((r :: rs).map fun r => [(.identifier, r.name.toList)])) := by
    rw [Instruction.registerLexemes, h]
    rfl
  rw [hkept, List.map_cons, kept_separated, List.flatMap_map]
  rfl

theorem registers {file : Register.File} {i : Instruction}
    (hlength : i.registers.length = i.opcode.operands.length)
    (hrs : ∀ r ∈ i.registers, r.index.toNat < UInt32.size)
    (h : Reads n len pc c (kept i.registerLexemes ++ ws)) :
    Yields n len pc c ws (fun rs _ => rs = i.registers) (registers file i.opcode.operands c) := by
  cases hr : i.registers with
  | nil =>
      rw [hr] at hlength
      rw [Instruction.registerLexemes, hr] at h
      rw [List.length_eq_zero_iff.mp hlength.symm]
      exact h.yields rfl
  | cons r rs =>
      rw [kept_registerLexemes hr] at h
      rw [hr] at hlength hrs
      cases hos : i.opcode.operands with
      | nil => rw [hos] at hlength; cases hlength
      | cons o os =>
          rw [hos] at hlength
          refine (h.register (hrs r List.mem_cons_self)).bind fun r' c₁ hc₁ _ hr' => ?_
          refine (hc₁.moreRegisters (Nat.succ.inj hlength)
            fun r hr => hrs r (List.mem_cons_of_mem _ hr)).bind fun rs' c₂ hc₂ _ hrs' => ?_
          exact hc₂.yields (hr' ▸ hrs' ▸ rfl)

theorem number (negative : Bool) {m : Int64} (h : Reads n len pc c ((.number, cs) :: ws))
    (hm : Numeral.signed? (if negative then '-' :: cs else cs) = some m.toInt) :
    Yields n len pc c ws (fun m' _ => m' = m) (number negative c) := by
  refine (h.expect (by decide)).bind fun t c' hc' _ ⟨htext, _⟩ => ?_
  dsimp only
  rw [htext, hm]
  exact hc'.yields (Int64.ofInt_toInt m)

theorem literal {m : Int64} (h : Reads n len pc c (kept (literalLexemes m.toInt) ++ ws)) :
    Yields n len pc c ws (fun m' _ => m' = m) (literal c) := by
  have hlt := m.toInt_lt
  have hle := m.le_toInt
  unfold literalLexemes at h
  split at h
  · next hnonneg =>
      obtain ⟨t, c', -, htake, hkind, -⟩ := h.exists_take (by decide)
      unfold Assembly.literal
      rw [htake]
      dsimp only [bind, Except.bind]
      rw [hkind]
      refine h.number false ?_
      have hbound : m.toInt.toNat < 9223372036854775808 := by omega
      have hm := Numeral.signed?_toDigits hbound
      rwa [Int.toNat_of_nonneg hnonneg] at hm
  · next hneg =>
      obtain ⟨t, c', -, htake, hkind, -, hc', hl, -⟩ := h.exists_take (by decide)
      unfold Assembly.literal
      rw [htake]
      dsimp only [bind, Except.bind]
      rw [hkind]
      have hbound : (-m.toInt).toNat ≤ 9223372036854775808 := by omega
      have hm := Numeral.signed?_negative hbound
      rw [Int.toNat_of_nonneg (by omega), Int.neg_neg] at hm
      exact (hc'.number true hm).after hl

theorem target (hlen : len + 1 < UInt64.size) {t : UInt64} (ht : t.toNat ≤ len)
    (h : Reads n len pc c (labelLexemes t.toNat ++ ws)) :
    Yields n len pc c ws (fun i c' => c'.labels.Stands i t) (target c) := by
  refine (h.expect (by decide)).bind fun colon c₁ hc₁ _ ⟨_, hcolon⟩ => ?_
  refine (hc₁.expect (by decide)).bind fun name c₂ hc₂ hl ⟨htext, _⟩ => ?_
  have hstart := hcolon.start_le hl
  have hspan := Source.Span.within_of_le hstart hc₂.sound.legible.le
  dsimp only
  rw [spanFrom_eq hstart, String.toList_inj.mp htext]
  exact ⟨_, _, rfl, ⟨hc₂.sound.bindLabel _ hspan, hc₂.lexemes, hc₂.charted.bind ht _⟩,
    ⟨Nat.le_refl _, Labels.names_bind ..⟩, hc₂.charted.stands hlen ht _⟩

/-- The lexemes of targets after the first. -/
def moreTargetLexemes (ts : List UInt64) : List Lexeme :=
  ts.flatMap fun t => comma :: labelLexemes t.toNat

theorem moreTargets (hlen : len + 1 < UInt64.size) {ts : List UInt64}
    (hts : ∀ t ∈ ts, t.toNat ≤ len)
    (h : Reads n len pc c (moreTargetLexemes ts ++ (.rightCurly, ['\x7d']) :: ws)) :
    Yields n len pc c ws (fun is c' => is.Forall₂ c'.labels.Stands ts) (moreTargets c) := by
  induction ts generalizing c with
  | nil =>
      obtain ⟨t, c', -, htake, hkind, -, hc', hl, -⟩ := h.exists_take (by decide)
      rw [moreTargets_eq, htake]
      show Yields n len pc c ws _ (if t.kind = .rightCurly then _ else _)
      rw [if_pos hkind]
      exact (hc'.yields .nil).after hl
  | cons t ts ih =>
      obtain ⟨t', c', -, htake, hkind, -, hc', hl, -⟩ := h.exists_take (by decide)
      rw [moreTargets_eq, htake]
      show Yields n len pc c ws _
        (if t'.kind = .rightCurly then _ else if t'.kind = .comma then _ else _)
      rw [hkind, if_neg (by decide), if_pos rfl]
      refine Yields.after ?_ hl
      refine (hc'.target hlen (hts t List.mem_cons_self)).bind fun i c₁ hc₁ _ hi => ?_
      refine (ih (fun t ht => hts t (List.mem_cons_of_mem _ ht)) hc₁).bind
        fun is c₂ hc₂ hl₂ his => ?_
      exact hc₂.yields (.cons (hi.mono hl₂.names) his)

theorem targetTable (hlen : len + 1 < UInt64.size) {ts : List UInt64}
    (hts : ∀ t ∈ ts, t.toNat ≤ len)
    (h : Reads n len pc c ((.leftCurly, ['\x7b']) ::
      (kept (separated (ts.map fun t => labelLexemes t.toNat)) ++ (.rightCurly, ['\x7d']) :: ws))) :
    Yields n len pc c ws (fun is c' => is.Forall₂ c'.labels.Stands ts) (targetTable c) := by
  refine (h.expect (by decide)).bind fun _ c₁ hc₁ _ _ => ?_
  cases ts with
  | nil =>
      obtain ⟨t, c', -, htake, hkind, -, hc', hl, -⟩ := hc₁.exists_take (by decide)
      dsimp only
      rw [htake]
      show Yields n len pc c₁ ws _ (if t.kind = .rightCurly then _ else _)
      rw [if_pos hkind]
      exact (hc'.yields .nil).after hl
  | cons t ts =>
      rw [List.map_cons, kept_separated, List.flatMap_map] at hc₁
      obtain ⟨t', c', -, htake, hkind, -⟩ := hc₁.exists_take (by decide)
      dsimp only
      rw [htake]
      show Yields n len pc c₁ ws _ (if t'.kind = .rightCurly then _ else _)
      rw [hkind, if_neg (by decide)]
      rw [List.append_assoc] at hc₁
      refine (hc₁.target hlen (hts t List.mem_cons_self)).bind fun i c₂ hc₂ _ hi => ?_
      refine (hc₂.moreTargets hlen fun t ht => hts t (List.mem_cons_of_mem _ ht)).bind
        fun is c₃ hc₃ hl₃ his => ?_
      exact hc₃.yields (.cons (hi.mono hl₃.names) his)

/-! ### Statements -/

/-- An instruction is followed by no type: nothing is passed over. -/
theorem skipType_eq (op : Opcode) (h : Reads n len pc c ((kind, cs) :: ws))
    (hk : kind ≠ .comma) : skipType op c = c := by
  unfold Assembly.skipType
  split
  · split
    · next t _ _ hrest =>
        have hlexemes := h.lexemes
        rw [hrest] at hlexemes
        have hkind : t.kind = kind := congrArg Prod.fst (List.cons.inj hlexemes).1
        exact if_neg fun hcomma => hk (hkind ▸ hcomma.1)
    · rfl
  · rfl

end Reads

end Assembly

/-! ### Instructions -/

namespace Opcode

/-- A literal or a table of targets follows at least one register. -/
theorem operands_ne_nil : ∀ op ∈ table, (op.hasLiteral || op.family == .switch) = true →
    op.operands ≠ [] := by decide +kernel

theorem hasLiteral_of_branches {op : Opcode} (h : op.branches = true) : op.hasLiteral = false := by
  unfold hasLiteral
  unfold branches at h
  cases hf : op.family <;> rw [hf] at h <;> first | rfl | cases h

theorem family_ne_switch {op : Opcode} (h : op.branches = false) : op.family ≠ .switch := fun hs =>
  Bool.false_ne_true (h.symm.trans (branches_of_switch hs))

end Opcode

namespace Instruction

open Assembly

theorem length_of_checked {i j : Instruction} (h : i.checked = .ok j) :
    i.registers.length = i.opcode.operands.length := by
  unfold checked at h
  split at h
  · assumption
  · cases h

/-- What constructed instructions have: as many registers as operands, and a literal, targets or
neither, as the opcode asks for. -/
theorem Constructed.cases {i : Instruction} (h : i.Constructed) :
    i.registers.length = i.opcode.operands.length ∧
      (i.opcode.hasLiteral = true ∧ i.targets = [] ∨
        i.opcode.branches = true ∧ i.literal = 0 ∧
          (i.opcode.family = .switch ∨ ∃ t, i.targets = [t]) ∨
        i.opcode.hasLiteral = false ∧ i.opcode.branches = false ∧ i.targets = [] ∧
          i.literal = 0) := by
  cases h with
  | @plain op _ h =>
      unfold Instruction.plain at h
      split at h
      · cases h
      · next hb =>
          obtain rfl := eq_of_checked h
          refine ⟨length_of_checked h, ?_⟩
          cases hl : op.hasLiteral with
          | true => exact .inl ⟨rfl, rfl⟩
          | false => exact .inr (.inr ⟨rfl, Bool.eq_false_iff.mpr hb, rfl, rfl⟩)
  | literal h =>
      unfold withLiteral at h
      split at h
      · next hl =>
          obtain rfl := eq_of_checked h
          exact ⟨length_of_checked h, .inl ⟨hl, rfl⟩⟩
      · cases h
  | @branch op ts _ h =>
      unfold Instruction.branch at h
      split at h
      · cases h
      · next hb =>
          split at h
          · cases h
          · next hts =>
              obtain rfl := eq_of_checked h
              refine ⟨length_of_checked h, .inr (.inl ⟨by simpa using hb, rfl, ?_⟩)⟩
              by_cases hswitch : op.family = .switch
              · exact .inl hswitch
              · exact .inr (List.length_eq_one_iff.mp (by simpa [hswitch] using hts))

/-- The comma between the registers and what follows them. -/
def separatorLexemes (i : Instruction) : List Lexeme :=
  if (i.opcode.hasLiteral || i.opcode.branches) && !i.opcode.operands.isEmpty then [comma] else []

/-- The lexemes of what follows the registers, after the comma. -/
def completionLexemes (i : Instruction) : List Lexeme :=
  if i.opcode.hasLiteral then kept (literalLexemes i.literal.toInt)
  else if i.opcode.family = .switch then
    (.leftCurly, ['\x7b']) :: (kept (separated (i.targets.map fun t => labelLexemes t.toNat)) ++
      [(.rightCurly, ['\x7d'])])
  else i.targets.flatMap fun t => labelLexemes t.toNat

/-- The lexemes of a constructed instruction, in the order in which they are read. -/
theorem kept_lexemes {i : Instruction} (h : i.Constructed) (hop : i.opcode ∈ Opcode.table) :
    kept i.lexemes = (.identifier, i.opcode.mnemonic.toList) ::
      (kept i.registerLexemes ++ (i.separatorLexemes ++ i.completionLexemes)) := by
  obtain ⟨hrs, hcases⟩ := h.cases
  -- a listing looks at the registers where reading looks at the operands
  have hempty : i.registers.isEmpty = i.opcode.operands.isEmpty := by
    rw [Bool.eq_iff_iff, List.isEmpty_iff_length_eq_zero, List.isEmpty_iff_length_eq_zero, hrs]
  have hrest : kept ((if i.opcode.hasLiteral then
      comma :: blank :: literalLexemes i.literal.toInt else []) ++ i.targetLexemes) =
        i.separatorLexemes ++ i.completionLexemes := by
    have hsome := Opcode.operands_ne_nil i.opcode hop
    unfold separatorLexemes completionLexemes targetLexemes
    rcases hcases with ⟨hl, hts⟩ | ⟨hb, -, hts⟩ | ⟨hl, hb, hts, -⟩
    · have hb : i.opcode.branches = false := by
        by_contra hb
        rw [Opcode.hasLiteral_of_branches (Bool.eq_true_of_not_eq_false hb)] at hl
        cases hl
      simp [hl, Opcode.family_ne_switch hb, hts, hsome, kept, comma, blank, TokenKind.isKept]
    · have hl := Opcode.hasLiteral_of_branches hb
      by_cases hswitch : i.opcode.family = .switch
      · simp [hl, hb, hswitch, hsome, kept, comma, blank, TokenKind.isKept]
      · obtain ⟨t, ht⟩ := hts.resolve_left hswitch
        rw [hempty]
        cases i.opcode.operands.isEmpty <;>
          simp [hl, hb, hswitch, ht, kept, comma, blank, labelLexemes, TokenKind.isKept]
    · simp [hl, hb, Opcode.family_ne_switch hb, hts, kept]
  rw [lexemes, ← hrest, ← kept_append]
  rfl

end Instruction

namespace Assembly

open Cursor

variable {n len pc : Nat} {c : Cursor} {ws : List Lexeme}

/-- The instruction is another one, with numbers of labels for its targets. -/
def Labels.Numbers (ls : Labels) (i' i : Instruction) : Prop :=
  ∃ is, i' = { i with targets := is } ∧ is.Forall₂ ls.Stands i.targets

namespace Reads

theorem separator {i : Instruction} (h : Reads n len pc c (i.separatorLexemes ++ ws)) :
    Yields n len pc c ws (fun _ _ => True) (separator i.opcode c) := by
  unfold Instruction.separatorLexemes at h
  unfold Assembly.separator
  split at h
  · next hcomma =>
      rw [if_pos hcomma]
      refine (h.expect (by decide)).bind fun _ c' hc' _ _ => ?_
      exact hc'.yields trivial
  · next hcomma =>
      rw [if_neg hcomma]
      exact h.yields trivial

theorem completion {i : Instruction} (hi : i.Constructed) (hlen : len + 1 < UInt64.size)
    (hts : ∀ t ∈ i.targets, t.toNat ≤ len) (h : Reads n len pc c (i.completionLexemes ++ ws)) :
    Yields n len pc c ws (fun i' c' => c'.labels.Numbers i' i)
      (completion i.opcode i.registers c) := by
  obtain ⟨hrs, hcases⟩ := hi.cases
  obtain ⟨op, rs, ts, m⟩ := i
  unfold Instruction.completionLexemes at h
  unfold Assembly.completion
  dsimp only at hrs hcases hts h ⊢
  rcases hcases with ⟨hl, rfl⟩ | ⟨hb, rfl, hcount⟩ | ⟨hl, hb, rfl, rfl⟩
  · rw [if_pos hl] at h ⊢
    refine h.literal.bind fun m' c' hc' _ hm => ?_
    dsimp only
    rw [hm, Instruction.withLiteral_eq hl hrs]
    exact hc'.yields ⟨[], rfl, .nil⟩
  · rw [Opcode.hasLiteral_of_branches hb, if_neg Bool.false_ne_true] at h ⊢
    split at h
    · next hswitch =>
        rw [if_pos hswitch]
        rw [List.cons_append, List.append_assoc] at h
        refine (h.targetTable hlen hts).bind fun is c' hc' _ his => ?_
        dsimp only
        rw [Instruction.branch_eq hb (.inl hswitch) hrs]
        exact hc'.yields ⟨is, rfl, his⟩
    · next hswitch =>
        obtain ⟨t, rfl⟩ := hcount.resolve_left hswitch
        rw [if_neg hswitch, if_pos hb]
        refine (h.target hlen (hts t List.mem_cons_self)).bind fun j c' hc' _ hj => ?_
        dsimp only
        rw [Instruction.branch_eq hb (.inr rfl) hrs]
        exact hc'.yields ⟨[j], rfl, .cons hj .nil⟩
  · rw [hl, if_neg Bool.false_ne_true, if_neg (Opcode.family_ne_switch hb)] at h ⊢
    rw [hb, if_neg Bool.false_ne_true, Instruction.plain_eq hb hrs]
    exact h.yields ⟨[], rfl, .nil⟩

end Reads

end Assembly

end BytecodeVerifier
