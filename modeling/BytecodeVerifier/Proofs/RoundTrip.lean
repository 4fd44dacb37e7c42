import BytecodeVerifier.Proofs.Preimage
import BytecodeVerifier.Proofs.Reading

/-!
# Round trips — assembling undoes listing

**The listing of a method assembles to that method** (`assemble_listing`), whatever its name,
descriptor and code, as long as the names of its classes can be written.

A listing has a label at each position, so that the labels of a body are declared one after the
other, each before the instruction at its position: this is the invariant of reading a body
(`Reads.body`).  The instructions read have numbers of labels for targets; at the end every label
has its position, and the numbers are replaced by the targets they were written for
(`Labels.Charted.resolve_eq`).
-/

namespace BytecodeVerifier

/-- The instruction can be read back from a listing of `len` instructions. -/
structure Instruction.Listable (len : Nat) (i : Instruction) : Prop where
  constructed : i.Constructed
  opcode : i.opcode ∈ Opcode.table
  registers : ∀ r ∈ i.registers, r.index.toNat < UInt32.size
  targets : ∀ t ∈ i.targets, t.toNat ≤ len

/-- The method can be read back from its listing with a descriptor and a number of registers. -/
structure Method.Listable (m : Method) (descriptor : String) (count : Nat) : Prop where
  named : m.name ≠ ""
  /-- The rule of identifiers takes the whole name. -/
  name : Assembly.Form.identifier.run m.name.toList = m.name.toList.length
  plain : PlainDescriptor descriptor
  fits : count ≤ 65535
  shape : Register.File.ofDescriptor (UInt64.ofNat count) true descriptor =
    .ok (m.registers, m.returns)
  code : ∀ i ∈ m.code, i.Listable m.code.size
  /-- There is a label for each position, and for the end; longer code has no room in memory. -/
  size : m.code.size + 1 < UInt64.size

/-! ### Descriptors -/

open Assembly

theorem bytes_eq (s : String) : s.toUTF8.toList = s.toList.flatMap String.utf8EncodeChar := by
  obtain ⟨cs, rfl⟩ : ∃ cs, s = String.ofList cs := ⟨s.toList, String.ofList_toList.symm⟩
  rw [ByteArray.toList, toList_loop_eq, String.toList_ofList]
  exact List.toList_data_toByteArray

/-- No part of a character of field types is a parenthesis. -/
theorem utf8EncodeChar_of_isTypeChar {c : Char} (h : isTypeChar c = true) :
    ∀ b ∈ String.utf8EncodeChar c, (b != Register.asciiByte ')') = true := by
  have hlt : c.val.toNat < 128 := isTypeChar_ascii h
  have hle : c.val ≤ 127 := UInt32.le_iff_toNat_le.mpr (Nat.le_of_lt_succ hlt)
  rw [String.utf8EncodeChar_eq_singleton (Char.utf8Size_eq_one_iff.mpr hle)]
  simp only [List.mem_singleton, forall_eq, bne_iff_ne]
  intro hb
  refine (isTypeChar_ne h).1 (Char.ext (UInt32.toNat_inj.mp ?_))
  have hmod : c.val.toNat % 256 = 41 := congrArg UInt8.toNat hb
  show c.val.toNat = 41
  omega

/-- A descriptor of a method goes on after its parameters. -/
theorem PlainDescriptor.getLast?_ne {size : UInt64} {static : Bool} {d : String}
    {shape : Register.File × DeclaredType} (hd : PlainDescriptor d)
    (h : Register.File.ofDescriptor size static d = .ok shape) : d.toList.getLast? ≠ some ')' := by
  obtain ⟨arguments, result, hshape, hall⟩ := hd
  intro hlast
  -- the last parenthesis is the one after the parameters, which no result follows
  have hresult : result = [] := by
    cases result using List.reverseRecOn with
    | nil => rfl
    | append_singleton result c =>
        rw [hshape, ← List.cons_append, ← List.append_assoc, List.getLast?_concat] at hlast
        obtain rfl := Option.some.inj hlast
        exact absurd rfl (isTypeChar_ne (hall ')' (by simp))).1
  have hbytes : d.toUTF8.toList = Register.asciiByte '(' ::
      (arguments.flatMap String.utf8EncodeChar ++ [Register.asciiByte ')']) := by
    rw [bytes_eq, hshape, hresult, List.cons_append, List.flatMap_cons, List.flatMap_append]
    rfl
  have hmalformed : Register.Signature.ofBytes d.toUTF8.toList = .error .malformed := by
    rw [hbytes, Register.Signature.ofBytes, if_pos rfl, List.dropWhile_append_of_pos]
    · rfl
    · intro b hb
      obtain ⟨c, hc, hb⟩ := List.mem_flatMap.mp hb
      exact utf8EncodeChar_of_isTypeChar (hall c (List.mem_append_left _ hc)) b hb
  rw [Register.File.ofDescriptor, Register.File.ofBytes, hmalformed] at h
  cases h

namespace Assembly

open Cursor

/-! ### Positions for numbers -/

/-- What the steps of a sequence give, the sequence gives. -/
theorem mapM_eq_ok {ε α β : Type} {f : α → Except ε β} {as : List α} {bs : List β}
    (h : as.Forall₂ (fun a b => f a = .ok b) bs) : as.mapM f = .ok bs := by
  induction h with
  | nil => rfl
  | cons hab _ ih =>
      rw [List.mapM_cons, hab, ih]
      rfl

namespace Labels

variable {ls ls' : Labels} {len : Nat}

theorem Numbers.mono {i' i : Instruction} (h : ls.Numbers i' i) (hnames : ls.names <+: ls'.names) :
    ls'.Numbers i' i := by
  obtain ⟨is, rfl, his⟩ := h
  exact ⟨is, rfl, his.imp fun _ _ hj => hj.mono hnames⟩

/-- When all positions have been declared, numbers are replaced by what they stand for. -/
theorem Charted.resolve_eq (h : Charted len (len + 1) ls) {code' code : List Instruction}
    (hcode : code'.Forall₂ ls.Numbers code) : ls.resolve code' = .ok (.ok code) := by
  have hdeclared : ls.entries.find? (·.position.isNone) = none := by
    refine List.find?_eq_none.mpr fun l hl => ?_
    obtain ⟨k, hk, -, hposition⟩ := h.known l hl
    rw [hposition, if_pos (Nat.lt_succ_of_le hk)]
    exact Bool.false_ne_true
  have hresolved : (code'.mapM fun i => do
      let targets ← i.targets.mapM ls.positionOf
      return { i with targets } : Except Fault (List Instruction)) = .ok code := by
    refine mapM_eq_ok (hcode.imp ?_)
    rintro _ i ⟨is, rfl, his⟩
    dsimp only
    rw [mapM_eq_ok (his.imp fun _ _ hj => h.positionOf hj)]
    rfl
  unfold resolve
  rw [hdeclared]
  dsimp only
  rw [hresolved]
  rfl

end Labels

/-! ### Statements -/

theorem body_eq (file : Register.File) (pc : Nat) (c : Cursor) :
    body file pc c = (do
      let t ← c.peek
      if t.kind = .endKeyword then return ([], c)
      else if t.kind = .colon then
        let (_, c) ← label pc c
        body file pc c
      else
        let (i, c) ← instruction file c
        let (is, c) ← body file (pc + 1) c
        return (i :: is, c)) := by
  rw [body]
  split
  · next e hpeek => rw [hpeek]; rfl
  · next t hpeek =>
      rw [hpeek]
      show _ = if t.kind = .endKeyword then _ else if t.kind = .colon then _ else _
      split
      · rfl
      · split
        · split
          · next e hlabel => rw [hlabel]; rfl
          · next u c' hlabel => rw [hlabel]; rfl
        · split
          · next e hinstruction => rw [hinstruction]; rfl
          · next i c' hinstruction =>
              rw [hinstruction]
              show _ = body file (pc + 1) c' >>= _
              cases body file (pc + 1) c' <;> rfl

theorem kept_statementLexemes_cons (pc : Nat) (i : Instruction) (is : List Instruction) :
    kept (Method.statementLexemes pc (i :: is)) =
      labelLexemes pc ++ (kept i.lexemes ++ kept (Method.statementLexemes (pc + 1) is)) := by
  rw [Method.statementLexemes, kept_append]
  show labelLexemes pc ++ kept (i.lexemes ++ newline :: Method.statementLexemes (pc + 1) is) = _
  rw [kept_append]
  rfl

/-- Statements start with a label. -/
theorem exists_statementLexemes (pc : Nat) (is : List Instruction) :
    ∃ ws, kept (Method.statementLexemes pc is) = (.colon, [':']) :: ws := by
  cases is with
  | nil => exact ⟨_, rfl⟩
  | cons i is => exact ⟨_, rfl⟩

/-- The lexemes of a method, in the order in which they are read. -/
theorem kept_methodLexemes (m : Method) (d : String) (count : Nat) (rest ws : List Lexeme) :
    kept (m.lexemes d count rest) ++ ws =
      (.methodKeyword, ".method".toList) :: (.identifier, "static".toList) ::
        (.identifier, m.name.toList) :: (.descriptor, d.toList) ::
        (.registersKeyword, ".registers".toList) :: (.number, Nat.toDigits 10 count) ::
        (kept (Method.statementLexemes 0 m.code.toList) ++ (.endKeyword, ".end".toList) ::
          (.identifier, "method".toList) :: (kept rest ++ ws)) := by
  simp [Method.lexemes, kept, blank, newline, TokenKind.isKept]

/-- `static` before a name is a modifier. -/
theorem modifiers_eq {ts : List Token} {name d : List Char} {ws : List Lexeme}
    (h : ts.map Token.lexeme = (.identifier, "static".toList) :: (.identifier, name) ::
      (.descriptor, d) :: ws) :
    ∃ ts', modifiers ts = (true, ts') ∧
      ts'.map Token.lexeme = (.identifier, name) :: (.descriptor, d) :: ws := by
  obtain ⟨t₁, ts₁, rfl, h₁, hts₁⟩ := List.map_eq_cons_iff.mp h
  obtain ⟨t₂, ts₂, rfl, h₂, hts₂⟩ := List.map_eq_cons_iff.mp hts₁
  obtain ⟨t₃, ts₃, rfl, h₃, -⟩ := List.map_eq_cons_iff.mp hts₂
  have hstatic : t₁.text = "static" := String.toList_inj.mp (congrArg Prod.snd h₁)
  have hk₁ : t₁.kind = .identifier := congrArg Prod.fst h₁
  have hk₂ : t₂.kind = .identifier := congrArg Prod.fst h₂
  have hk₃ : t₃.kind = .descriptor := congrArg Prod.fst h₃
  exact ⟨t₂ :: t₃ :: ts₃, by simp [modifiers, hstatic, hk₁, hk₂, hk₃], hts₁⟩

namespace Reads

variable {n len pc : Nat} {c : Cursor} {cs : List Char} {ws : List Lexeme}

theorem instruction (file : Register.File) {i : Instruction} (hi : i.Listable len)
    (hlen : len + 1 < UInt64.size)
    (h : Reads n len pc c (kept i.lexemes ++ (.colon, cs) :: ws)) :
    Yields n len pc c ((.colon, cs) :: ws) (fun p c' => c'.labels.Numbers p.1 i)
      (instruction file c) := by
  rw [Instruction.kept_lexemes hi.constructed hi.opcode, List.cons_append, List.append_assoc,
    List.append_assoc] at h
  refine (h.expect (by decide)).bind fun mnemonic c₁ hc₁ _ ⟨htext, htook⟩ => ?_
  dsimp only
  rw [String.toList_inj.mp htext, Opcode.find?_mnemonic i.opcode hi.opcode]
  refine (hc₁.registers hi.constructed.cases.1 hi.registers).bind fun rs c₂ hc₂ hl₂ hrs => ?_
  refine hc₂.separator.bind fun _ c₃ hc₃ hl₃ _ => ?_
  dsimp only
  rw [hrs]
  refine (hc₃.completion hi.constructed hlen hi.targets).bind fun i' c₄ hc₄ hl₄ hi' => ?_
  have hstart := htook.start_le (hl₂.trans (hl₃.trans hl₄))
  dsimp only
  rw [hc₄.skipType_eq _ (by decide), spanFrom_eq hstart]
  exact hc₄.yields hi'

theorem label (hpc : pc ≤ len) (hlen : len + 1 < UInt64.size)
    (h : Reads n len pc c (labelLexemes pc ++ ws)) :
    Yields n len (pc + 1) c ws (fun _ _ => True) (label pc c) := by
  refine (h.expect (by decide)).bind fun colon c₁ hc₁ _ ⟨_, hcolon⟩ => ?_
  refine (hc₁.expect (by decide)).bind fun name c₂ hc₂ hl ⟨htext, _⟩ => ?_
  have hstart := hcolon.start_le hl
  have hspan := Source.Span.within_of_le hstart hc₂.sound.legible.le
  obtain ⟨hnew, hcharted⟩ := hc₂.charted.declare hpc hlen ⟨colon.start, c₂.last⟩
  have hsound := hc₂.sound.declareLabel (labelName pc) (UInt64.ofNat pc) hspan
  have hnames := c₂.labels.names_declare (labelName pc) (UInt64.ofNat pc) ⟨colon.start, c₂.last⟩
  dsimp only
  rw [spanFrom_eq hstart, String.toList_inj.mp htext]
  dsimp only [bind, Except.bind]
  cases hd : c₂.labels.declare (labelName pc) (UInt64.ofNat pc) ⟨colon.start, c₂.last⟩ with
  | mk new labels =>
    rw [hd] at hnew hcharted hsound hnames
    obtain rfl : new = true := hnew
    exact ⟨(), _, rfl, ⟨hsound, hc₂.lexemes, hcharted⟩, ⟨Nat.le_refl _, hnames⟩, trivial⟩

/-- A body which starts with a label goes on after it. -/
theorem body_label {file : Register.File} {pc' : Nat} {ws' : List Lexeme}
    {Q : List (Instruction × Source.Span) → Cursor → Prop} (hpc : pc ≤ len)
    (hlen : len + 1 < UInt64.size) (h : Reads n len pc c (labelLexemes pc ++ ws))
    (hnext : ∀ c', Reads n len (pc + 1) c' ws → Yields n len pc' c' ws' Q (body file pc c')) :
    Yields n len pc' c ws' Q (body file pc c) := by
  obtain ⟨t, -, hpeek, -, hkind, -⟩ := h.exists_take (by decide)
  rw [body_eq, hpeek]
  show Yields n len pc' c ws' Q
    (if t.kind = .endKeyword then _ else if t.kind = .colon then _ else _)
  rw [hkind, if_neg (by decide), if_pos rfl]
  exact (h.label hpc hlen).bind fun _ c' hc' _ _ => hnext c' hc'

/-- **A body yields the instructions which were listed**, with numbers of labels for targets. -/
theorem body (file : Register.File) {is : List Instruction} (his : ∀ i ∈ is, i.Listable len)
    (hpc : pc + is.length = len) (hlen : len + 1 < UInt64.size)
    (h : Reads n len pc c (kept (Method.statementLexemes pc is) ++ (.endKeyword, cs) :: ws)) :
    Yields n len (len + 1) c ((.endKeyword, cs) :: ws)
      (fun ps c' => (ps.map Prod.fst).Forall₂ c'.labels.Numbers is) (body file pc c) := by
  induction is generalizing pc c with
  | nil =>
      obtain rfl : pc = len := hpc
      refine h.body_label (Nat.le_refl _) hlen fun c₁ hc₁ => ?_
      obtain ⟨t, -, hpeek, -, hkind, -⟩ := hc₁.exists_take (by decide)
      rw [body_eq, hpeek]
      show Yields _ _ _ _ _ _ (if t.kind = .endKeyword then _ else _)
      rw [if_pos hkind]
      exact hc₁.yields .nil
  | cons i is ih =>
      rw [List.length_cons] at hpc
      rw [kept_statementLexemes_cons, List.append_assoc, List.append_assoc] at h
      refine h.body_label (by omega) hlen fun c₁ hc₁ => ?_
      obtain ⟨hi, his⟩ := List.forall_mem_cons.mp his
      -- the next statement starts with a colon, so that the instruction ends before it
      obtain ⟨ws', hws'⟩ := exists_statementLexemes (pc + 1) is
      rw [hws', List.cons_append] at hc₁
      have hfirst := hc₁
      rw [Instruction.kept_lexemes hi.constructed hi.opcode] at hfirst
      obtain ⟨t, -, hpeek, -, hkind, -⟩ := hfirst.exists_take (by decide)
      rw [body_eq, hpeek]
      show Yields _ _ _ _ _ _ (if t.kind = .endKeyword then _ else if t.kind = .colon then _ else _)
      rw [hkind, if_neg (by decide), if_neg (by decide)]
      refine (hc₁.instruction file hi hlen).bind fun p c₂ hc₂ _ hp => ?_
      rw [← List.cons_append, ← hws'] at hc₂
      refine (ih his (by omega) hc₂).bind fun ps c₃ hc₃ hl hps => ?_
      exact hc₃.yields (.cons (hp.mono hl.names) hps)

/-! ### Methods -/

/-- The header of a listing. -/
theorem header {keyword : List Char} {name d : String}
    (h : Reads n len pc c ((.methodKeyword, keyword) :: (.identifier, "static".toList) ::
      (.identifier, name.toList) :: (.descriptor, d.toList) :: ws)) :
    Yields n len pc c ws (fun h _ => h.name = name ∧ h.isStatic = true ∧ h.descriptor.text = d)
      (header c) := by
  refine (h.expect (by decide)).bind fun keyword c₁ hc₁ _ ⟨_, hkeyword⟩ => ?_
  obtain ⟨ts, hmodifiers, hts⟩ := modifiers_eq hc₁.lexemes
  have hc₂ : Reads n len pc { c₁ with rest := ts } _ :=
    ⟨hc₁.sound.modifiers hmodifiers, hts, hc₁.charted⟩
  have hl₂ : c₁.Leads { c₁ with rest := ts } := ⟨Nat.le_refl _, List.prefix_rfl⟩
  dsimp only
  rw [hmodifiers]
  refine Yields.after ?_ hl₂
  refine (hc₂.expect (by decide)).bind fun name c₃ hc₃ hl₃ ⟨hname, _⟩ => ?_
  refine (hc₃.expect (by decide)).bind fun descriptor c₄ hc₄ hl₄ ⟨hd, _⟩ => ?_
  have hstart := hkeyword.start_le (hl₂.trans (hl₃.trans hl₄))
  dsimp only
  rw [spanFrom_eq hstart]
  exact hc₄.yields ⟨String.toList_inj.mp hname, rfl, String.toList_inj.mp hd⟩

theorem registerFile {keyword : List Char} {d : String} {count : Nat} {header : Header}
    {shape : Register.File × DeclaredType} (hcount : count ≤ 65535)
    (hshape : Register.File.ofDescriptor (UInt64.ofNat count) true d = .ok shape)
    (hstatic : header.isStatic = true) (hd : header.descriptor.text = d)
    (h : Reads n len pc c
      ((.registersKeyword, keyword) :: (.number, Nat.toDigits 10 count) :: ws)) :
    Yields n len pc c ws (fun s _ => s = shape) (registerFile header c) := by
  refine (h.expect (by decide)).bind fun _ c₁ hc₁ _ _ => ?_
  refine (hc₁.expect (by decide)).bind fun t c₂ hc₂ _ ⟨htext, _⟩ => ?_
  have hfits : count < Nat.pow 2 16 := Nat.lt_succ_of_le hcount
  dsimp only
  rw [htext, Numeral.natural?_toDigits hfits]
  dsimp only
  rw [hstatic, hd, hshape]
  exact hc₂.yields rfl

theorem ending {keyword : List Char}
    (h : Reads n len pc c ((.endKeyword, keyword) :: (.identifier, "method".toList) :: ws)) :
    Yields n len pc c ws (fun _ _ => True) (ending c) := by
  refine (h.expect (by decide)).bind fun _ c₁ hc₁ _ _ => ?_
  refine (hc₁.expect (by decide)).bind fun word c₂ hc₂ _ ⟨htext, _⟩ => ?_
  dsimp only
  rw [if_pos (String.toList_inj.mp htext)]
  exact hc₂.yields trivial

/-- **A method yields the method which was listed.** -/
theorem method (f : Source) {m : Method} {d : String} {count : Nat} {rest : List Lexeme}
    (hm : m.Listable d count)
    (h : Reads n m.code.size 0 { c with labels := .empty } (kept (m.lexemes d count rest) ++ ws)) :
    Yields n m.code.size (m.code.size + 1) { c with labels := .empty } (kept rest ++ ws)
      (fun am _ => am.method = m) (method f c) := by
  rw [kept_methodLexemes] at h
  refine h.header.bind fun header c₁ hc₁ _ ⟨hname, hstatic, hd⟩ => ?_
  refine (hc₁.registerFile hm.fits hm.shape hstatic hd).bind fun shape c₂ hc₂ _ hs => ?_
  subst hs
  dsimp only
  refine (hc₂.body m.registers (by simpa using hm.code) (by simp) hm.size).bind
    fun ps c₃ hc₃ _ hps => ?_
  refine hc₃.ending.bind fun _ c₄ hc₄ hl _ => ?_
  have hnumbers := hps.imp fun _ _ hi => hi.mono hl.names
  dsimp only
  rw [hc₄.charted.resolve_eq hnumbers]
  refine hc₄.yields ?_
  rw [hname, Array.toArray_toList]

end Reads

/-! ### Sources -/

theorem methods_of_method {f : Source} {taken : List String} {c c' : Cursor} {t : Token}
    {m : AssembledMethod} (hpeek : c.peek = .ok t) (hkind : t.kind = .methodKeyword)
    (hmethod : method f c = .ok (m, c')) (hnew : m.method.name ∉ taken) :
    methods f taken c = (m :: ·) <$> methods f (m.method.name :: taken) c' := by
  rw [methods, hpeek]
  dsimp only
  rw [hkind, if_neg (by decide), if_pos rfl]
  split
  · next e herror =>
      rw [hmethod] at herror
      cases herror
  · next m' c'' hm =>
      obtain ⟨rfl, rfl⟩ := Prod.mk.inj (Except.ok.inj (hmethod.symm.trans hm))
      rw [if_neg (by simpa using hnew)]
      cases methods f (m.method.name :: taken) c' <;> rfl

theorem methods_of_endOfText {f : Source} {taken : List String} {c : Cursor} {t : Token}
    (hpeek : c.peek = .ok t) (hkind : t.kind = .endOfText) : methods f taken c = .ok [] := by
  rw [methods, hpeek]
  dsimp only
  rw [if_pos hkind]

/-- A listing, and nothing after it, yields one method. -/
theorem Reads.methods {n : Nat} {c : Cursor} (f : Source) {m : Method} {d : String} {count : Nat}
    {rest : List Lexeme} (hm : m.Listable d count) (hrest : kept rest = [])
    (h : Reads n m.code.size 0 { c with labels := .empty }
      (kept (m.lexemes d count rest) ++ [(.endOfText, [])])) :
    ∃ am, methods f [] c = .ok [am] ∧ am.method = m := by
  obtain ⟨am, c', hmethod, hc', -, ham⟩ := h.method f hm
  rw [kept_methodLexemes] at h
  obtain ⟨t, -, hpeek, -, hkind, -⟩ := h.exists_take (by decide)
  rw [hrest] at hc'
  obtain ⟨last, ts, hts, hlast, -⟩ := List.map_eq_cons_iff.mp hc'.lexemes
  have hend : Assembly.methods f [am.method.name] c' = .ok [] :=
    methods_of_endOfText (t := last) (by rw [peek, hts]) (congrArg Prod.fst hlast)
  have hfirst : c.peek = .ok t := hpeek
  refine ⟨am, ?_, ham⟩
  rw [methods_of_method hfirst hkind hmethod List.not_mem_nil, hend]
  rfl

/-- Blanks are spelled by lexemes of which none is kept. -/
theorem exists_blanks {blanks : String} (h : ∀ c ∈ blanks.toList, isBlank c = true) :
    ∃ rest, spell rest = blanks.toList ∧ Ready rest ∧ kept rest = [] := by
  by_cases hempty : blanks.toList = []
  · exact ⟨[], hempty.symm, ready_nil, rfl⟩
  · refine ⟨[(.whitespace, blanks.toList)], by simp [spell], ?_, rfl⟩
    exact ready_blank hempty h ⟨trivial, by rintro _ ⟨⟩⟩

/-- **Assembling undoes listing.** The listing of a method, with any blanks after it, assembles to
one method, which is the method listed. -/
theorem assemble_listing {m : Method} {d : String} {count : Nat} (hm : m.Listable d count)
    (file : String) {blanks : String} (hblanks : ∀ c ∈ blanks.toList, isBlank c = true) :
    ∃ am, assemble ⟨file, (m.listing d count ++ blanks).toList.toArray⟩ = .ok [am] ∧
      am.method = m := by
  -- the text is known only through the lexemes which spell it
  obtain ⟨rest, hspell, hready, hrest⟩ := exists_blanks hblanks
  have hname := isIdentifier_of_run (by simpa using hm.named) hm.name
  have hlexes := Method.lexes_lexemes count hname hm.plain (hm.plain.getLast?_ne hm.shape)
    (fun i hi => (hm.code i hi).opcode) hready
  have htext := m.spell_lexemes d count rest
  rw [hspell, ← String.toList_append] at htext
  generalize m.listing d count ++ blanks = text at htext ⊢
  obtain ⟨ts, htokens, hts⟩ := @tokens_of_lexes ⟨file, text.toList.toArray⟩ _ hlexes htext.symm
  rcases tokens_cases ⟨file, text.toList.toArray⟩ with ⟨ts', htokens', hlegible⟩ | ⟨span, hspan, -⟩
  · obtain rfl := Except.ok.inj (htokens.symm.trans htokens')
    unfold assemble
    rw [htokens]
    exact Reads.methods _ hm hrest
      ⟨⟨hlegible, List.forall_mem_nil _⟩, hts, Labels.charted_empty _⟩
  · rw [htokens] at hspan
    cases hspan

/-- A method with the least literal, an empty table of targets, one which names a target twice, and
a jump to the end. -/
def tour : Method where
  name := "<clinit>"
  registers := ⟨4, [⟨⟨2⟩, .int⟩, ⟨⟨3⟩, .reference⟩], rfl⟩
  returns := .int
  code := #[
    ⟨⟨"const-wide", .const, [Opcode.writes .long]⟩, [⟨0⟩], [], Int64.minValue⟩,
    ⟨⟨"sparse-switch", .switch, [Opcode.reads .int]⟩, [⟨2⟩], [], 0⟩,
    ⟨⟨"packed-switch", .switch, [Opcode.reads .int]⟩, [⟨2⟩], [4, 0, 4], 0⟩,
    ⟨⟨"goto", .goto, []⟩, [], [5], 0⟩,
    ⟨⟨"return", .returnValue, [Opcode.reads .narrow]⟩, [⟨2⟩], [], 0⟩]

theorem constructed_tour : ∀ i ∈ tour.code, i.Constructed := by
  simp only [tour, List.mem_toArray, List.forall_mem_cons]
  exact ⟨@Instruction.Constructed.literal _ ⟨"const-wide", .const, [Opcode.writes .long]⟩
      Int64.minValue [⟨0⟩] rfl,
    @Instruction.Constructed.branch _ ⟨"sparse-switch", .switch, [Opcode.reads .int]⟩ [] [⟨2⟩] rfl,
    @Instruction.Constructed.branch _ ⟨"packed-switch", .switch, [Opcode.reads .int]⟩ [4, 0, 4]
      [⟨2⟩] rfl,
    @Instruction.Constructed.branch _ ⟨"goto", .goto, []⟩ [5] [] rfl,
    @Instruction.Constructed.plain _ ⟨"return", .returnValue, [Opcode.reads .narrow]⟩ [⟨2⟩] rfl,
    fun i hi => absurd hi List.not_mem_nil⟩

theorem listable_tour : tour.Listable "(I[La/b;)I" 4 where
  named := by decide
  name := by decide +kernel
  plain := ⟨"I[La/b;".toList, ['I'], by decide +kernel, List.all_eq_true.mp (by decide +kernel)⟩
  fits := by decide
  shape := by decide +kernel
  code i hi := by
    have hopcode : ∀ i ∈ tour.code, i.opcode ∈ Opcode.table := by decide +kernel
    refine ⟨constructed_tour i hi, hopcode i hi, ?_, ?_⟩
    · revert i
      simp [tour, UInt32.size]
    · revert i
      simp [tour]
  size := by decide

theorem assemble_tour : ∃ am,
    assemble ⟨"tour.asm", (tour.listing "(I[La/b;)I" 4 ++ "\n").toList.toArray⟩ = .ok [am] ∧
      am.method = tour :=
  assemble_listing listable_tour "tour.asm" (List.all_eq_true.mp (by decide +kernel))

end Assembly

end BytecodeVerifier
