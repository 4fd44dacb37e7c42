import BytecodeVerifier.Source
import Mathlib.Data.Nat.Count
import Mathlib.Order.Bounds.Basic
import Mathlib.Order.Interval.Finset.Nat

/-!
# Pointing — a diagnostic is shown where it belongs

The line of a position is found by a scan of the text from its start, which counts the lines and
keeps where the one at hand starts.  At each position on the way that is the last place up to there
where a line can start (`AtHand`).  Where the scan stops, a second one goes on to the first place
where a line can end (`isLeast_endOfLine`).  So the line which is found encloses the position
(`encloses_findLine`), be that on a newline, on an empty line or at the end of the text.

From that, **the mark stands under the span** (`render_points`): the indent is as wide as the part
of the line before the span, tab for tab, and there are as many carets as the span has characters on
the line, or one if it has none.
-/

namespace BytecodeVerifier

namespace Source

/-- A line can start at the position: there the text starts, or a newline stands before it. -/
def StartsLine (f : Source) (i : Nat) : Prop :=
  i = 0 ∨ ∃ k, i = k + 1 ∧ f.contents[k]? = some '\n'

/-- A line can end at the position: there the text ends, or a newline stands. -/
def EndsLine (f : Source) (i : Nat) : Prop :=
  i = f.length ∨ f.contents[i]? = some '\n'

/-- The line of a position: its number, where it starts and stops, and its text. -/
structure Line.Encloses (l : Line) (f : Source) (s : Nat) : Prop where
  number : l.number = 1 + Nat.count (fun i => f.contents[i]? = some '\n') s
  start : IsGreatest {i | i ≤ s ∧ f.StartsLine i} l.start
  stop : IsLeast {i | s ≤ i ∧ f.EndsLine i} l.stop
  text : l.text = f.slice l.start l.stop

namespace Line.Encloses

variable {l : Line} {f : Source} {s : Nat}

theorem start_le (h : l.Encloses f s) : l.start ≤ s := h.start.1.1

theorem le_stop (h : l.Encloses f s) : s ≤ l.stop := h.stop.1.1

theorem stop_le (h : l.Encloses f s) (hs : s ≤ f.length) : l.stop ≤ f.length :=
  h.stop.2 ⟨hs, .inl rfl⟩

theorem length_text (h : l.Encloses f s) (hs : s ≤ f.length) :
    l.text.length = l.stop - l.start := by
  have hstop : l.stop ≤ f.contents.size := h.stop_le hs
  rw [h.text, slice, Array.length_toList, Array.size_extract, Nat.min_eq_left hstop]

theorem getElem?_text (h : l.Encloses f s) {i : Nat} (hi : i < l.stop - l.start) :
    l.text[i]? = f.contents[l.start + i]? := by
  rw [h.text, slice, Array.getElem?_toList, Array.getElem?_extract]
  split
  · rfl
  · rw [Array.getElem?_eq_none]
    omega

end Line.Encloses

/-! ### Scanning -/

variable {f : Source}

/-- Where a character is left, the text goes on with it. -/
theorem getElem?_of_drop {i : Nat} {c : Char} {cs : List Char}
    (h : f.contents.toList.drop i = c :: cs) :
    f.contents[i]? = some c ∧ i < f.length ∧ f.contents.toList.drop (i + 1) = cs := by
  have hget : f.contents[i]? = some c := by
    rw [← Array.getElem?_toList, ← List.head?_drop, h, List.head?_cons]
  refine ⟨hget, (Array.getElem?_eq_some_iff.mp hget).1, ?_⟩
  rw [← List.drop_drop, h, List.drop_succ_cons, List.drop_zero]

/-- Where no character is left, the text is at its end. -/
theorem eq_length_of_drop {i : Nat} (h : f.contents.toList.drop i = []) (hi : i ≤ f.length) :
    i = f.length := by
  rw [List.drop_eq_nil_iff, Array.length_toList] at h
  exact Nat.le_antisymm hi h

/-- **The line at hand stops at the first place from there on where a line can end.** -/
theorem isLeast_endOfLine {i : Nat} {cs : List Char} (h : f.contents.toList.drop i = cs)
    (hi : i ≤ f.length) : IsLeast {j | i ≤ j ∧ f.EndsLine j} (endOfLine i cs) := by
  induction cs generalizing i with
  | nil => exact ⟨⟨Nat.le_refl i, .inl (eq_length_of_drop h hi)⟩, fun j hj => hj.1⟩
  | cons c cs ih =>
      obtain ⟨hget, hlt, hrest⟩ := getElem?_of_drop h
      rw [endOfLine]
      split
      · next hc => exact ⟨⟨Nat.le_refl i, .inr (hc ▸ hget)⟩, fun j hj => hj.1⟩
      · next hc =>
          obtain ⟨⟨hle, hends⟩, hleast⟩ := ih hrest hlt
          refine ⟨⟨Nat.le_of_succ_le hle, hends⟩, fun j hj => hleast ⟨?_, hj.2⟩⟩
          refine Nat.lt_of_le_of_ne hj.1 ?_
          rintro rfl
          rcases hj.2 with rfl | hnl
          · exact Nat.lt_irrefl _ hlt
          · exact hc (Option.some.inj (hget.symm.trans hnl))

/-- The line which a scan has at hand when it is at a position: its number, and where it starts. -/
structure AtHand (f : Source) (number start i : Nat) : Prop where
  number : number = 1 + Nat.count (fun j => f.contents[j]? = some '\n') i
  start : IsGreatest {j | j ≤ i ∧ f.StartsLine j} start

theorem atHand_zero : f.AtHand 1 0 0 :=
  ⟨by rw [Nat.count_zero], ⟨Nat.le_refl 0, .inl rfl⟩, fun _ hj => hj.1⟩

namespace AtHand

variable {number start i : Nat}

/-- After a newline the next line is at hand. -/
theorem newline (h : f.AtHand number start i) (hnl : f.contents[i]? = some '\n') :
    f.AtHand (number + 1) (i + 1) (i + 1) where
  number := by rw [Nat.count_succ, if_pos hnl, h.number, Nat.add_assoc]
  start := ⟨⟨Nat.le_refl _, .inr ⟨i, rfl, hnl⟩⟩, fun _ hj => hj.1⟩

/-- After any other character the same line is. -/
theorem next (h : f.AtHand number start i) (hnl : f.contents[i]? ≠ some '\n') :
    f.AtHand number start (i + 1) where
  number := by rw [Nat.count_succ, if_neg hnl, h.number, Nat.add_zero]
  start := by
    refine ⟨⟨Nat.le_succ_of_le h.start.1.1, h.start.1.2⟩, fun j hj => h.start.2 ⟨?_, hj.2⟩⟩
    refine Nat.le_of_lt_succ (Nat.lt_of_le_of_ne hj.1 ?_)
    rintro rfl
    rcases hj.2 with hzero | ⟨k, hk, hk'⟩
    · cases hzero
    · cases hk
      exact hnl hk'

/-- The line at hand, up to where it stops, encloses the position. -/
theorem encloses (h : f.AtHand number start i) {cs : List Char}
    (hcs : f.contents.toList.drop i = cs) (hi : i ≤ f.length) :
    (f.lineBetween number start (endOfLine i cs)).Encloses f i :=
  ⟨h.number, h.start, isLeast_endOfLine hcs hi, rfl⟩

end AtHand

/-- **The line of a position is found.**  Let a scan be at `i`, and let `p` be the first place from
there on which is the position looked for, or else the end of the text.  The line which is found
encloses `p`. -/
theorem encloses_findLine {position : Int} {number start i p : Nat} {cs : List Char}
    (h : f.AtHand number start i) (hcs : f.contents.toList.drop i = cs) (hip : i ≤ p)
    (hp : p ≤ f.length) (hfirst : ∀ j < p, (j : Int) ≠ position)
    (hfound : p < f.length → (p : Int) = position) :
    (f.findLine position number start i cs).Encloses f p := by
  induction cs generalizing number start i with
  | nil =>
      have hi := eq_length_of_drop hcs (Nat.le_trans hip hp)
      obtain rfl : i = p := Nat.le_antisymm hip (hi ▸ hp)
      exact h.encloses hcs hp
  | cons c cs ih =>
      obtain ⟨hget, hlt, hrest⟩ := getElem?_of_drop hcs
      rw [findLine]
      split
      · next hposition =>
          obtain rfl : i = p :=
            hip.eq_or_lt.resolve_right fun hbefore => hfirst i hbefore hposition
          exact h.encloses hcs hp
      · next hposition =>
          have hbefore : i < p := hip.lt_of_ne fun e => hposition (e ▸ hfound (e ▸ hlt))
          split
          · next hc => exact ih (h.newline (hc ▸ hget)) hrest hbefore
          · next hc =>
              have hnl : f.contents[i]? ≠ some '\n' := fun e =>
                hc (Option.some.inj (hget.symm.trans e))
              exact ih (h.next hnl) hrest hbefore

/-- **A span is on the line of its start**, and on the last line if it starts outside the text. -/
theorem encloses_enclosingLine (f : Source) (s : Span) : (f.enclosingLine s).Encloses f
    (if 0 ≤ s.start ∧ s.start < f.length then s.start.toNat else f.length) := by
  have hfind {p : Nat} (hp : p ≤ f.length) (hfirst : ∀ j < p, (j : Int) ≠ s.start)
      (hfound : p < f.length → (p : Int) = s.start) : (f.enclosingLine s).Encloses f p :=
    encloses_findLine atHand_zero rfl (Nat.zero_le p) hp hfirst hfound
  split
  · next hin => exact hfind (by omega) (fun j hj => by omega) (fun _ => by omega)
  · next hout => exact hfind (Nat.le_refl _) (fun j hj => by omega) (fun hlt => by omega)

end Source

/-! ### What is printed -/

namespace Diagnostic

open Source

/-- The indent has a tab for a tab of the line, and a blank for any other character. -/
theorem getElem?_indent {cs : List Char} {n i : Nat} (hi : i < n) (hn : n ≤ cs.length) :
    (indent cs n)[i]? = some (if cs[i]? = some '\t' then '\t' else ' ') := by
  have hlt : i < cs.length := Nat.lt_of_lt_of_le hi hn
  simp [indent, hi, hlt]

/-- The characters of a span which are on a line that encloses its start. -/
theorem card_marked {l : Line} {f : Source} {s e : Nat} (h : l.Encloses f s) :
    (Finset.Ico s e ∩ Finset.Ico l.start l.stop).card = min (l.stop - s) (e - s) := by
  rw [Finset.Ico_inter_Ico, Nat.card_Ico, sup_eq_left.mpr h.start_le]
  omega

/-- **A diagnostic is shown where it belongs.**  The line of a span of the text has one more than as
many newlines before the span for its number.  It starts at the last place not beyond the start of
the span where a line can start, and stops at the first place from there on where one can end.
Under a copy of it stands an indent of as many characters as the line has before the span, a tab for
a tab and else a blank, and then a caret for each character of the span on the line, and at least
one.  The carets do not reach beyond the line, unless none of the span is on it. -/
theorem render_points (f : Source) (message : String) {s e : Nat} (hse : s ≤ e)
    (he : e ≤ f.length) :
    ∃ (line : Line) (offset carets : Nat) (indent : List Char),
      f.enclosingLine ⟨s, e⟩ = line ∧
      line.number = 1 + Nat.count (fun i => f.contents[i]? = some '\n') s ∧
      IsGreatest {i | i ≤ s ∧ f.StartsLine i} line.start ∧
      IsLeast {i | s ≤ i ∧ f.EndsLine i} line.stop ∧
      line.start ≤ s ∧ s ≤ line.stop ∧ offset = s - line.start ∧
      (⟨f, ⟨s, e⟩, message⟩ : Diagnostic).render =
        s!"{f.name}:{line.number}:{1 + offset}-{1 + offset + carets} {message}\n" ++ "\n" ++
          String.ofList (f.slice line.start line.stop) ++ "\n" ++
          String.ofList (indent ++ List.replicate carets '^') ++ "\n" ∧
      indent.length = offset ∧
      (∀ i < offset,
        indent[i]? = some (if f.contents[line.start + i]? = some '\t' then '\t' else ' ')) ∧
      carets = max 1 (Finset.Ico s e ∩ Finset.Ico line.start line.stop).card ∧
      ((Finset.Ico s e ∩ Finset.Ico line.start line.stop).Nonempty → s + carets ≤ line.stop) := by
  have hs : s ≤ f.length := Nat.le_trans hse he
  have h : (f.enclosingLine ⟨s, e⟩).Encloses f s := by
    have hline := encloses_enclosingLine f ⟨s, e⟩
    have hp : (if 0 ≤ (s : Int) ∧ (s : Int) < f.length then (s : Int).toNat else f.length) = s := by
      split <;> omega
    rwa [hp] at hline
  have hstart := h.start_le
  have hstop := h.le_stop
  have hcard := card_marked (e := e) h
  have hlength := h.length_text hs
  have hoffset : (⟨f, ⟨s, e⟩, message⟩ : Diagnostic).offset =
      ((s - (f.enclosingLine ⟨s, e⟩).start : Nat) : Int) := (Int.ofNat_sub hstart).symm
  have hmark : (⟨f, ⟨s, e⟩, message⟩ : Diagnostic).markLength =
      ((max 1 (Finset.Ico s e ∩ Finset.Ico (f.enclosingLine ⟨s, e⟩).start
        (f.enclosingLine ⟨s, e⟩).stop).card : Nat) : Int) := by
    rw [markLength, hoffset, hcard]
    simp only [line, Line.length, Span.extent]
    omega
  refine ⟨_, _, _, indent (f.enclosingLine ⟨s, e⟩).text (s - (f.enclosingLine ⟨s, e⟩).start : Nat),
    rfl, h.number, h.start, h.stop, hstart, hstop, rfl, ?_, ?_, fun i hi => ?_, rfl, fun hne => ?_⟩
  · have hcolumn (n : Nat) : (1 + (n : Int)) = ((1 + n : Nat) : Int) := by omega
    rw [render, hoffset, hmark, ← h.text]
    simp only [hcolumn, ← Int.natCast_add]
    rfl
  · rw [indent, List.length_map, List.length_take, hlength, Int.toNat_natCast]
    omega
  · rw [getElem?_indent hi (by rw [hlength]; omega), h.getElem?_text (by omega)]
  · have hpos := Finset.card_pos.mpr hne
    omega

/-- Three lines, of which the second starts with a tab. -/
def threeLines : Source := ⟨"lines", #['a', '\n', '\t', 'b', 'c', '\n', 'd']⟩

/-- A span from the second line on to the third is marked on the second. -/
theorem threeLines_points : ∃ (indent : List Char) (carets : Nat),
    (⟨threeLines, ⟨3, 7⟩, "odd"⟩ : Diagnostic).render = "lines:2:2-4 odd\n\n\tbc\n" ++
      String.ofList (indent ++ List.replicate carets '^') ++ "\n" ∧
    indent.length = 1 ∧ indent[0]? = some '\t' ∧ carets = 2 := by
  have hline : threeLines.enclosingLine ⟨(3 : Nat), (7 : Nat)⟩ = ⟨2, 2, 5, ['\t', 'b', 'c']⟩ := by
    decide
  obtain ⟨line, offset, carets, indent, rfl, -, -, -, -, -, hoffset, hrender, hlength, hindent,
    hcarets, -⟩ := render_points threeLines "odd" (s := 3) (e := 7) (by decide) (by decide)
  rw [hline] at hoffset hrender hindent hcarets
  obtain rfl : offset = 1 := hoffset
  obtain rfl : carets = 2 := hcarets
  exact ⟨indent, 2, hrender, hlength, hindent 0 (by decide), rfl⟩

end Diagnostic

end BytecodeVerifier
