import BytecodeVerifier.Proofs.Scanning

/-!
# Separation — how much a scanner matches before a separator

Let a text be cut at some place, and let what follows there be replaced by a text which starts with
a *separator*.  What does a scanner match then?  It may look beyond what it matches, and so even
beyond the cut; four properties tell how far that goes.

* *Guarded*: a match which ends before the cut or at it stays, and so does a failure.  Nothing
  matches at a separator.
* *Halting*: moreover, a match which went beyond the cut ends there, or fails.
* *Lasting*: a match which ends before the cut or at it stays, but a failure may turn into a match.
* *Inner*: a match which ends before the cut stays.

A run of characters which are no separators is halting, and so is a word without separators.  Each
way of putting scanners together keeps what the next scanner needs: in a sequence the scanners up to
the last must halt, lest a later one match where it could not (`guarded_sequence_cons`).
-/

namespace BytecodeVerifier.Lexing

namespace Scanner

/-- The text starts with a separator. -/
def Parted (sep : Char → Bool) (text : List Char) : Prop := text.head?.any sep = true

/-- Before a separator the scanner matches what it matched before any other text, as far as it did
not go beyond the cut, and fails where it failed. -/
structure Guarded (sep : Char → Bool) (s : Scanner) : Prop where
  shut : ∀ {text : List Char}, Parted sep text → s.run text = 0
  firm : ∀ {cs text text' : List Char}, Parted sep text' → s.run (cs ++ text) ≤ cs.length →
    s.run (cs ++ text') = s.run (cs ++ text)

/-- Before a separator, moreover, the scanner fails or stops at the cut where it went beyond it. -/
structure Halting (sep : Char → Bool) (s : Scanner) : Prop extends Guarded sep s where
  halts : ∀ {cs text text' : List Char}, Parted sep text' → cs.length < s.run (cs ++ text) →
    s.run (cs ++ text') = 0 ∨ s.run (cs ++ text') = cs.length

/-- Before a separator the scanner matches what it matched before any other text, as far as it
matched and did not go beyond the cut. -/
structure Lasting (sep : Char → Bool) (s : Scanner) : Prop where
  lasts : ∀ {cs text text' : List Char}, Parted sep text' → s.run (cs ++ text) ≠ 0 →
    s.run (cs ++ text) ≤ cs.length → s.run (cs ++ text') = s.run (cs ++ text)

/-- Before a separator the scanner matches what it matched before any other text, as far as it
matched and did not come to the cut. -/
structure Inner (sep : Char → Bool) (s : Scanner) : Prop where
  stays : ∀ {cs text text' : List Char}, Parted sep text' → s.run (cs ++ text) ≠ 0 →
    s.run (cs ++ text) < cs.length → s.run (cs ++ text') = s.run (cs ++ text)

variable {sep p : Char → Bool} {s t : Scanner} {ss : List Scanner}

theorem Parted.ne_nil {text : List Char} (h : Parted sep text) : text ≠ [] := by
  rintro rfl
  cases h

theorem Parted.exists_cons {text : List Char} (h : Parted sep text) :
    ∃ c rest, text = c :: rest ∧ sep c = true := by
  obtain ⟨c, rest, rfl⟩ := List.exists_cons_of_ne_nil h.ne_nil
  exact ⟨c, rest, rfl, by simpa [Parted] using h⟩

theorem Guarded.fails (h : s.Guarded sep) {cs text text' : List Char} (ht : Parted sep text')
    (hzero : s.run (cs ++ text) = 0) : s.run (cs ++ text') = 0 :=
  (h.firm ht (hzero ▸ Nat.zero_le _)).trans hzero

theorem Guarded.lasting (h : s.Guarded sep) : s.Lasting sep := ⟨fun ht _ hle => h.firm ht hle⟩

theorem Lasting.inner (h : s.Lasting sep) : s.Inner sep :=
  ⟨fun ht hne hlt => h.lasts ht hne (Nat.le_of_lt hlt)⟩

/-! ### Runs -/

/-- A run which ends before the cut does not depend on what follows there. -/
theorem takeWhile_append_of_lt {cs text : List Char}
    (h : ((cs ++ text).takeWhile p).length < cs.length) (text' : List Char) :
    (cs ++ text').takeWhile p = (cs ++ text).takeWhile p := by
  rw [List.takeWhile_append] at h
  split at h
  · rw [List.length_append] at h
    omega
  · next hne => rw [List.takeWhile_append, if_neg hne, List.takeWhile_append, if_neg hne]

/-- Before a separator a run ends at the cut, if it does not end earlier. -/
theorem length_takeWhile_parted (hp : ∀ c, sep c = true → p c = false) {text' : List Char}
    (ht : Parted sep text') (cs text : List Char) :
    ((cs ++ text').takeWhile p).length = min cs.length ((cs ++ text).takeWhile p).length := by
  obtain ⟨c, rest, rfl, hc⟩ := ht.exists_cons
  have hnone : (c :: rest).takeWhile p = [] := List.takeWhile_cons_of_neg (by simp [hp c hc])
  rw [List.takeWhile_append, List.takeWhile_append, hnone, List.append_nil]
  split
  · rw [List.length_append]
    omega
  · have hle := (List.takeWhile_sublist (l := cs) p).length_le
    omega

/-- A scanner which takes runs without separators halts. -/
theorem halting_of_run (hp : ∀ c, sep c = true → p c = false)
    (h : ∀ text, s.run text = (text.takeWhile p).length) : s.Halting sep where
  shut {text} ht := by
    have hmin := length_takeWhile_parted hp ht [] []
    rw [h]
    simpa using hmin
  firm {cs text text'} ht hle := by
    rw [h] at hle
    rw [h, h, length_takeWhile_parted hp ht cs text, Nat.min_eq_right hle]
  halts {cs text text'} ht hlt := by
    rw [h] at hlt
    right
    rw [h, length_takeWhile_parted hp ht cs text, Nat.min_eq_left (Nat.le_of_lt hlt)]

/-- A scanner which takes runs is inner, also if separators are among them. -/
theorem inner_of_run (h : ∀ text, s.run text = (text.takeWhile p).length) : s.Inner sep where
  stays {cs text text'} _ _ hlt := by
    rw [h] at hlt
    rw [h, h, takeWhile_append_of_lt hlt]

theorem Picks.run_parted (h : s.Picks p) (hp : ∀ c, sep c = true → p c = false)
    {text : List Char} (ht : Parted sep text) : s.run text = 0 := by
  obtain ⟨c, rest, rfl, hc⟩ := ht.exists_cons
  rw [h]
  simp [hp c hc]

/-- A scanner which picks a character that is no separator halts. -/
theorem Picks.halting (h : s.Picks p) (hp : ∀ c, sep c = true → p c = false) : s.Halting sep where
  shut := h.run_parted hp
  firm {cs text text'} ht hle := by
    cases cs with
    | nil => exact (h.run_parted hp ht).trans (Nat.le_zero.mp hle).symm
    | cons c cs => rw [h, h]; rfl
  halts {cs text text'} ht hlt := by
    cases cs with
    | nil => exact .inl (h.run_parted hp ht)
    | cons c cs =>
        rw [h] at hlt
        split at hlt <;> simp at hlt

/-! ### Words -/

/-- Each of so many places has an item which is no separator, and no item lies elsewhere. -/
def covers (sep : Char → Bool) (items : List (Nat × Char)) (length : Nat) : Bool :=
  (List.range length).all (fun i => items.any fun (j, c) => j == i && !sep c) &&
    items.all fun (i, _) => decide (i < length)

/-- A word which lies before the cut does not depend on what follows there. -/
theorem matchesAt_append {items : List (Nat × Char)} {length : Nat} {cs : List Char}
    (hi : ∀ x ∈ items, x.1 < length) (hle : length ≤ cs.length) (text text' : List Char) :
    matchesAt items length (cs ++ text') = matchesAt items length (cs ++ text) := by
  have hget : ∀ x ∈ items, (cs ++ text')[x.1]? = (cs ++ text)[x.1]? := fun x hx => by
    have hlt : x.1 < cs.length := Nat.lt_of_lt_of_le (hi x hx) hle
    rw [List.getElem?_append_left hlt, List.getElem?_append_left hlt]
  unfold matchesAt
  rw [List.take_append_of_le_length hle, List.take_append_of_le_length hle, Bool.eq_iff_iff,
    Bool.and_eq_true, Bool.and_eq_true, List.all_eq_true, List.all_eq_true]
  refine and_congr_right fun _ => forall₂_congr fun x hx => ?_
  show ((cs ++ text')[x.1]? == some x.2) = true ↔ ((cs ++ text)[x.1]? == some x.2) = true
  rw [hget x hx]

/-- A word without separators does not reach beyond the cut. -/
theorem matchesAt_parted {items : List (Nat × Char)} {length : Nat} {cs text' : List Char}
    (hc : ∀ i < length, ∃ c, (i, c) ∈ items ∧ sep c = false) (hlt : cs.length < length)
    (ht : Parted sep text') : matchesAt items length (cs ++ text') = false := by
  obtain ⟨d, rest, rfl, hd⟩ := ht.exists_cons
  obtain ⟨c, hmem, hc⟩ := hc cs.length hlt
  refine Bool.and_eq_false_imp.mpr fun _ => List.all_eq_false.mpr ⟨(cs.length, c), hmem, ?_⟩
  have hne : d ≠ c := by
    rintro rfl
    rw [hc] at hd
    cases hd
  simpa using hne

theorem halting_spaced {items : List (Nat × Char)} {length : Nat}
    (h : covers sep items length = true) : (spaced items length).Halting sep := by
  obtain ⟨hcovered, hwithin⟩ := Bool.and_eq_true_iff.mp h
  have hi : ∀ x ∈ items, x.1 < length := fun x hx =>
    of_decide_eq_true (List.all_eq_true.mp hwithin x hx)
  have hc : ∀ i < length, ∃ c, (i, c) ∈ items ∧ sep c = false := fun i hlt => by
    have hany := List.all_eq_true.mp hcovered i (List.mem_range.mpr hlt)
    obtain ⟨⟨j, c⟩, hmem, hj⟩ := List.any_eq_true.mp hany
    obtain ⟨rfl, hsep⟩ : j = i ∧ sep c = false := by simpa using hj
    exact ⟨c, hmem, hsep⟩
  -- A word is compared with what stands before the cut, or else with a separator.
  have hrun (cs text : List Char) {text' : List Char} (ht : Parted sep text') :
      (spaced items length).run (cs ++ text') =
        if length ≤ cs.length then (spaced items length).run (cs ++ text) else 0 := by
    split
    · next hle => rw [run, run, matchesAt_append hi hle text text']
    · next hlt => rw [run, matchesAt_parted hc (Nat.not_le.mp hlt) ht, if_neg Bool.false_ne_true]
  have hcases (text : List Char) :
      (spaced items length).run text = 0 ∨ (spaced items length).run text = length := by
    rw [run]
    split
    · exact .inr rfl
    · exact .inl rfl
  refine ⟨⟨fun {text} ht => ?_, fun {cs text text'} ht hfirm => ?_⟩,
    fun {cs text text'} ht hlt => ?_⟩
  · have hnone := hrun [] [] ht
    rw [List.nil_append, List.nil_append, List.length_nil] at hnone
    rcases hcases [] with hzero | hlength
    · rw [hnone, hzero]
      exact ite_self 0
    · rw [hnone, hlength]
      split <;> omega
  · rw [hrun cs text ht]
    rcases hcases (cs ++ text) with hzero | hlength
    · rw [hzero]
      exact ite_self 0
    · rw [hlength] at hfirm ⊢
      exact if_pos hfirm
  · refine .inl ?_
    rw [hrun cs text ht]
    rcases hcases (cs ++ text) with hzero | hlength
    · omega
    · exact if_neg (by omega)

/-! ### Scanners put together -/

theorem guarded_eof : eof.Guarded sep where
  shut {text} ht := by
    obtain ⟨c, rest, rfl, -⟩ := ht.exists_cons
    rfl
  firm {cs text text'} ht hle := by
    obtain ⟨c, rest, rfl, -⟩ := ht.exists_cons
    cases cs with
    | nil => exact (Nat.le_zero.mp hle).symm
    | cons c cs => rfl

theorem guarded_any_nil : (any []).Guarded sep := ⟨fun _ => rfl, fun _ _ => rfl⟩

theorem run_any_cons (s : Scanner) (ss : List Scanner) (text : List Char) :
    (any (s :: ss)).run text = if s.run text = 0 then (any ss).run text else s.run text := by
  rw [run, runAny, run]

theorem guarded_any_cons (hs : s.Guarded sep) (hss : (any ss).Guarded sep) :
    (any (s :: ss)).Guarded sep where
  shut {text} ht := by rw [run_any_cons, if_pos (hs.shut ht), hss.shut ht]
  firm {cs text text'} ht hle := by
    rw [run_any_cons] at hle
    rw [run_any_cons, run_any_cons]
    by_cases hzero : s.run (cs ++ text) = 0
    · rw [if_pos hzero] at hle
      rw [if_pos hzero, if_pos (hs.fails ht hzero), hss.firm ht hle]
    · rw [if_neg hzero] at hle
      rw [hs.firm ht hle, if_neg hzero, if_neg hzero]

theorem lasting_any_cons (hs : s.Guarded sep) (hss : (any ss).Lasting sep) :
    (any (s :: ss)).Lasting sep where
  lasts {cs text text'} ht hne hle := by
    rw [run_any_cons] at hle hne
    rw [run_any_cons, run_any_cons]
    by_cases hzero : s.run (cs ++ text) = 0
    · rw [if_pos hzero] at hle hne
      rw [if_pos hzero, if_pos (hs.fails ht hzero), hss.lasts ht hne hle]
    · rw [if_neg hzero] at hle
      rw [hs.firm ht hle, if_neg hzero, if_neg hzero]

theorem lasting_any_one (hs : s.Lasting sep) : (any [s]).Lasting sep := by
  have hrun (text : List Char) : (any [s]).run text = s.run text := by
    rw [run_any_cons]
    split
    · next hzero => rw [hzero]; rfl
    · rfl
  refine ⟨fun {cs text text'} ht hne hle => ?_⟩
  rw [hrun] at hne hle
  rw [hrun, hrun, hs.lasts ht hne hle]

theorem guarded_all (hs : s.Guarded sep) (ht : t.Guarded sep) : (all [s, t]).Guarded sep := by
  have hrun (text : List Char) : (all [s, t]).run text =
      if s.run text = 0 ∨ t.run text = 0 then 0 else max (s.run text) (t.run text) := by
    rw [run, runAll, runAll]
  refine ⟨fun {text} hp => ?_, fun {cs text text'} hp hle => ?_⟩
  · rw [hrun, if_pos (.inl (hs.shut hp))]
  · rw [hrun] at hle
    rw [hrun, hrun]
    by_cases hzero : s.run (cs ++ text) = 0 ∨ t.run (cs ++ text) = 0
    · rw [if_pos hzero, if_pos (hzero.imp (hs.fails hp) (ht.fails hp))]
    · rw [if_neg hzero, Nat.max_le] at hle
      rw [hs.firm hp hle.1, ht.firm hp hle.2]

theorem run_sequence_cons {text : List Char} (hne : text ≠ []) :
    (sequence (s :: t :: ss)).run text =
      if s.run text = 0 ∨ (sequence (t :: ss)).run (text.drop (s.run text)) = 0 then 0
      else s.run text + (sequence (t :: ss)).run (text.drop (s.run text)) := by
  have hempty : text.isEmpty = false := by simpa using hne
  rw [run, runSequence, hempty, if_neg Bool.false_ne_true, run]

theorem run_sequence_one (s : Scanner) (text : List Char) :
    (sequence [s]).run text = if text.isEmpty then 0 else s.run text := by
  rw [run, runSequence]

theorem guarded_sequence_one (hs : s.Guarded sep) : (sequence [s]).Guarded sep where
  shut {text} ht := by
    rw [run_sequence_one, hs.shut ht]
    exact ite_self 0
  firm {cs text text'} ht hle := by
    have hne : (cs ++ text').isEmpty = false := by simp [ht.ne_nil]
    rw [run_sequence_one] at hle
    rw [run_sequence_one, run_sequence_one, hne, if_neg Bool.false_ne_true]
    split
    · next hempty =>
        obtain ⟨rfl, rfl⟩ : cs = [] ∧ text = [] := by simpa using hempty
        exact hs.shut ht
    · next hempty =>
        rw [if_neg hempty] at hle
        exact hs.firm ht hle

/-- **A sequence is guarded if its first scanner halts and the others together are guarded.** -/
theorem guarded_sequence_cons (hs : s.Halting sep) (hss : (sequence (t :: ss)).Guarded sep) :
    (sequence (s :: t :: ss)).Guarded sep where
  shut {text} ht := by rw [run_sequence_cons ht.ne_nil, if_pos (.inl (hs.shut ht))]
  firm {cs text text'} ht hle := by
    have hne' : cs ++ text' ≠ [] := by simp [ht.ne_nil]
    by_cases hnil : cs ++ text = []
    · obtain ⟨rfl, rfl⟩ := List.append_eq_nil_iff.mp hnil
      rw [List.nil_append, List.nil_append, run_sequence_cons ht.ne_nil, if_pos (.inl (hs.shut ht))]
      rfl
    rw [run_sequence_cons hnil] at hle
    rw [run_sequence_cons hnil, run_sequence_cons hne']
    by_cases hcut : s.run (cs ++ text) ≤ cs.length
    · have hfirst := hs.firm ht hcut
      rw [List.drop_append_of_le_length hcut] at hle ⊢
      rw [hfirst, List.drop_append_of_le_length hcut]
      by_cases hzero : s.run (cs ++ text) = 0
      · rw [if_pos (.inl hzero), if_pos (.inl hzero)]
      · rw [hss.firm ht ?_]
        rw [List.length_drop]
        split at hle
        · next h => rw [h.resolve_left hzero]; exact Nat.zero_le _
        · omega
    · -- The first scanner went beyond the cut, so the sequence can only have failed.
      have hfailed : s.run (cs ++ text) = 0 ∨
          (sequence (t :: ss)).run ((cs ++ text).drop (s.run (cs ++ text))) = 0 := by
        by_contra h
        rw [if_neg h] at hle
        omega
      rw [if_pos hfailed]
      refine if_pos ?_
      rcases hs.halts ht (Nat.not_le.mp hcut) with hzero | hstop
      · exact .inl hzero
      · rw [hstop, List.drop_left]
        exact .inr (hss.shut ht)

theorem lasting_sequence_cons (hs : s.Inner sep) (hss : (sequence (t :: ss)).Lasting sep) :
    (sequence (s :: t :: ss)).Lasting sep where
  lasts {cs text text'} ht hne hle := by
    have hnil : cs ++ text ≠ [] := fun h => hne (by rw [h]; rfl)
    have hne' : cs ++ text' ≠ [] := by simp [ht.ne_nil]
    rw [run_sequence_cons hnil] at hle hne
    rw [run_sequence_cons hnil, run_sequence_cons hne']
    split at hne
    · exact absurd rfl hne
    · next h =>
        obtain ⟨hfirst, hrest⟩ := not_or.mp h
        rw [if_neg h] at hle
        -- Something matches after the first scanner and before the cut.
        have hcut : s.run (cs ++ text) < cs.length := by omega
        rw [List.drop_append_of_le_length (Nat.le_of_lt hcut)] at hle hrest
        rw [hs.stays ht hfirst hcut, List.drop_append_of_le_length (Nat.le_of_lt hcut),
          List.drop_append_of_le_length (Nat.le_of_lt hcut), hss.lasts ht hrest]
        rw [List.length_drop]
        omega

theorem run_open (s t : Scanner) {text : List Char} (hne : text ≠ []) :
    (sequenceOpen [s, t]).run text = if s.run text = 0 then 0
      else s.run text + (sequence [t]).run (text.drop (s.run text)) := by
  have hempty : text.isEmpty = false := by simpa using hne
  have hlast (rest : List Char) : runOpen [t] rest = some ((sequence [t]).run rest) := by
    rw [run_sequence_one]
    simp only [runOpen]
  show (runOpen [s, t] text).getD 0 = _
  rw [runOpen, hempty, if_neg Bool.false_ne_true]
  dsimp only
  rw [hlast]
  split <;> rfl

/-- As the last scanner of an open sequence need not match, it is guarded if both are. -/
theorem guarded_open (hs : s.Guarded sep) (ht : t.Guarded sep) :
    (sequenceOpen [s, t]).Guarded sep where
  shut {text} hp := by rw [run_open s t hp.ne_nil, if_pos (hs.shut hp)]
  firm {cs text text'} hp hle := by
    have hne' : cs ++ text' ≠ [] := by simp [hp.ne_nil]
    by_cases hnil : cs ++ text = []
    · obtain ⟨rfl, rfl⟩ := List.append_eq_nil_iff.mp hnil
      rw [List.nil_append, List.nil_append, run_open s t hp.ne_nil, if_pos (hs.shut hp)]
      rfl
    rw [run_open s t hnil] at hle
    rw [run_open s t hnil, run_open s t hne']
    by_cases hzero : s.run (cs ++ text) = 0
    · rw [if_pos hzero, if_pos (hs.fails hp hzero)]
    · rw [if_neg hzero] at hle
      have hcut : s.run (cs ++ text) ≤ cs.length := by omega
      rw [List.drop_append_of_le_length hcut] at hle
      rw [hs.firm hp hcut, if_neg hzero, if_neg hzero, List.drop_append_of_le_length hcut,
        List.drop_append_of_le_length hcut, (guarded_sequence_one ht).firm hp]
      rw [List.length_drop]
      omega

end Scanner

namespace Lexer

variable {κ : Type} {sep : Char → Bool} {rules : List (Rule κ)} {cs text text' : List Char}
  {kind : κ} {n : Nat}

/-- **Of guarded rules the same one matches before a separator**, and as much. -/
theorem firstMatch?_parted (hrules : ∀ r ∈ rules, r.scanner.Guarded sep)
    (ht : Scanner.Parted sep text') (h : firstMatch? (cs ++ text) rules = some (kind, n))
    (hle : n ≤ cs.length) : firstMatch? (cs ++ text') rules = some (kind, n) := by
  induction rules with
  | nil => cases h
  | cons r rs ih =>
      obtain ⟨hr, hrs⟩ := List.forall_mem_cons.mp hrules
      rw [firstMatch?] at h ⊢
      split at h
      · next hzero =>
          rw [if_pos (hr.fails ht hzero)]
          exact ih hrs h
      · next hmatch =>
          cases h
          rw [hr.firm ht hle, if_neg hmatch]

end Lexer

end BytecodeVerifier.Lexing
