import BytecodeVerifier.Proofs.BitSet
import BytecodeVerifier.Proofs.Order
import BytecodeVerifier.Verify.Solve

/-!
# Worklists — what a join and a pop do

A worklist is *sound* when its parts agree: the blocks with an entry state are those visited, the
blocks on the stack are those pending, none of them twice, and each has an entry state.  On a sound
worklist no join and no pop faults (`Sound.join`, `Sound.pop`), and the worklist stays sound.

`Joined` says what a join does: the state flows into one entry state and leaves the others, and the
block is on the stack afterwards if its entry state changed.  `Flowed` says the same of a state that
flows into several blocks.
-/

namespace BytecodeVerifier.Dataflow.Worklist

/-- The entry state known for a block. -/
def Entry (w : Worklist) (b : Nat) (s : State) : Prop := w.entries[b]? = some (some s)

theorem Entry.unique {w : Worklist} {b : Nat} {s t : State} (hs : w.Entry b s)
    (ht : w.Entry b t) : s = t :=
  Option.some.inj (Option.some.inj (hs.symm.trans ht))

theorem Entry.lt {w : Worklist} {b : Nat} {s : State} (h : w.Entry b s) : b < w.entries.size :=
  (Array.getElem?_eq_some_iff.mp h).1

theorem entryOf_of_entry {w : Worklist} {b : Nat} {s : State} (h : w.Entry b s) :
    w.entryOf b = .ok (some s) := by
  unfold entryOf
  rw [show w.entries[b]? = some (some s) from h]

/-- The parts of a worklist of `k` blocks agree, and its entry states have `n` registers. -/
structure Sound (n k : Nat) (w : Worklist) : Prop where
  blocks : w.entries.size = k
  sizes : ∀ b s, w.Entry b s → s.size = n
  visited : ∀ b, w.visited.contains b = true ↔ ∃ s, w.Entry b s
  pending : ∀ b, w.pending.contains b = true ↔ b ∈ w.stack
  scheduled : ∀ b ∈ w.stack, ∃ s, w.Entry b s
  nodup : w.stack.Nodup

theorem not_entry_empty (k b : Nat) (s : State) : ¬ (empty k).Entry b s := by
  intro h
  simp [Entry, empty, Array.getElem?_replicate] at h

theorem sound_empty (n k : Nat) : (empty k).Sound n k := by
  refine ⟨by simp [empty], fun b s h => absurd h (not_entry_empty k b s), fun b => ?_,
    fun b => ?_, fun b hb => absurd hb List.not_mem_nil, List.nodup_nil⟩
  · simp only [empty, BitSet.contains_empty, Bool.false_eq_true, false_iff]
    rintro ⟨s, h⟩
    exact not_entry_empty k b s h
  · simp [empty]

/-! ### Recording and scheduling -/

theorem entries_record (w : Worklist) {b c : Nat} (s : State) (h : b ≠ c) :
    (w.record c s).entries[b]? = w.entries[b]? := by
  simp [record, h.symm]

theorem entry_record {w : Worklist} {c : Nat} (hc : c < w.entries.size) (s : State) :
    (w.record c s).Entry c s := by
  simp [Entry, record, hc]

theorem entry_record_cases {w : Worklist} {b c : Nat} {s t : State}
    (h : (w.record c s).Entry b t) : (b = c ∧ t = s) ∨ (b ≠ c ∧ w.Entry b t) := by
  by_cases hb : b = c
  · subst hb
    have hlt : b < w.entries.size := by simpa [record] using h.lt
    exact .inl ⟨rfl, h.unique (entry_record hlt s)⟩
  · exact .inr ⟨hb, by rw [Entry, ← entries_record w s hb]; exact h⟩

theorem exists_entry_record {w : Worklist} {b c : Nat} (hc : c < w.entries.size) {s : State}
    (h : ∃ t, w.Entry b t) : ∃ t, (w.record c s).Entry b t := by
  obtain ⟨t, ht⟩ := h
  by_cases hb : b = c
  · subst hb
    exact ⟨s, entry_record hc s⟩
  · exact ⟨t, by rw [Entry, entries_record w s hb]; exact ht⟩

namespace Sound

variable {n k : Nat} {w : Worklist}

/-- Another entry state for a block that has one. -/
theorem record (hw : w.Sound n k) {c : Nat} {e s : State} (he : w.Entry c e)
    (hs : s.size = n) : (w.record c s).Sound n k := by
  refine ⟨by simpa [Worklist.record] using hw.blocks, fun b t ht => ?_, fun b => ?_, hw.pending,
    fun b hb => exists_entry_record he.lt (hw.scheduled b hb), hw.nodup⟩
  · rcases entry_record_cases ht with ⟨-, rfl⟩ | ⟨-, ht⟩
    · exact hs
    · exact hw.sizes b t ht
  · show w.visited.contains b = true ↔ _
    rw [hw.visited b]
    refine ⟨exists_entry_record he.lt, ?_⟩
    rintro ⟨t, ht⟩
    rcases entry_record_cases ht with ⟨rfl, -⟩ | ⟨-, ht⟩
    · exact ⟨e, he⟩
    · exact ⟨t, ht⟩

/-- Another entry state, or a first one, for a block that is then put on the stack. -/
theorem record_schedule (hw : w.Sound n k) {c : Nat} {s : State} (hc : c < k)
    (hs : s.size = n) (hstack : c ∉ w.stack) : ((w.record c s).schedule c).Sound n k := by
  have hlt : c < w.entries.size := by rw [hw.blocks]; exact hc
  have hkept : ∀ b, (∃ t, w.Entry b t) → ∃ t, ((w.record c s).schedule c).Entry b t :=
    fun b => exists_entry_record hlt
  refine ⟨by simpa [Worklist.record, schedule] using hw.blocks, fun b t ht => ?_, fun b => ?_,
    fun b => ?_, fun b hb => ?_, List.nodup_cons.mpr ⟨hstack, hw.nodup⟩⟩
  · rcases entry_record_cases (show (w.record c s).Entry b t from ht) with ⟨-, rfl⟩ | ⟨-, ht⟩
    · exact hs
    · exact hw.sizes b t ht
  · simp only [schedule, Worklist.record, BitSet.contains_insert, Bool.or_eq_true, beq_iff_eq]
    rw [hw.visited b]
    constructor
    · rintro (h | rfl)
      · exact hkept b h
      · exact ⟨s, entry_record hlt s⟩
    · rintro ⟨t, ht⟩
      rcases entry_record_cases (show (w.record c s).Entry b t from ht) with ⟨h, -⟩ | ⟨-, ht⟩
      · exact .inr h
      · exact .inl ⟨t, ht⟩
  · simp only [schedule, Worklist.record, BitSet.contains_insert, Bool.or_eq_true, beq_iff_eq,
      List.mem_cons]
    rw [hw.pending b, or_comm]
  · rcases List.mem_cons.mp hb with rfl | hb
    · exact ⟨s, entry_record hlt s⟩
    · exact hkept b (hw.scheduled b hb)

end Sound

/-! ### Joining -/

/-- What a join does. -/
structure Joined (w : Worklist) (c : Nat) (s : State) (w' : Worklist) : Prop where
  /-- The state is merged into the entry state, if there is one. -/
  merged : ∀ e, w.Entry c e → w'.Entry c (e.merge s)
  /-- Otherwise it becomes the entry state. -/
  first : (∀ e, ¬ w.Entry c e) → w'.Entry c s
  /-- The other entry states stay. -/
  others : ∀ b, b ≠ c → w'.entries[b]? = w.entries[b]?
  /-- What was scheduled stays so. -/
  stack : ∀ b ∈ w.stack, b ∈ w'.stack
  /-- A block is scheduled if its entry state changes. -/
  changed : w'.entries[c]? ≠ w.entries[c]? → c ∈ w'.stack

/-- **A join succeeds**, and keeps a worklist sound. -/
theorem Sound.join {n k : Nat} {w : Worklist} (hw : w.Sound n k) {c : Nat} {s : State}
    (hc : c < k) (hs : s.size = n) :
    ∃ w', w.join c s = .ok w' ∧ w'.Sound n k ∧ Joined w c s w' := by
  have hlt : c < w.entries.size := by rw [hw.blocks]; exact hc
  have hcons : ∀ u : State, ((w.record c u).schedule c).Entry c u := entry_record hlt
  cases hentry : w.entries[c]? with
  | none => exact absurd (Array.getElem?_eq_none_iff.mp hentry) (Nat.not_le.mpr hlt)
  | some entry =>
      cases entry with
      | none =>
          -- The block has no entry state, so it was never scheduled.
          have hnot : ∀ e, ¬ w.Entry c e := fun e h => by
            rw [Entry, hentry] at h
            cases h
          have hstack : c ∉ w.stack := fun h => by
            obtain ⟨e, he⟩ := hw.scheduled c h
            exact hnot e he
          have hpend : w.pending.contains c = false := by
            rw [← Bool.not_eq_true, hw.pending c]
            exact hstack
          refine ⟨(w.record c s).schedule c, ?_, hw.record_schedule hc hs hstack,
            fun e h => absurd h (hnot e), fun _ => hcons s, fun b hb => entries_record w s hb,
            fun b hb => List.mem_cons_of_mem _ hb, fun _ => List.mem_cons_self⟩
          simp [Worklist.join, entryOf, hentry, Worklist.merged, hpend, bind, Except.bind, pure,
            Except.pure]
      | some e =>
          have he : w.Entry c e := hentry
          have hsize : s.size ≤ e.size := by rw [hs, hw.sizes c e he]
          have hms : (e.merge s).size = n := by rw [State.size_merge, hw.sizes c e he]
          have hvis : w.visited.contains c = true := (hw.visited c).mpr ⟨e, he⟩
          have hmerged : Worklist.merged (some e) s =
              .ok (e.merge s, decide (e.merge s ≠ e)) := by
            simp [Worklist.merged, State.join, hsize]
          have hentryOf : w.entryOf c = .ok (some e) := entryOf_of_entry he
          have hwhich : ∀ w' : Worklist, w'.Entry c (e.merge s) →
              ∀ e', w.Entry c e' → w'.Entry c (e'.merge s) := fun w' h e' he' => by
            obtain rfl := he.unique he'
            exact h
          by_cases hch : e.merge s = e
          · -- Nothing changes: all of `Joined` is about the worklist as it was.
            refine ⟨w, ?_, hw, hwhich w (by rw [hch]; exact he), fun h => absurd he (h e),
              fun _ _ => rfl, fun _ h => h, fun h => absurd rfl h⟩
            simp [Worklist.join, hentryOf, hmerged, hch, hvis, bind, Except.bind, pure,
              Except.pure]
          · by_cases hpend : w.pending.contains c = true
            · -- The block is scheduled already.
              refine ⟨w.record c (e.merge s), ?_, hw.record he hms,
                hwhich _ (entry_record hlt _), fun h => absurd he (h e),
                fun b hb => entries_record w _ hb, fun _ h => h,
                fun _ => (hw.pending c).mp hpend⟩
              simp [Worklist.join, hentryOf, hmerged, hch, hpend, bind, Except.bind, pure,
                Except.pure]
            · have hstack : c ∉ w.stack := fun h => hpend ((hw.pending c).mpr h)
              refine ⟨(w.record c (e.merge s)).schedule c, ?_,
                hw.record_schedule hc hms hstack, hwhich _ (hcons _), fun h => absurd he (h e),
                fun b hb => entries_record w _ hb, fun b hb => List.mem_cons_of_mem _ hb,
                fun _ => List.mem_cons_self⟩
              simp [Worklist.join, hentryOf, hmerged, hch, hpend, bind, Except.bind, pure,
                Except.pure]

namespace Joined

variable {n k : Nat} {w w' : Worklist} {c : Nat} {s : State}

/-- Entry states only rise. -/
theorem rises (h : Joined w c s w') (hw : w.Sound n k) (hs : s.size = n) {b : Nat} {e : State}
    (he : w.Entry b e) : ∃ e', w'.Entry b e' ∧ e ≤ e' := by
  by_cases hb : b = c
  · subst hb
    exact ⟨_, h.merged e he, State.le_merge_left (by rw [hs, hw.sizes b e he])⟩
  · exact ⟨e, by rw [Entry, h.others b hb]; exact he, le_refl e⟩

/-- The state arrives. -/
theorem arrives (h : Joined w c s w') (hw : w.Sound n k) (hs : s.size = n) :
    ∃ e, w'.Entry c e ∧ s ≤ e := by
  by_cases he : ∃ e, w.Entry c e
  · obtain ⟨e, he⟩ := he
    exact ⟨_, h.merged e he, State.le_merge_right (by rw [hs, hw.sizes c e he])⟩
  · exact ⟨s, h.first fun e he' => he ⟨e, he'⟩, le_refl s⟩

/-- What holds of entry states and of the state that flows in, and passes to merges, holds of the
entry states afterwards. -/
theorem entries (h : Joined w c s w') (hw : w.Sound n k) (hs : s.size = n)
    {P : Nat → State → Prop}
    (hmerge : ∀ b s t, s.size = n → t.size = n → P b s → P b t → P b (s.merge t))
    (hP : ∀ b e, w.Entry b e → P b e) (hPs : P c s) {b : Nat} {e : State} (he : w'.Entry b e) :
    P b e := by
  by_cases hb : b = c
  · subst hb
    by_cases hold : ∃ old, w.Entry b old
    · obtain ⟨old, hold⟩ := hold
      rw [he.unique (h.merged old hold)]
      exact hmerge b old s (hw.sizes b old hold) hs (hP b old hold) hPs
    · rw [he.unique (h.first fun e he' => hold ⟨e, he'⟩)]
      exact hPs
  · exact hP b e (by rw [Entry, ← h.others b hb]; exact he)

end Joined

/-! ### Popping -/

/-- The first block is taken off the stack, with its entry state; all entry states stay. -/
structure Popped (w : Worklist) (b : Nat) (s : State) (w' : Worklist) : Prop where
  entry : w.Entry b s
  entries : w'.entries = w.entries
  stack : w.stack = b :: w'.stack

theorem popped_of_pop {w w' : Worklist} {b : Nat} {s : State} (h : w.pop = .ok (b, s, w')) :
    Popped w b s w' := by
  obtain ⟨stack, hstack, he, rfl⟩ := pop_cases h
  exact ⟨he, rfl, hstack⟩

/-- A pop keeps a worklist sound. -/
theorem Sound.of_pop {n k : Nat} {w w' : Worklist} {b : Nat} {s : State} (hw : w.Sound n k)
    (h : w.pop = .ok (b, s, w')) : w'.Sound n k := by
  obtain ⟨stack, hstack, he, rfl⟩ := pop_cases h
  have hnd := hw.nodup
  rw [hstack, List.nodup_cons] at hnd
  refine ⟨hw.blocks, hw.sizes, hw.visited, fun c => ?_, fun c hc => hw.scheduled c ?_, hnd.2⟩
  · simp only [BitSet.contains_remove, Bool.and_eq_true, bne_iff_ne]
    rw [hw.pending c, hstack, List.mem_cons]
    constructor
    · rintro ⟨hmem | hmem, hne⟩
      · exact absurd hmem hne
      · exact hmem
    · intro hmem
      refine ⟨.inr hmem, ?_⟩
      rintro rfl
      exact hnd.1 hmem
  · rw [hstack]
    exact List.mem_cons_of_mem _ hc

/-- **A pop succeeds** on a sound worklist that is not empty. -/
theorem Sound.pop {n k : Nat} {w : Worklist} (hw : w.Sound n k) (hne : ¬ w.isEmpty = true) :
    ∃ b s w', w.pop = .ok (b, s, w') := by
  cases hstack : w.stack with
  | nil => simp [isEmpty, hstack] at hne
  | cons b stack =>
      obtain ⟨s, hs⟩ := hw.scheduled b (by rw [hstack]; exact List.mem_cons_self)
      refine ⟨b, s, { w with pending := w.pending.remove b, stack := stack }, ?_⟩
      simp [Worklist.pop, hstack, entryOf_of_entry hs, unwrap, bind, Except.bind, pure,
        Except.pure]

/-! ### Flowing into several blocks -/

/-- What a state does which flows into several blocks. -/
structure Flowed (w : Worklist) (s : State) (blocks : List Nat) (w' : Worklist) : Prop where
  /-- Entry states only rise. -/
  rises : ∀ b e, w.Entry b e → ∃ e', w'.Entry b e' ∧ e ≤ e'
  /-- The state arrives in every block. -/
  arrives : ∀ c ∈ blocks, ∃ e, w'.Entry c e ∧ s ≤ e
  /-- What was scheduled stays so. -/
  stack : ∀ b ∈ w.stack, b ∈ w'.stack
  /-- A block which is not scheduled has the entry state it had. -/
  kept : ∀ b, b ∉ w'.stack → w'.entries[b]? = w.entries[b]?

/-- **Flowing succeeds**, and keeps a worklist sound. -/
theorem Sound.flowInto {n k : Nat} {w : Worklist} (hw : w.Sound n k) {s : State}
    (hs : s.size = n) {blocks : List Nat} (hb : ∀ c ∈ blocks, c < k) :
    ∃ w', w.flowInto s blocks = .ok w' ∧ w'.Sound n k ∧ Flowed w s blocks w' := by
  induction blocks generalizing w with
  | nil =>
      exact ⟨w, rfl, hw, fun b e he => ⟨e, he, le_refl e⟩,
        fun c hc => absurd hc List.not_mem_nil, fun _ h => h, fun _ _ => rfl⟩
  | cons c blocks ih =>
      obtain ⟨w₁, h₁, hw₁, hj⟩ := hw.join (hb c List.mem_cons_self) hs
      obtain ⟨w', h', hw', hf⟩ := ih hw₁ fun d hd => hb d (List.mem_cons_of_mem _ hd)
      refine ⟨w', ?_, hw', fun b e he => ?_, fun d hd => ?_, fun b hb => hf.stack b (hj.stack b hb),
        fun b hnot => ?_⟩
      · unfold Worklist.flowInto at h' ⊢
        rw [List.foldlM_cons, h₁]
        exact h'
      · obtain ⟨e₁, he₁, hle₁⟩ := hj.rises hw hs he
        obtain ⟨e', he', hle⟩ := hf.rises b e₁ he₁
        exact ⟨e', he', le_trans hle₁ hle⟩
      · rcases List.mem_cons.mp hd with rfl | hd
        · obtain ⟨e₁, he₁, hle₁⟩ := hj.arrives hw hs
          obtain ⟨e', he', hle⟩ := hf.rises d e₁ he₁
          exact ⟨e', he', le_trans hle₁ hle⟩
        · exact hf.arrives d hd
      · rw [hf.kept b hnot]
        by_cases hc : b = c
        · -- Were the entry state another, the join would have scheduled the block.
          subst hc
          by_contra hch
          exact hnot (hf.stack b (hj.changed hch))
        · exact hj.others b hc

/-- What holds of entry states and of a state that flows into blocks, and passes to merges, holds of
the entry states afterwards. -/
theorem Sound.flowInto_entries {n k : Nat} {w w' : Worklist} (hw : w.Sound n k) {s : State}
    (hs : s.size = n) {blocks : List Nat} (hb : ∀ c ∈ blocks, c < k)
    (h : w.flowInto s blocks = .ok w') {P : Nat → State → Prop}
    (hmerge : ∀ b s t, s.size = n → t.size = n → P b s → P b t → P b (s.merge t))
    (hP : ∀ b e, w.Entry b e → P b e) (hPs : ∀ c ∈ blocks, P c s) :
    ∀ b e, w'.Entry b e → P b e := by
  induction blocks generalizing w with
  | nil => cases h; exact hP
  | cons c blocks ih =>
      obtain ⟨w₁, h₁, hw₁, hj⟩ := hw.join (hb c List.mem_cons_self) hs
      unfold Worklist.flowInto at h
      rw [List.foldlM_cons, h₁] at h
      exact ih hw₁ (fun d hd => hb d (List.mem_cons_of_mem _ hd)) h
        (fun b e he => hj.entries hw hs hmerge hP (hPs c List.mem_cons_self) he)
        fun d hd => hPs d (List.mem_cons_of_mem _ hd)

end BytecodeVerifier.Dataflow.Worklist
