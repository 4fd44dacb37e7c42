import BytecodeVerifier.Assembly.Label
import Mathlib.Data.List.Basic

/-!
# Labels — numbers which keep standing for their names

A label is known by its number before its position is known.  What makes this right is that labels
are only ever added at the end: **the names of the labels seen so far stay where they are**
(`names_bind`, `names_declare`), so that the number which a use gets (`names_bind_fst`) still stands
for its name when all labels have been seen.

When numbers are replaced by positions, there is either a label without position, or every number of
a label has one (`resolve_cases`).
-/

namespace BytecodeVerifier

/-- Where each step of a sequence ends well, so does the sequence. -/
theorem exists_mapM_eq_ok {ε α β : Type} {f : α → Except ε β} {R : α → β → Prop} {as : List α}
    (h : ∀ a ∈ as, ∃ b, f a = .ok b ∧ R a b) : ∃ bs, as.mapM f = .ok bs ∧ as.Forall₂ R bs := by
  induction as with
  | nil => exact ⟨[], rfl, .nil⟩
  | cons a as ih =>
      obtain ⟨b, hb, hab⟩ := h a List.mem_cons_self
      obtain ⟨bs, hbs, habs⟩ := ih fun a' ha' => h a' (List.mem_cons_of_mem a ha')
      refine ⟨b :: bs, ?_, .cons hab habs⟩
      rw [List.mapM_cons, hb, hbs]
      rfl

namespace Assembly.Labels

/-- The names of the labels, by their numbers. -/
def names (ls : Labels) : List String := ls.entries.map Label.name

theorem length_names (ls : Labels) : ls.names.length = ls.entries.length := List.length_map _

variable (ls : Labels) (name : String) (pc : UInt64) (span : Source.Span)

/-! ### Using a label -/

/-- A use adds a label at the end, unless there is one of the name. -/
theorem bind_cases :
    name ∈ ls.names ∧ (ls.bind name span).2 = ls ∨
      name ∉ ls.names ∧ (ls.bind name span).2.entries = ls.entries ++ [⟨name, none, span⟩] := by
  unfold bind
  split
  · next i hi =>
      obtain ⟨hlt, hname, -⟩ := List.findIdx?_eq_some_iff_getElem.mp hi
      exact .inl ⟨List.mem_map.mpr ⟨_, List.getElem_mem hlt, by simpa using hname⟩, rfl⟩
  · next hnone =>
      refine .inr ⟨fun hmem => ?_, rfl⟩
      obtain ⟨l, hl, hname⟩ := List.mem_map.mp hmem
      simpa [hname] using List.findIdx?_eq_none_iff.mp hnone l hl

theorem names_bind : ls.names <+: (ls.bind name span).2.names := by
  rcases ls.bind_cases name span with ⟨-, h⟩ | ⟨-, h⟩
  · exact (congrArg names h).symm ▸ List.prefix_rfl
  · simp [names, h]

/-- The number which a use gets stands for the name used. -/
theorem names_bind_fst : (ls.bind name span).2.names[(ls.bind name span).1]? = some name := by
  unfold bind
  split
  · next i hi =>
      obtain ⟨hlt, hname, -⟩ := List.findIdx?_eq_some_iff_getElem.mp hi
      simpa [names, List.getElem?_eq_getElem hlt] using hname
  · simp [names]

theorem mem_bind {label : Label} (h : label ∈ (ls.bind name span).2.entries) :
    label ∈ ls.entries ∨ label = ⟨name, none, span⟩ := by
  rcases ls.bind_cases name span with ⟨-, h'⟩ | ⟨-, h'⟩
  · exact .inl (h' ▸ h)
  · simpa [h'] using h

/-! ### Declaring a label -/

/-- A declaration adds a name at the end, unless it is there. -/
theorem declare_cases :
    name ∈ ls.names ∧ (ls.declare name pc span).2.names = ls.names ∨
      name ∉ ls.names ∧ (ls.declare name pc span).2.names = ls.names ++ [name] := by
  unfold declare
  split
  · next hnone =>
      refine .inr ⟨fun hmem => ?_, by simp [names]⟩
      obtain ⟨l, hl, hname⟩ := List.mem_map.mp hmem
      simpa [hname] using List.find?_eq_none.mp hnone l hl
  · next label hfound =>
      refine .inl ⟨List.mem_map.mpr ⟨label, List.mem_of_find?_eq_some hfound,
        by simpa using List.find?_some hfound⟩, ?_⟩
      split
      · rfl
      · have hname : ∀ l : Label,
            (if l.name = name then { l with position := position? pc } else l).name = l.name := by
          intro l
          split <;> rfl
        simp [names, Function.comp_def, hname]

theorem names_declare : ls.names <+: (ls.declare name pc span).2.names := by
  rcases ls.declare_cases name pc span with ⟨-, h⟩ | ⟨-, h⟩
  · exact h ▸ List.prefix_rfl
  · rw [h]
    exact List.prefix_append _ _

/-- A label without position is declared. -/
theorem declare_fst (h : ∀ l ∈ ls.entries, l.name = name → l.position = none) :
    (ls.declare name pc span).1 = true := by
  unfold declare
  split
  · rfl
  · next label hfound =>
      have hnone := h label (List.mem_of_find?_eq_some hfound)
        (by simpa using List.find?_some hfound)
      rw [hnone]
      rfl

/-- A label which is declared has the position, and every other label is as before. -/
theorem mem_declare {label : Label} (hnew : (ls.declare name pc span).1 = true)
    (h : label ∈ (ls.declare name pc span).2.entries) :
    label.name = name ∧ label.position = position? pc ∨ label.name ≠ name ∧ label ∈ ls.entries := by
  unfold declare at hnew h
  split at h
  · next hnone =>
      rcases List.mem_append.mp h with h | h
      · exact .inr ⟨by simpa using List.find?_eq_none.mp hnone label h, h⟩
      · obtain rfl := List.mem_singleton.mp h
        exact .inl ⟨rfl, rfl⟩
  · next found hfound =>
    split at h
    · next hsome =>
        rw [hfound] at hnew
        simp only [hsome, if_true, Bool.false_eq_true] at hnew
    · obtain ⟨l, hl, rfl⟩ := List.mem_map.mp h
      split
      · next hname => exact .inl ⟨hname, rfl⟩
      · next hname => exact .inr ⟨hname, hl⟩

/-- The span of a label is the one at which it was first seen. -/
theorem span_of_mem_declare {label : Label} (h : label ∈ (ls.declare name pc span).2.entries) :
    label.span = span ∨ ∃ l ∈ ls.entries, label.span = l.span := by
  unfold declare at h
  split at h
  · rcases List.mem_append.mp h with h | h
    · exact .inr ⟨label, h, rfl⟩
    · obtain rfl := List.mem_singleton.mp h
      exact .inl rfl
  · split at h
    · exact .inr ⟨label, h, rfl⟩
    · obtain ⟨l, hl, rfl⟩ := List.mem_map.mp h
      refine .inr ⟨l, hl, ?_⟩
      split <;> rfl

/-! ### Positions for numbers -/

/-- The second instruction is the first one with positions for the numbers of labels. -/
def Resolves (i i' : Instruction) : Prop :=
  ∃ ts, i' = { i with targets := ts } ∧ i.targets.Forall₂ (fun t p => ls.positionOf t = .ok p) ts

theorem exists_positionOf (hall : ∀ l ∈ ls.entries, l.position ≠ none) {t : UInt64}
    (ht : t.toNat < ls.names.length) : ∃ p, ls.positionOf t = .ok p := by
  rw [length_names] at ht
  have hget := List.getElem?_eq_getElem ht
  have hpos := hall _ (List.getElem_mem ht)
  generalize ls.entries[t.toNat] = label at hget hpos
  obtain ⟨name, position, span⟩ := label
  cases position with
  | none => exact absurd rfl hpos
  | some p => exact ⟨p, by rw [positionOf, hget]⟩

theorem exists_resolves (hall : ∀ l ∈ ls.entries, l.position ≠ none) {i : Instruction}
    (h : ∀ t ∈ i.targets, t.toNat < ls.names.length) :
    ∃ i', (do
      let targets ← i.targets.mapM ls.positionOf
      return { i with targets } : Except Fault Instruction) = .ok i' ∧ ls.Resolves i i' := by
  obtain ⟨ts, hts, hforall⟩ := exists_mapM_eq_ok fun t ht =>
    let ⟨p, hp⟩ := ls.exists_positionOf hall (h t ht)
    ⟨p, hp, hp⟩
  exact ⟨{ i with targets := ts }, by rw [hts]; rfl, ts, rfl, hforall⟩

/-- **Resolving code finds a label without position, or a position for every target.** -/
theorem resolve_cases {code : List Instruction}
    (h : ∀ i ∈ code, ∀ t ∈ i.targets, t.toNat < ls.names.length) :
    (∃ l ∈ ls.entries, l.position = none ∧ ls.resolve code = .ok (.error l)) ∨
      ∃ code', ls.resolve code = .ok (.ok code') ∧ code.Forall₂ ls.Resolves code' := by
  unfold resolve
  split
  · next l hl =>
      exact .inl ⟨l, List.mem_of_find?_eq_some hl, by simpa using List.find?_some hl, rfl⟩
  · next hnone =>
      have hall : ∀ l ∈ ls.entries, l.position ≠ none := fun l hl => by
        simpa using List.find?_eq_none.mp hnone l hl
      obtain ⟨code', hcode', hresolves⟩ :=
        exists_mapM_eq_ok fun i hi => ls.exists_resolves hall (h i hi)
      refine .inr ⟨code', ?_, hresolves⟩
      rw [hcode']
      rfl

end Assembly.Labels

end BytecodeVerifier
