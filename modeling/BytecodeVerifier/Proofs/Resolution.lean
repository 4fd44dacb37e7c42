import BytecodeVerifier.Proofs.Labels
import Mathlib.Data.List.Forall2
import Mathlib.Data.List.Induction
import Mathlib.Data.List.Nodup

/-!
# Resolution — labels account for all their mentions

A method mentions its labels in any order: a use asks for a number, a declaration gives a position
and asks whether it is the first one.  `After mentions ls` says that the mentions, each with the
answer which it got, have led to the labels `ls`.

Nothing but the mentions matters.  The labels are the names in the order of their first mentions,
each with the position of its first declaration, if there is one (`account`): an empty account is
that of no mentions, and each mention leads from one account to the next (`bind_account`,
`declare_account`, `After.eq_account`).  Hence, whatever the order of the mentions, the targets of
code become the positions of the first declarations, unless a label is used and never declared
(`After.resolve_code`).
-/

namespace BytecodeVerifier.Assembly.Labels

/-- A mention of a label, with its answer: the number of the label which is used, or whether a
declaration is the first one. -/
inductive Mention where
  | used (name : String) (span : Source.Span) (number : Nat)
  | declared (name : String) (pc : UInt64) (span : Source.Span) (isFirst : Bool)
  deriving DecidableEq, Repr

namespace Mention

/-- The label which is mentioned. -/
def name : Mention → String
  | used name _ _ | declared name _ _ _ => name

/-- Where the label is mentioned. -/
def span : Mention → Source.Span
  | used _ span _ | declared _ _ span _ => span

/-- The position which a label gets. -/
def positionOf? (name : String) : Mention → Option UInt64
  | used _ _ _ => none
  | declared name' pc _ _ => if name' = name then some pc else none

variable (n : String) (pc : UInt64) (s : Source.Span) (i : Nat) (b : Bool)

@[simp] theorem name_used : (used n s i).name = n := rfl
@[simp] theorem name_declared : (declared n pc s b).name = n := rfl
@[simp] theorem span_used : (used n s i).span = s := rfl
@[simp] theorem span_declared : (declared n pc s b).span = s := rfl

end Mention

/-- The mentions lead from no labels to `ls`.  A declaration is at a position. -/
inductive After : List Mention → Labels → Prop where
  | start : After [] empty
  | use {ms : List Mention} {ls : Labels} (h : After ms ls) (name : String) (span : Source.Span) :
      After (ms ++ [.used name span (ls.bind name span).1]) (ls.bind name span).2
  | declare {ms : List Mention} {ls : Labels} (h : After ms ls) (name : String) (pc : UInt64)
      (span : Source.Span) (hpc : pc ≠ 0xFFFFFFFFFFFFFFFF) :
      After (ms ++ [.declared name pc span (ls.declare name pc span).1])
        (ls.declare name pc span).2

/-! ### The account of mentions -/

/-- The position of the first declaration of a label. -/
def firstPosition? (name : String) (ms : List Mention) : Option UInt64 :=
  ms.findSome? (Mention.positionOf? name)

/-- The mentions of labels which are not mentioned before. -/
def firstMentions (ms : List Mention) : List Mention :=
  ms.foldl (fun firsts m => if m.name ∈ firsts.map Mention.name then firsts else firsts ++ [m]) []

/-- The labels as they are mentioned: in the order of their first mentions, each with the position
of its first declaration. -/
def account (ms : List Mention) : Labels :=
  ⟨(firstMentions ms).map fun m => ⟨m.name, firstPosition? m.name ms, m.span⟩⟩

variable {ms : List Mention} {m : Mention} {ls : Labels} {name : String} {pc : UInt64}
  {span : Source.Span} {number : Nat} {isFirst : Bool}

theorem firstPosition?_used (name' : String) :
    firstPosition? name' (ms ++ [.used name span number]) = firstPosition? name' ms := by
  simp [firstPosition?, Mention.positionOf?]

theorem firstPosition?_declared (name' : String) :
    firstPosition? name' (ms ++ [.declared name pc span isFirst]) =
      (firstPosition? name' ms).or (if name = name' then some pc else none) := by
  simp [firstPosition?, Mention.positionOf?]

theorem firstPosition?_ne_none (h : .declared name pc span isFirst ∈ ms) :
    firstPosition? name ms ≠ none := by
  intro hnone
  simpa [Mention.positionOf?] using List.findSome?_eq_none_iff.mp hnone _ h

theorem firstMentions_concat (ms : List Mention) (m : Mention) :
    firstMentions (ms ++ [m]) =
      if m.name ∈ (firstMentions ms).map Mention.name then firstMentions ms
      else firstMentions ms ++ [m] := by
  simp [firstMentions]

/-- Where a label is looked for by its name, its first mention is found. -/
theorem find?_firstMentions (p : String → Bool) (ms : List Mention) :
    (firstMentions ms).find? (fun m => p m.name) = ms.find? fun m => p m.name := by
  induction ms using List.reverseRecOn with
  | nil => rfl
  | append_singleton ms m ih =>
      rw [firstMentions_concat, List.find?_append, ← ih]
      split
      · next hmem =>
          -- A mention of a known name finds nothing which the name's first mention does not find.
          cases hfind : (firstMentions ms).find? (fun m => p m.name) with
          | some m' => rfl
          | none =>
              obtain ⟨m', hm', hname⟩ := List.mem_map.mp hmem
              have hp : p m.name = false := by
                simpa [hname] using List.find?_eq_none.mp hfind m' hm'
              simp [hp]
      · rw [List.find?_append]

theorem names_account (ms : List Mention) :
    (account ms).names = (firstMentions ms).map Mention.name := by
  simp [names, account, Function.comp_def]

theorem mem_names_account (h : m ∈ ms) : m.name ∈ (account ms).names := by
  have hfind : ms.find? (fun m' => m'.name == m.name) ≠ none := fun hnone =>
    List.find?_eq_none.mp hnone m h (beq_self_eq_true _)
  obtain ⟨m', hm'⟩ := Option.ne_none_iff_exists'.mp hfind
  rw [← find?_firstMentions (· == m.name)] at hm'
  rw [names_account]
  exact List.mem_map.mpr ⟨m', List.mem_of_find?_eq_some hm', by simpa using List.find?_some hm'⟩

theorem firstPosition?_eq_none (h : name ∉ (account ms).names) : firstPosition? name ms = none := by
  refine List.findSome?_eq_none_iff.mpr fun m hm => ?_
  cases m with
  | used name' span number => rfl
  | declared name' pc span isFirst =>
      have hne : name' ≠ name := fun heq => h (heq ▸ mem_names_account hm)
      simp [Mention.positionOf?, hne]

theorem mem_account {l : Label} (h : l ∈ (account ms).entries) :
    l.position = firstPosition? l.name ms := by
  obtain ⟨m, -, rfl⟩ := List.mem_map.mp h
  rfl

/-! ### One mention -/

/-- A use leads from one account to the next. -/
theorem bind_account (name : String) (span : Source.Span) (number : Nat) :
    ((account ms).bind name span).2 = account (ms ++ [.used name span number]) := by
  rcases (account ms).bind_cases name span with ⟨hmem, h⟩ | ⟨hnew, h⟩
  · rw [names_account] at hmem
    rw [h]
    simp [account, firstMentions_concat, hmem, firstPosition?_used]
  · have hnone := firstPosition?_eq_none hnew
    rw [names_account] at hnew
    refine (congrArg Labels.mk h).trans ?_
    simp [account, firstMentions_concat, hnew, firstPosition?_used, hnone]

/-- A declaration leads from one account to the next, and is the first one if there is none before
it. -/
theorem declare_account (name : String) (span : Source.Span) (isFirst : Bool)
    (hpc : pc ≠ 0xFFFFFFFFFFFFFFFF) :
    (account ms).declare name pc span =
      ((firstPosition? name ms).isNone, account (ms ++ [.declared name pc span isFirst])) := by
  have hposition : position? pc = some pc := if_neg hpc
  unfold declare
  split
  · next hfind =>
      have hnew : name ∉ (account ms).names := by
        simpa [names] using List.find?_eq_none.mp hfind
      have hnone := firstPosition?_eq_none hnew
      rw [names_account] at hnew
      have hother : ∀ m ∈ firstMentions ms, name ≠ m.name := fun m hm heq =>
        hnew (heq ▸ List.mem_map_of_mem hm)
      simp +contextual [account, firstMentions_concat, hnew, hnone, firstPosition?_declared,
        hposition, hother]
  · next l hfind =>
      have hl := List.mem_of_find?_eq_some hfind
      have hname : l.name = name := by simpa using List.find?_some hfind
      have hmem : name ∈ (account ms).names := hname ▸ List.mem_map_of_mem hl
      rw [names_account] at hmem
      rw [mem_account hl, hname]
      cases hfirst : firstPosition? name ms with
      | some p =>
          -- The label keeps its position, as does every other label.
          have hkeep : ∀ m : Mention, firstPosition? m.name ms =
              firstPosition? m.name (ms ++ [.declared name pc span isFirst]) := by
            intro m
            rw [firstPosition?_declared]
            by_cases heq : name = m.name
            · simp [← heq, hfirst]
            · simp [heq]
          simp [account, firstMentions_concat, hmem, hkeep]
      | none =>
          -- The label gets its position, and every other label is as before.
          refine Prod.ext rfl (congrArg Labels.mk ?_)
          rw [account, List.map_map, firstMentions_concat, Mention.name_declared, if_pos hmem]
          refine List.map_congr_left fun m _ => ?_
          rw [firstPosition?_declared, hposition]
          by_cases heq : m.name = name
          · simp [heq, hfirst]
          · simp [heq, Ne.symm heq]

/-! ### All mentions -/

namespace After

/-- **The labels are the account of their mentions.** -/
theorem eq_account (h : After ms ls) : ls = account ms := by
  induction h with
  | start => rfl
  | use _ name span ih =>
      rw [← bind_account, ← ih]
  | declare _ name pc span hpc ih =>
      subst ih
      rw [declare_account name span _ hpc]

theorem nodup_names (h : After ms ls) : ls.names.Nodup := by
  induction h with
  | start => exact List.nodup_nil
  | @use ms ls _ name span ih =>
      rcases ls.bind_cases name span with ⟨-, h⟩ | ⟨hnew, h⟩
      · rw [h]
        exact ih
      · rw [names, h, List.map_append]
        exact ih.append (List.nodup_singleton _) (List.disjoint_singleton.mpr hnew)
  | @declare ms ls _ name pc span _ ih =>
      rcases ls.declare_cases name pc span with ⟨-, h⟩ | ⟨hnew, h⟩
      · rw [h]
        exact ih
      · rw [h]
        exact ih.append (List.nodup_singleton _) (List.disjoint_singleton.mpr hnew)

/-- The number which a use got stands for the name which it used, whatever came after it. -/
theorem names_getElem? (h : After ms ls) (hused : .used name span number ∈ ms) :
    ls.names[number]? = some name := by
  have hkept : ∀ {ls ls' : Labels}, ls.names <+: ls'.names → ls.names[number]? = some name →
      ls'.names[number]? = some name := by
    rintro ls ls' ⟨rest, hrest⟩ hget
    rw [← hrest, List.getElem?_append_left (List.getElem?_eq_some_iff.mp hget).1, hget]
  induction h with
  | start => exact absurd hused List.not_mem_nil
  | @use ms ls _ name' span' ih =>
      rcases List.mem_append.mp hused with hold | hnew
      · exact hkept (ls.names_bind name' span') (ih hold)
      · cases List.mem_singleton.mp hnew
        exact ls.names_bind_fst name span
  | @declare ms ls _ name' pc span' _ ih =>
      rcases List.mem_append.mp hused with hold | hnew
      · exact hkept (ls.names_declare name' pc span') (ih hold)
      · cases List.mem_singleton.mp hnew

theorem number_eq_iff {name' : String} {span' : Source.Span} {number' : Nat} (h : After ms ls)
    (hused : .used name span number ∈ ms) (hused' : .used name' span' number' ∈ ms) :
    number = number' ↔ name = name' := by
  have hname := h.names_getElem? hused
  have hname' := h.names_getElem? hused'
  constructor
  · rintro rfl
    exact Option.some.inj (hname.symm.trans hname')
  · rintro rfl
    exact (List.getElem?_inj (List.getElem?_eq_some_iff.mp hname).1 h.nodup_names).mp
      (hname.trans hname'.symm)

/-- Mentions start with mentions which led to labels of their own. -/
theorem exists_before {earlier : List Mention} (h : After ms ls) (hpre : earlier <+: ms) :
    ∃ ls₀, After earlier ls₀ := by
  induction h with
  | start =>
      obtain rfl := List.prefix_nil.mp hpre
      exact ⟨empty, .start⟩
  | use h name span ih =>
      rcases List.prefix_concat_iff.mp hpre with rfl | hpre
      · exact ⟨_, .use h name span⟩
      · exact ih hpre
  | declare h name pc span hpc ih =>
      rcases List.prefix_concat_iff.mp hpre with rfl | hpre
      · exact ⟨_, .declare h name pc span hpc⟩
      · exact ih hpre

/-- A declaration is the first one if none is among the mentions before it. -/
theorem isFirst_of_concat (h : After (ms ++ [.declared name pc span isFirst]) ls) :
    isFirst = (firstPosition? name ms).isNone := by
  generalize hms : ms ++ [.declared name pc span isFirst] = ms' at h
  cases h with
  | start => simp at hms
  | use => simp at hms
  | declare h name pc span hpc =>
      obtain ⟨rfl, hlast⟩ := List.append_inj' hms rfl
      cases hlast
      rw [h.eq_account, declare_account name span true hpc]

theorem isFirst_iff {earlier later : List Mention}
    (h : After (earlier ++ .declared name pc span isFirst :: later) ls) :
    isFirst = true ↔ firstPosition? name earlier = none := by
  have hpre : earlier ++ [.declared name pc span isFirst] <+:
      earlier ++ .declared name pc span isFirst :: later := by simp
  obtain ⟨ls₀, h₀⟩ := h.exists_before hpre
  rw [h₀.isFirst_of_concat, Option.isNone_iff_eq_none]

end After

/-! ### Positions for numbers -/

/-- The second instruction is the first one, with the position of a label's first declaration for
each number which a use of the label got. -/
def Retargeted (ms : List Mention) (i i' : Instruction) : Prop :=
  ∃ ts, i' = { i with targets := ts } ∧ i.targets.Forall₂ (fun t p => ∃ name span,
    .used name span t.toNat ∈ ms ∧ firstPosition? name ms = some p) ts

/-- Where labels are mentioned which are never declared, the first of them comes out. -/
theorem resolve_account_eq_error (code : List Instruction)
    (h : ms.find? (fun m => (firstPosition? m.name ms).isNone) = some m) :
    (account ms).resolve code = .ok (.error ⟨m.name, none, m.span⟩) := by
  have hnone : firstPosition? m.name ms = none := by simpa using List.find?_some h
  rw [← find?_firstMentions fun name => (firstPosition? name ms).isNone] at h
  have hfind : (account ms).entries.find? (·.position.isNone) = some ⟨m.name, none, m.span⟩ := by
    rw [account, List.find?_map, ← hnone]
    exact congrArg _ h
  rw [resolve, hfind]

namespace After

/-- The number which a use got has the position of the first declaration. -/
theorem firstPosition?_of_positionOf {t p : UInt64} (h : After ms ls)
    (hused : .used name span t.toNat ∈ ms) (hp : ls.positionOf t = .ok p) :
    firstPosition? name ms = some p := by
  have hget := h.names_getElem? hused
  rw [names, List.getElem?_map, Option.map_eq_some_iff] at hget
  obtain ⟨l, hl, rfl⟩ := hget
  have hposition : l.position = firstPosition? l.name ms :=
    mem_account (h.eq_account ▸ List.mem_of_getElem? hl)
  rw [← hposition]
  unfold positionOf at hp
  rw [hl] at hp
  split at hp
  · next heq =>
      cases heq
      cases hp
      rfl
  · cases hp

theorem retargeted {i i' : Instruction} (h : After ms ls)
    (hi : ∀ t ∈ i.targets, ∃ name span, .used name span t.toNat ∈ ms) (hres : ls.Resolves i i') :
    Retargeted ms i i' := by
  obtain ⟨ts, rfl, hts⟩ := hres
  refine ⟨ts, rfl, ((List.forall₂_and_left ..).mpr ⟨hi, hts⟩).imp ?_⟩
  rintro t p ⟨⟨name, span, hused⟩, hp⟩
  exact ⟨name, span, hused, h.firstPosition?_of_positionOf hused hp⟩

/-- Where every mention is of a label which is declared, code gets positions for numbers. -/
theorem exists_retargeted {code : List Instruction} (h : After ms ls)
    (hcode : ∀ i ∈ code, ∀ t ∈ i.targets, ∃ name span, .used name span t.toNat ∈ ms)
    (hfind : ms.find? (fun m => (firstPosition? m.name ms).isNone) = none) :
    ∃ code', ls.resolve code = .ok (.ok code') ∧ code.Forall₂ (Retargeted ms) code' := by
  have hlt : ∀ i ∈ code, ∀ t ∈ i.targets, t.toNat < ls.names.length := fun i hi t ht =>
    let ⟨_, _, hused⟩ := hcode i hi t ht
    (List.getElem?_eq_some_iff.mp (h.names_getElem? hused)).1
  rcases ls.resolve_cases hlt with ⟨l, hl, hnone, -⟩ | ⟨code', hok, hresolves⟩
  · -- A label is in the account because it is mentioned, and so it has been declared.
    rw [h.eq_account] at hl
    obtain ⟨m, hm, rfl⟩ := List.mem_map.mp hl
    rw [← find?_firstMentions fun name => (firstPosition? name ms).isNone] at hfind
    exact absurd hnone (by simpa using List.find?_eq_none.mp hfind m hm)
  · refine ⟨code', hok, ((List.forall₂_and_left ..).mpr ⟨hcode, hresolves⟩).imp ?_⟩
    exact fun i i' ⟨hi, hres⟩ => h.retargeted hi hres

/-- **Labels resolve whatever the order of their uses and declarations.**  Uses get the same number
just for the same name, and a declaration is told whether it is the first one.  Where every label
which is used is declared, code gets the positions of the first declarations for the numbers which
uses got, and nothing else in it changes; otherwise there is no new code, and the label comes out
which was used first of those which are never declared. -/
theorem resolve_code (h : After ms ls) :
    (∀ name span number name' span' number', .used name span number ∈ ms →
      .used name' span' number' ∈ ms → (number = number' ↔ name = name')) ∧
    (∀ earlier name pc span isFirst later,
      ms = earlier ++ .declared name pc span isFirst :: later →
        (isFirst = true ↔ firstPosition? name earlier = none)) ∧
    ∀ code : List Instruction,
      (∀ i ∈ code, ∀ t ∈ i.targets, ∃ name span, .used name span t.toNat ∈ ms) →
      (∀ name span number, .used name span number ∈ ms → firstPosition? name ms ≠ none) ∧
        (∃ code', ls.resolve code = .ok (.ok code') ∧ code.Forall₂ (Retargeted ms) code') ∨
      ∃ earlier name span number later, ms = earlier ++ .used name span number :: later ∧
        firstPosition? name ms = none ∧ (∀ m ∈ earlier, firstPosition? m.name ms ≠ none) ∧
        ls.resolve code = .ok (.error ⟨name, none, span⟩) := by
  refine ⟨fun _ _ _ _ _ _ hused hused' => h.number_eq_iff hused hused',
    fun _ _ _ _ _ _ hsplit => (hsplit ▸ h).isFirst_iff, fun code hcode => ?_⟩
  cases hfind : ms.find? fun m => (firstPosition? m.name ms).isNone with
  | none =>
      have hdeclared : ∀ m ∈ ms, firstPosition? m.name ms ≠ none := by
        simpa using List.find?_eq_none.mp hfind
      exact .inl ⟨fun name span number hused => hdeclared _ hused,
        h.exists_retargeted hcode hfind⟩
  | some m =>
      obtain ⟨hnone, earlier, later, rfl, hearlier⟩ := List.find?_eq_some_iff_append.mp hfind
      have herror := resolve_account_eq_error code hfind
      rw [← h.eq_account] at herror
      rw [Option.isNone_iff_eq_none] at hnone
      cases m with
      | declared name pc span isFirst =>
          exact absurd hnone
            (firstPosition?_ne_none (List.mem_append_right earlier List.mem_cons_self))
      | used name span number =>
          refine .inr ⟨earlier, name, span, number, later, rfl, hnone, fun m hm => ?_, herror⟩
          simpa [Option.isSome_iff_ne_none] using hearlier m hm

end After

/-- A jump forward to one label and back to another, which is declared twice. -/
def jumps : List Mention :=
  [.declared "top" 0 ⟨0, 3⟩ true, .used "end" ⟨9, 12⟩ 1, .used "top" ⟨18, 21⟩ 0,
    .declared "end" 2 ⟨22, 25⟩ true, .declared "top" 2 ⟨27, 30⟩ false]

/-- The two jumps, to the numbers of their labels. -/
def jumping : List Instruction :=
  [⟨⟨"goto", .goto, []⟩, [], [1], 0⟩, ⟨⟨"goto", .goto, []⟩, [], [0], 0⟩]

theorem jumps_resolve_code : ∃ ls, After jumps ls ∧
    (∀ i ∈ jumping, ∀ t ∈ i.targets, ∃ name span, .used name span t.toNat ∈ jumps) ∧
    ∃ code', ls.resolve jumping = .ok (.ok code') ∧ jumping.Forall₂ (Retargeted jumps) code' := by
  have h : After jumps ⟨[⟨"top", some 0, ⟨0, 3⟩⟩, ⟨"end", some 2, ⟨9, 12⟩⟩]⟩ :=
    ((((After.start.declare "top" 0 ⟨0, 3⟩ (by decide)).use "end" ⟨9, 12⟩).use "top"
      ⟨18, 21⟩).declare "end" 2 ⟨22, 25⟩ (by decide)).declare "top" 2 ⟨27, 30⟩ (by decide)
  have hcode : ∀ i ∈ jumping, ∀ t ∈ i.targets, ∃ name span, .used name span t.toNat ∈ jumps := by
    simp [jumping, jumps]
  have hdeclared : ∀ m ∈ jumps, firstPosition? m.name jumps ≠ none := by decide
  refine ⟨_, h, hcode, ?_⟩
  obtain ⟨-, -, hresolve⟩ := h.resolve_code
  rcases hresolve jumping hcode with ⟨-, hok⟩ | ⟨_, name, span, number, _, hsplit, hnone, -⟩
  · exact hok
  · have hused : .used name span number ∈ jumps := hsplit ▸ by simp
    exact absurd hnone (hdeclared _ hused)

end BytecodeVerifier.Assembly.Labels
