import BytecodeVerifier.Lexing.Lexer
import Mathlib.Data.List.Basic

/-!
# Lexing — how a lexer cuts a text

`Cut rules text i ts j` says that the tokens `ts` cut the text from `i` up to `j`: each starts where
the one before it stops, is not empty, and is of the kind of the first rule which matches there.

**What a lexer collects is such a cut** (`collect_cases`), from where it stands to the first
position at which no rule matches, or to the end of the text, and there one more token, which is
empty, if a rule matches the empty text.  Which kinds are ignored decides only which of these tokens
are kept (`collect_eq_filter`).  The other way round, a cut is what a lexer finds (`Cut.collect`).
-/

namespace BytecodeVerifier.Lexing

variable {κ α : Type}

namespace Lexer

/-- The lexer at a position of a text. -/
def placed (rules : List (Rule κ α)) (text : List α) (i : Nat) : Lexer κ α :=
  ⟨rules, text.length, i, text.drop i, false⟩

theorem new_eq_placed (rules : List (Rule κ α)) (text : List α) :
    new rules text = placed rules text 0 := rfl

variable {rules : List (Rule κ α)} {text : List α} {i : Nat}

/-! ### One token -/

/-- After a token within the text a lexer stands where the token stops. -/
theorem advance_placed {t : Token κ} (hi : i < text.length) (ht : i ≤ t.stop) :
    (placed rules text i).advance t = placed rules text t.stop := by
  have hne : i ≠ text.length := Nat.ne_of_lt hi
  simp only [advance, placed, hne, if_false, List.drop_drop, Nat.add_sub_cancel' ht]

/-- After the end of the text has been taken a lexer stands beyond it. -/
theorem advance_end (t : Token κ) :
    (placed rules text text.length).advance t = placed rules text (text.length + 1) := by
  simp only [advance, placed, if_pos, List.drop_drop, Nat.add_sub_cancel_left]

variable [BEq α] [LE α] [DecidableLE α]

theorem token?_placed (rules : List (Rule κ α)) {text : List α} {i : Nat} (hi : i ≤ text.length) :
    (placed rules text i).token? =
      (firstMatch? (text.drop i) rules).map fun m =>
        ⟨m.1, i, min text.length (i + m.2)⟩ :=
  if_pos hi

theorem token?_beyond (hi : text.length < i) : (placed rules text i).token? = none :=
  if_neg (Nat.not_le.mpr hi)

/-! ### Many tokens -/

variable [BEq κ]

theorem collect_stuck {l : Lexer κ α} (ignored : List κ) (h : l.token? = none) :
    l.collect ignored = ([], { l with found := false }) := by
  rw [collect]
  split
  · rfl
  · next h' => rw [h] at h'; cases h'

theorem collect_next {l : Lexer κ α} {t : Token κ} (ignored : List κ) (h : l.token? = some t) :
    l.collect ignored =
      (if ignored.contains t.kind then ((l.advance t).collect ignored).1
        else t :: ((l.advance t).collect ignored).1, ((l.advance t).collect ignored).2) := by
  rw [collect]
  split
  · next h' => rw [h] at h'; cases h'
  · next h' => rw [h] at h'; cases h'; rfl

/-- **To ignore kinds of token is to drop their tokens from those found.** -/
theorem collect_eq_filter (l : Lexer κ α) (ignored : List κ) :
    l.collect ignored =
      ((l.collect []).1.filter fun t => !ignored.contains t.kind, (l.collect []).2) := by
  fun_induction collect l ignored with
  | case1 l h => rw [collect_stuck _ h]; rfl
  | case2 l t h rest ih =>
      have hrest : rest = (l.advance t).collect ignored := rfl
      rw [collect_next _ h, hrest, ih]
      cases hk : ignored.contains t.kind <;> simp [hk]

end Lexer

/-! ### Cuts -/

variable [BEq α] [LE α] [DecidableLE α]

/-- The tokens cut the text from one position up to another. -/
inductive Cut (rules : List (Rule κ α)) (text : List α) : Nat → List (Token κ) → Nat → Prop where
  | nil (i : Nat) : Cut rules text i [] i
  | cons {i j n : Nat} {kind : κ} {ts : List (Token κ)} (hi : i < text.length)
      (hm : Lexer.firstMatch? (text.drop i) rules = some (kind, n))
      (h : Cut rules text (min text.length (i + n)) ts j) :
      Cut rules text i (⟨kind, i, min text.length (i + n)⟩ :: ts) j

namespace Cut

variable {rules : List (Rule κ α)} {text : List α} {i j k : Nat} {ts us : List (Token κ)}

theorem le (h : Cut rules text i ts j) : i ≤ j := by
  induction h with
  | nil i => exact Nat.le_refl i
  | cons hi _ _ ih => omega

theorem append (h : Cut rules text i ts j) (h' : Cut rules text j us k) :
    Cut rules text i (ts ++ us) k := by
  induction h with
  | nil i => exact h'
  | cons hi hm _ ih => exact .cons hi hm (ih h')

/-- A cut falls apart where one of its tokens stops. -/
theorem split {t : Token κ} (h : Cut rules text i ts k) (ht : t ∈ ts) :
    ∃ us vs, Cut rules text i us t.stop ∧ Cut rules text t.stop vs k := by
  induction h with
  | nil => cases ht
  | cons hi hm h ih =>
      rcases List.mem_cons.mp ht with rfl | ht
      · exact ⟨_, _, .cons hi hm (.nil _), h⟩
      · obtain ⟨us, vs, hus, hvs⟩ := ih ht
        exact ⟨_, vs, .cons hi hm hus, hvs⟩

/-- Each token lies between the two positions, and is not empty. -/
theorem bounds (h : Cut rules text i ts j) :
    ∀ t ∈ ts, i ≤ t.start ∧ t.start < t.stop ∧ t.stop ≤ j := by
  induction h with
  | nil => simp
  | @cons i j n kind ts hi hm h ih =>
      have hn := Lexer.firstMatch?_pos hm
      have hj := h.le
      simp only [List.mem_cons, forall_eq_or_imp]
      refine ⟨by omega, fun t ht => ?_⟩
      have := ih t ht
      omega

/-- Each token stops before the next one starts. -/
theorem pairwise (h : Cut rules text i ts j) : ts.Pairwise fun t u => t.stop ≤ u.start := by
  induction h with
  | nil => exact List.Pairwise.nil
  | cons hi hm h ih => exact List.pairwise_cons.mpr ⟨fun u hu => (h.bounds u hu).1, ih⟩

/-- **A lexer finds a cut**, and goes on from where it ends. -/
theorem collect [BEq κ] (h : Cut rules text i ts j) :
    (Lexer.placed rules text i).collect [] =
      (ts ++ ((Lexer.placed rules text j).collect []).1,
        ((Lexer.placed rules text j).collect []).2) := by
  induction h with
  | nil => rfl
  | @cons i j n kind ts hi hm h ih =>
      have htoken := Lexer.token?_placed rules (Nat.le_of_lt hi)
      rw [hm] at htoken
      rw [Lexer.collect_next _ htoken, Lexer.advance_placed hi (by simp only; omega), ih]
      rfl

/-- A text can be cut up to its end, or to where no rule matches. -/
theorem exists_longest (rules : List (Rule κ α)) (text : List α) (hi : i ≤ text.length) :
    ∃ ts j, Cut rules text i ts j ∧ j ≤ text.length ∧
      (j = text.length ∨ Lexer.firstMatch? (text.drop j) rules = none) := by
  induction hd : text.length - i using Nat.strongRecOn generalizing i with
  | ind d ih =>
      subst hd
      rcases Nat.lt_or_eq_of_le hi with hlt | rfl
      · cases hm : Lexer.firstMatch? (text.drop i) rules with
        | none => exact ⟨[], i, .nil i, hi, .inr hm⟩
        | some m =>
            obtain ⟨kind, n⟩ := m
            have hn := Lexer.firstMatch?_pos hm
            obtain ⟨ts, j, h, hj⟩ :=
              ih (text.length - min text.length (i + n)) (by omega) (Nat.min_le_left _ _) rfl
            exact ⟨_, j, .cons hlt hm h, hj⟩
      · exact ⟨[], _, .nil _, Nat.le_refl _, .inl rfl⟩

end Cut

namespace Lexer

variable [BEq κ] {rules : List (Rule κ α)} {text : List α}

/-- Where no rule matches, nothing is found. -/
theorem collect_unmatched {i : Nat} (hi : i ≤ text.length)
    (h : firstMatch? (text.drop i) rules = none) :
    (placed rules text i).collect [] = ([], placed rules text i) := by
  refine collect_stuck [] ?_
  rw [token?_placed rules hi, h, Option.map_none]

/-- At the end of the text one token is found, which is empty, and nothing after it. -/
theorem collect_end {kind : κ} {n : Nat} (h : firstMatch? [] rules = some (kind, n)) :
    (placed rules text text.length).collect [] =
      ([⟨kind, text.length, text.length⟩], placed rules text (text.length + 1)) := by
  have htoken := token?_placed rules (Nat.le_refl text.length)
  rw [List.drop_length, h, Option.map_some, Nat.min_eq_left (Nat.le_add_right _ _)] at htoken
  rw [collect_next _ htoken, advance_end, collect_stuck _ (token?_beyond (Nat.lt_succ_self _))]
  rfl

/-- **What is collected is a cut of the text**, up to where no rule matches, or up to the end and
then the token of the end. -/
theorem collect_cases (rules : List (Rule κ α)) (text : List α) :
    ∃ ts k, Cut rules text 0 ts k ∧ k ≤ text.length ∧
      (firstMatch? (text.drop k) rules = none ∧
          (new rules text).collect [] = (ts, placed rules text k) ∨
        k = text.length ∧ ∃ kind n, firstMatch? [] rules = some (kind, n) ∧
          (new rules text).collect [] =
            (ts ++ [⟨kind, k, k⟩], placed rules text (text.length + 1))) := by
  obtain ⟨ts, k, h, hk, hend⟩ := Cut.exists_longest rules text (Nat.zero_le _)
  refine ⟨ts, k, h, hk, ?_⟩
  rw [new_eq_placed, h.collect]
  cases hm : firstMatch? (text.drop k) rules with
  | none =>
      rw [collect_unmatched hk hm, List.append_nil]
      exact .inl ⟨rfl, rfl⟩
  | some m =>
      obtain ⟨kind, n⟩ := m
      obtain rfl : k = text.length := hend.resolve_right (by rw [hm]; exact Option.some_ne_none _)
      rw [List.drop_length] at hm
      rw [collect_end hm]
      exact .inr ⟨rfl, kind, n, hm, rfl⟩

end Lexer

end BytecodeVerifier.Lexing
