import BytecodeVerifier.Fault

/-!
# Values — what a register may hold

A register holds one of nine values.  They are ordered flat: `⊥` (never assigned) lies below the
seven defined values, and `⊤` (different values on different paths) above them.  `Value.join` is the
least upper bound of that order.  A long or a double occupies two adjacent registers, its low half
and its high half.
-/

namespace BytecodeVerifier

/-- What is known of a register. -/
inductive Value where
  /-- The register has not been written. -/
  | uninitialized
  /-- A 32-bit integer. -/
  | int
  /-- A 32-bit float. -/
  | float
  /-- A reference. -/
  | reference
  /-- The low half of a long pair. -/
  | longLow
  /-- The high half of a long pair. -/
  | longHigh
  /-- The low half of a double pair. -/
  | doubleLow
  /-- The high half of a double pair. -/
  | doubleHigh
  /-- Different values on different incoming paths: unreadable until written again. -/
  | conflict
  deriving DecidableEq, Repr, Inhabited

/-- The shape of a value, whatever its interpretation. -/
inductive Category where
  | none
  | int32
  | float32
  | reference
  | wideLow
  | wideHigh
  deriving DecidableEq, Repr, Inhabited

/-- The interpretation of a value, whichever half of it a register holds. -/
inductive Kind where
  | none
  | int
  | float
  | long
  | double
  | reference
  deriving DecidableEq, Repr, Inhabited

/-- The position of a category in the list of categories. -/
def Category.tag : Category → Nat
  | .none => 0
  | .int32 => 1
  | .float32 => 2
  | .reference => 3
  | .wideLow => 4
  | .wideHigh => 5

/-- The position of a kind in the list of kinds. -/
def Kind.tag : Kind → Nat
  | .none => 0
  | .int => 1
  | .float => 2
  | .long => 3
  | .double => 4
  | .reference => 5

namespace Value

/-- The values, in tag order. -/
def all : List Value :=
  [uninitialized, int, float, reference, longLow, longHigh, doubleLow, doubleHigh, conflict]

/-- The position of a value in `all`. -/
def tag : Value → Nat
  | uninitialized => 0
  | int => 1
  | float => 2
  | reference => 3
  | longLow => 4
  | longHigh => 5
  | doubleLow => 6
  | doubleHigh => 7
  | conflict => 8

/-- How a value is written; a high half is its low half primed. -/
def symbol : Value → String
  | uninitialized => "⊥"
  | int => "int"
  | float => "float"
  | reference => "ref"
  | longLow => "long"
  | longHigh => "long'"
  | doubleLow => "double"
  | doubleHigh => "double'"
  | conflict => "⊤"

/-- The category of a value; `⊥` and `⊤` have none. -/
def category : Value → Category
  | uninitialized | conflict => .none
  | int => .int32
  | float => .float32
  | reference => .reference
  | longLow | doubleLow => .wideLow
  | longHigh | doubleHigh => .wideHigh

/-- The kind of a value; `⊥` and `⊤` have none. -/
def kind : Value → Kind
  | uninitialized | conflict => .none
  | int => .int
  | float => .float
  | reference => .reference
  | longLow | longHigh => .long
  | doubleLow | doubleHigh => .double

/-- Neither `⊥` nor `⊤`. -/
def isDefined : Value → Bool
  | uninitialized | conflict => false
  | _ => true

/-- The low half of a pair. -/
def isWideLow (v : Value) : Bool := v.category == .wideLow

/-- The high half of a pair. -/
def isWideHigh (v : Value) : Bool := v.category == .wideHigh

/-- A value which fits one register. -/
def isNarrow (v : Value) : Bool :=
  match v.category with
  | .int32 | .float32 | .reference => true
  | _ => false

/-- The high half continuing a low half. -/
def high? : Value → Option Value
  | longLow => some longHigh
  | doubleLow => some doubleHigh
  | _ => none

/-- The low half continued by a high half. -/
def low? : Value → Option Value
  | longHigh => some longLow
  | doubleHigh => some doubleLow
  | _ => none

/-- The high half of a value, which must be a low half. -/
def high (v : Value) : Except Fault Value :=
  match v.high? with
  | some h => .ok h
  | none => .error (.noHighSlot v.symbol)

/-- The low half of a value, which must be a high half. -/
def low (v : Value) : Except Fault Value :=
  match v.low? with
  | some l => .ok l
  | none => .error (.noLowSlot v.symbol)

/-! ### Halves -/

theorem isWideLow_iff {v : Value} : v.isWideLow = true ↔ ∃ h, v.high? = some h := by
  cases v <;> simp [isWideLow, category, high?]

theorem isWideHigh_iff {v : Value} : v.isWideHigh = true ↔ ∃ l, v.low? = some l := by
  cases v <;> simp [isWideHigh, category, low?]

theorem low?_eq_some_iff {v l : Value} : v.low? = some l ↔ l.high? = some v := by
  cases v <;> cases l <;> decide

theorem high?_eq_none {v : Value} (h : ¬ v.isWideLow = true) : v.high? = none := by
  revert h
  cases v <;> decide

theorem isWideLow_of_high? {v h : Value} (e : v.high? = some h) : v.isWideLow = true :=
  isWideLow_iff.mpr ⟨h, e⟩

theorem isWideHigh_of_high? {v h : Value} (e : v.high? = some h) : h.isWideHigh = true :=
  isWideHigh_iff.mpr ⟨v, low?_eq_some_iff.mpr e⟩

/-- No value is a low half and a high half. -/
theorem not_isWideLow_of_isWideHigh {v : Value} (h : v.isWideHigh = true) :
    ¬ v.isWideLow = true := by
  revert h
  cases v <;> decide

/-- A half is neither `⊥` nor `⊤`. -/
theorem isDefined_of_isWideLow {v : Value} (h : v.isWideLow = true) : v.isDefined = true := by
  revert h
  cases v <;> decide

theorem isDefined_of_isWideHigh {v : Value} (h : v.isWideHigh = true) : v.isDefined = true := by
  revert h
  cases v <;> decide

theorem ne_uninitialized_of_isDefined {v : Value} (h : v.isDefined = true) :
    v ≠ uninitialized := by
  rintro rfl
  cases h

theorem ne_conflict_of_isDefined {v : Value} (h : v.isDefined = true) : v ≠ conflict := by
  rintro rfl
  cases h

/-! ### The order -/

/-- The least upper bound: `⊥` is neutral, equal values stay, and any other two conflict. -/
def join : Value → Value → Value
  | uninitialized, w => w
  | v, uninitialized => v
  | v, w => if v = w then v else conflict

/-- The height of a value in the order. -/
def rank : Value → Nat
  | uninitialized => 0
  | conflict => 2
  | _ => 1

@[simp] theorem uninitialized_join (v : Value) : join uninitialized v = v := rfl

@[simp] theorem join_uninitialized (v : Value) : v.join uninitialized = v := by
  cases v <;> rfl

@[simp] theorem join_self (v : Value) : v.join v = v := by
  cases v <;> rfl

theorem rank_le_two (v : Value) : v.rank ≤ 2 := by
  cases v <;> decide

theorem rank_le_rank_join (v w : Value) : v.rank ≤ (v.join w).rank := by
  cases v <;> cases w <;> decide

/-- A join that moves a value moves it strictly upwards. -/
theorem rank_lt_rank_join {v w : Value} (h : v.join w ≠ v) : v.rank < (v.join w).rank := by
  revert h; cases v <;> cases w <;> decide

end Value

end BytecodeVerifier
