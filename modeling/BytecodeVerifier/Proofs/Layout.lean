import BytecodeVerifier.Assembly.RegisterName
import BytecodeVerifier.Proofs.Grammar
import BytecodeVerifier.Proofs.Numeral
import BytecodeVerifier.Proofs.Shape
import BytecodeVerifier.Proofs.Tiles

/-!
# Layout — where incoming values stand, and what they are called

The registers of incoming values are counted in two places.  Whoever lays a frame out adds up the
widths of the types, leaves as many registers at the end of the frame, and goes through the types
again, one slot after the other.  Whoever reads a register name sees the file alone, and counts from
the slot of its first parameter to its end.

**The two agree** (`setUpBytes_layout`): the parameters tile the last registers of the frame, and
`p` and a number name these registers in order, and none besides.  That the widths can be added up
rests on the text of a descriptor, which has at least a byte for each parameter
(`length_arguments`); that names can be counted rests on the room for a file, which leaves register
numbers far from 2⁶⁴.
-/

namespace BytecodeVerifier

theorem reserve_eq_ok_iff {count width : Nat} :
    reserve count width = .ok () ↔ count * width ≤ largestSize := by
  unfold reserve
  split
  · next h => exact iff_of_true rfl h
  · next h => exact iff_of_false (nomatch ·) h

namespace Register

/-- The registers of a parameter: from its slot up to, and not including, its end. -/
def Parameter.extent (p : Parameter) : Nat × Nat :=
  (p.slot.toNat, p.slot.toNat + p.type.width.toNat)

namespace Signature

/-! ### The width of incoming values -/

/-- The number of registers which values of these types take, however many they are. -/
def widthOf (types : List DeclaredType) : Nat := types.foldr (fun t n => t.width.toNat + n) 0

@[simp] theorem widthOf_nil : widthOf [] = 0 := rfl

@[simp] theorem widthOf_cons (t : DeclaredType) (types : List DeclaredType) :
    widthOf (t :: types) = t.width.toNat + widthOf types := rfl

theorem widthOf_le (types : List DeclaredType) : widthOf types ≤ 2 * types.length := by
  induction types with
  | nil => exact Nat.le_refl 0
  | cons t types ih =>
      have ht := t.width_le_two
      rw [widthOf_cons, List.length_cons]
      omega

theorem toNat_totalWidth {types : List DeclaredType} (h : widthOf types < UInt64.size) :
    (totalWidth types).toNat = widthOf types := by
  have hfold : ∀ n : UInt64, n.toNat + widthOf types < UInt64.size →
      (types.foldl (fun n t => n + t.width) n).toNat = n.toNat + widthOf types := by
    clear h
    induction types with
    | nil => exact fun n _ => rfl
    | cons t types ih =>
        intro n hn
        rw [widthOf_cons] at hn ⊢
        have hadd : (n + t.width).toNat = n.toNat + t.width.toNat := by
          rw [UInt64.toNat_add]
          exact Nat.mod_eq_of_lt (by simp only [UInt64.size] at hn; omega)
        rw [List.foldl_cons, ih _ (by omega), hadd]
        omega
  rw [totalWidth, hfold 0 (by simpa using h)]
  exact Nat.zero_add _

/-- **A descriptor has a byte for each argument**, and three besides; and no argument is void. -/
theorem length_arguments {text : List UInt8} {s : Signature} (h : ofBytes text = .ok s) :
    s.arguments.length + 3 ≤ text.length ∧ ∀ t ∈ s.arguments, t ≠ .void := by
  obtain ⟨d, rfl, rfl⟩ := Descriptor.exists_descriptor h
  have hresult := List.length_pos_iff.mpr (Descriptor.resultBytes_ne_nil d.result)
  have hparameters : d.parameters.length ≤ (Descriptor.parameterBytes d.parameters).length := by
    unfold Descriptor.parameterBytes
    induction d.parameters with
    | nil => exact Nat.le_refl 0
    | cons t ts ih =>
        have ht := List.length_pos_iff.mpr t.bytes_ne_nil
        rw [List.length_cons, List.flatMap_cons, List.length_append]
        omega
  constructor
  · simp only [Descriptor.signature, Descriptor.bytes, List.length_map, List.length_cons,
      List.length_append]
    omega
  · simp only [Descriptor.signature, List.forall_mem_map]
    exact fun t _ => t.type_ne_void

/-- The widths of all that comes in through a descriptor can be added up in 64 bits. -/
theorem widthOf_incoming_lt {text : List UInt8} {s : Signature} (h : ofBytes text = .ok s)
    (htext : text.length < Nat.pow 2 63) (static : Bool) :
    widthOf (s.incoming static) < UInt64.size := by
  have hhalf : Nat.pow 2 63 = 9223372036854775808 := rfl
  have hlength := (length_arguments h).1
  have hwidth := widthOf_le s.arguments
  have hreceiver := DeclaredType.reference.width_le_two
  simp only [incoming, UInt64.size]
  split
  · omega
  · rw [widthOf_cons]
    omega

theorem incoming_ne_void {text : List UInt8} {s : Signature} (h : ofBytes text = .ok s)
    (static : Bool) : ∀ t ∈ s.incoming static, t ≠ .void := by
  have harguments := (length_arguments h).2
  unfold incoming
  split
  · exact harguments
  · exact List.forall_mem_cons.mpr ⟨by decide, harguments⟩

/-! ### The place of incoming values -/

theorem types_layOut (slot : UInt64) (types : List DeclaredType) :
    (layOut slot types).map (·.type) = types := by
  induction types generalizing slot with
  | nil => rfl
  | cons t types ih => rw [layOut, List.map_cons, ih]

/-- **Values which are laid out one after the other tile the registers they take.** -/
theorem tiles_layOut (slot : UInt64) {types : List DeclaredType} (hvoid : ∀ t ∈ types, t ≠ .void)
    (h : slot.toNat + widthOf types < UInt64.size) :
    Tiles (slot.toNat + widthOf types) slot.toNat ((layOut slot types).map Parameter.extent) := by
  induction types generalizing slot with
  | nil => rfl
  | cons t types ih =>
      rw [List.forall_mem_cons] at hvoid
      rw [widthOf_cons] at h ⊢
      have hadd : (slot + t.width).toNat = slot.toNat + t.width.toNat := by
        rw [UInt64.toNat_add]
        exact Nat.mod_eq_of_lt (by simp only [UInt64.size] at h; omega)
      have hpos : 0 < t.width.toNat := by
        refine Nat.pos_of_ne_zero fun hzero => hvoid.1 ?_
        exact DeclaredType.width_eq_zero_iff.mp (UInt64.toNat.inj hzero)
      have hrest := ih (slot + t.width) hvoid.2 (by omega)
      rw [hadd, Nat.add_assoc] at hrest
      exact ⟨rfl, Nat.lt_add_of_pos_right hpos, hrest⟩

end Signature

/-- Parameters which tile registers of a frame fit it, and are apart from each other. -/
theorem Parameter.fits_of_tiles {n a : Nat} {ps : List Parameter}
    (h : Tiles n a (ps.map Parameter.extent)) :
    (∀ p ∈ ps, p.Fits n) ∧ ps.Pairwise (Parameter.Apart n) := by
  have hextent : ∀ (d : Nat) (p : Parameter), ps[d]? = some p →
      (ps.map Parameter.extent)[d]? = some p.extent := by
    intro d p hd
    rw [List.getElem?_map, hd, Option.map_some]
  constructor
  · intro p hp
    obtain ⟨d, hd⟩ := List.mem_iff_getElem?.mp hp
    exact (h.bounds (hextent d p hd)).2.2
  · refine List.pairwise_iff_getElem.mpr fun i j hi hj hlt _ _ k hik hjk => ?_
    have hle := h.le_of_lt (hextent i _ (List.getElem?_eq_getElem hi))
      (hextent j _ (List.getElem?_eq_getElem hj)) hlt
    exact absurd hik.2 (Nat.not_lt.mpr (Nat.le_trans hle hjk.1))

namespace Signature

/-- **The incoming values are given the last registers of a file that has enough of them.** -/
theorem allocate_of_le {s : Signature} {size : UInt64} {static : Bool}
    (hvoid : ∀ t ∈ s.incoming static, t ≠ .void)
    (hle : widthOf (s.incoming static) ≤ size.toNat) :
    ∃ file, s.allocate size static = .ok file ∧ file.size = size ∧
      file.parameters.map (·.type) = s.incoming static ∧
      Tiles size.toNat (size.toNat - widthOf (s.incoming static))
        (file.parameters.map Parameter.extent) := by
  have hsize := size.toNat_lt_size
  have hneeded := toNat_totalWidth (Nat.lt_of_le_of_lt hle hsize)
  have hslot : (size - totalWidth (s.incoming static)).toNat =
      size.toNat - widthOf (s.incoming static) := by
    rw [UInt64.toNat_sub_of_le _ _ (by rw [UInt64.le_iff_toNat_le, hneeded]; exact hle), hneeded]
  have htiles := tiles_layOut (size - totalWidth (s.incoming static)) hvoid (by omega)
  rw [hslot, Nat.sub_add_cancel hle] at htiles
  obtain ⟨hfits, hapart⟩ := Parameter.fits_of_tiles htiles
  have haccepted : File.objection? size []
      (layOut (size - totalWidth (s.incoming static)) (s.incoming static)) = none := by
    refine File.accepted_iff.mpr ⟨fun p hp => ⟨?_, .inl (hfits p hp)⟩, hapart⟩
    refine hvoid p.type ?_
    rw [← types_layOut (size - totalWidth (s.incoming static)) (s.incoming static)]
    exact List.mem_map_of_mem hp
  have hnot : ¬ size < totalWidth (s.incoming static) := by
    rw [UInt64.lt_iff_toNat_lt, hneeded]
    omega
  have hnew : File.new size _ = .ok ⟨size, _, haccepted⟩ := File.new_eq_ok_iff.mpr ⟨rfl, rfl⟩
  refine ⟨⟨size, _, haccepted⟩, ?_, rfl, types_layOut _ _, htiles⟩
  rw [allocate, if_neg hnot, hnew]
  rfl

theorem allocate_of_lt {s : Signature} {size : UInt64} {static : Bool}
    (hwidth : widthOf (s.incoming static) < UInt64.size)
    (hlt : size.toNat < widthOf (s.incoming static)) :
    s.allocate size static =
      .error (.tooFewRegisters (totalWidth (s.incoming static)) size) := by
  refine if_pos ?_
  rw [UInt64.lt_iff_toNat_lt, toNat_totalWidth hwidth]
  exact hlt

end Signature

/-! ### The names of registers -/

namespace File

variable {file : File} {k : Nat}

theorem named?_v (hk : k < Nat.pow 2 32) : file.named? s!"v{k}" = some ⟨UInt64.ofNat k⟩ := by
  have hname : s!"v{k}".toList = 'v' :: Nat.toDigits 10 k :=
    Numeral.toList_numbered "v" k
  unfold named?
  rw [hname]
  show Option.map _ (Numeral.decimal? 32 (Nat.toDigits 10 k)) = _
  rw [Numeral.decimal?_toDigits hk, Option.map_some]

/-- The registers which `p` and a number name are counted from the first parameter. -/
theorem named?_p (hk : k < Nat.pow 2 32) :
    file.named? s!"p{k}" = file.parameters.head?.bind fun p =>
      if p.slot.index + UInt64.ofNat k < file.size then some ⟨p.slot.index + UInt64.ofNat k⟩
      else none := by
  have hname : s!"p{k}".toList = 'p' :: Nat.toDigits 10 k :=
    Numeral.toList_numbered "p" k
  unfold named?
  simp only [hname, Numeral.decimal?_toDigits hk]
  cases file.parameters <;> rfl

/-- **Where parameters tile the last registers of a file, their names count these registers.**  The
file must be one that there is room for: the numbers which are added up must not wrap. -/
theorem named?_p_of_tiles {a : Nat} (hroom : file.size.toNat ≤ largestSize) (hk : k < Nat.pow 2 32)
    (h : Tiles file.size.toNat a (file.parameters.map Parameter.extent)) :
    (file.named? s!"p{k}").map toNat =
      if a + k < file.size.toNat then some (a + k) else none := by
  have ha := h.le
  rw [named?_p hk]
  cases hfile : file.parameters with
  | nil =>
      rw [hfile] at h
      obtain rfl : a = file.size.toNat := h
      rw [if_neg (Nat.not_lt.mpr (Nat.le_add_right _ k))]
      rfl
  | cons p ps =>
      rw [hfile] at h
      obtain ⟨rfl, -, -⟩ := h
      have hindex : (p.slot.index + UInt64.ofNat k).toNat = p.slot.toNat + k := by
        have hword : Nat.pow 2 32 = 4294967296 := rfl
        unfold largestSize at hroom
        rw [UInt64.toNat_add, UInt64.toNat_ofNat', toNat]
        rw [toNat] at ha
        omega
      simp only [List.head?_cons, Option.bind_some, UInt64.lt_iff_toNat_lt, hindex]
      split
      · simp only [Option.map_some, toNat, hindex]
      · rfl

variable {text : List UInt8} {s : Signature}

/-- With the parameters in place, what is left to do is to find room for the file. -/
theorem setUpBytes_of_allocate {size : UInt64} {static : Bool} {file : File}
    (hs : Signature.ofBytes text = .ok s) (h : s.allocate size static = .ok file) :
    setUpBytes size static text = (reserve size.toNat 1).map fun _ => .ok (file, s.returns) := by
  have hshape : ofBytes size static text = .ok (file, s.returns) := by
    rw [ofBytes, hs]
    show (s.allocate size static >>= fun file => pure (file, s.returns)) = _
    rw [h]
    rfl
  rw [setUpBytes, hshape]
  cases reserve size.toNat 1 <;> rfl

theorem setUpBytes_of_error {size : UInt64} {static : Bool} {e : DescriptorError}
    (hs : Signature.ofBytes text = .ok s) (h : s.allocate size static = .error e) :
    setUpBytes size static text = .ok (.error e) := by
  have hshape : ofBytes size static text = .error e := by
    rw [ofBytes, hs]
    show (s.allocate size static >>= fun file => pure (file, s.returns)) = _
    rw [h]
    rfl
  rw [setUpBytes, hshape]

/-- **Incoming values have the last registers of the frame, and the names which count them.**  A
method with a descriptor has a register file, if there is room for one, just when the frame is at
least as large as the incoming values are wide.  Its parameters are of their types, in order, and
tile the last registers of the frame.  `p` and a number name these registers in order, and no
others; `v` and a number name the register of that number.  Memory holds no text of 2⁶³ bytes. -/
theorem setUpBytes_layout (hs : Signature.ofBytes text = .ok s) (htext : text.length < Nat.pow 2 63)
    (size : UInt64) (static : Bool) :
    (reserve size.toNat 1 = .ok () →
      ((∃ shape, setUpBytes size static text = .ok (.ok shape)) ↔
        Signature.widthOf (s.incoming static) ≤ size.toNat)) ∧
    ∀ file returns, setUpBytes size static text = .ok (.ok (file, returns)) →
      returns = s.returns ∧ file.size = size ∧
      file.parameters.map (·.type) = s.incoming static ∧
      Tiles size.toNat (size.toNat - Signature.widthOf (s.incoming static))
        (file.parameters.map Parameter.extent) ∧
      ∀ k < Nat.pow 2 32,
        (file.named? s!"p{k}").map toNat =
          (if k < Signature.widthOf (s.incoming static) then
            some (size.toNat - Signature.widthOf (s.incoming static) + k) else none) ∧
        (file.named? s!"v{k}").map toNat = some k := by
  rcases Nat.lt_or_ge size.toNat (Signature.widthOf (s.incoming static)) with hlt | hle
  · have hset := setUpBytes_of_error hs
      (Signature.allocate_of_lt (Signature.widthOf_incoming_lt hs htext static) hlt)
    rw [hset]
    refine ⟨fun _ => iff_of_false ?_ (Nat.not_le.mpr hlt), fun file returns h => nomatch h⟩
    rintro ⟨shape, h⟩
    cases h
  · obtain ⟨file, hfile, rfl, htypes, htiles⟩ :=
      Signature.allocate_of_le (Signature.incoming_ne_void hs static) hle
    rw [setUpBytes_of_allocate hs hfile]
    refine ⟨fun hroom => iff_of_true ⟨_, by rw [hroom]; rfl⟩ hle, fun file' returns h => ?_⟩
    cases hroom : reserve file.size.toNat 1 with
    | error e =>
        rw [hroom] at h
        cases h
    | ok u =>
        rw [hroom] at h
        cases h
        have hlarge := reserve_eq_ok_iff.mp hroom
        rw [Nat.mul_one] at hlarge
        refine ⟨rfl, rfl, htypes, htiles, fun k hk => ⟨?_, ?_⟩⟩
        · rw [named?_p_of_tiles hlarge hk htiles]
          refine if_congr ?_ rfl rfl
          omega
        · have hword : k < UInt64.size := Nat.lt_trans hk (by decide)
          rw [named?_v hk, Option.map_some, toNat, UInt64.toNat_ofNat_of_lt' hword]

/-- The descriptor of a method with a long, an array and an int for arguments. -/
def arrival : List UInt8 := "(J[II)V".toUTF8.toList

theorem arrival_layout : ∃ file, setUpBytes 6 false arrival = .ok (.ok (file, .void)) ∧
    file.parameters.map (·.type) = [.reference, .long, .reference, .int] ∧
    Tiles 6 1 (file.parameters.map Parameter.extent) ∧
    (file.named? s!"p{4}").map toNat = some 5 ∧ (file.named? s!"p{5}").map toNat = none ∧
    (file.named? s!"v{5}").map toNat = some 5 := by
  have hs : Signature.ofBytes arrival = .ok ⟨[.long, .reference, .int], .void⟩ := by
    decide +kernel
  have htext : arrival.length < Nat.pow 2 63 := by decide +kernel
  obtain ⟨hsucceeds, hlayout⟩ := setUpBytes_layout hs htext 6 false
  obtain ⟨⟨file, returns⟩, hset⟩ := (hsucceeds rfl).mpr (by decide)
  obtain ⟨rfl, -, htypes, htiles, hnames⟩ := hlayout file returns hset
  exact ⟨file, hset, htypes, htiles, (hnames 4 (by decide)).1, (hnames 5 (by decide)).1,
    (hnames 5 (by decide)).2⟩

end File

end Register

end BytecodeVerifier
