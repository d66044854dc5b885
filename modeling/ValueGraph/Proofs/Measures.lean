import Mathlib
import ValueGraph.Proofs.TypeEquality

namespace ValueGraph

/-!
# Sizes and alignments

Under its array layers a type has one content.  If that is a scalar, its width gives the least
power of two of bytes that holds it, which is the alignment of the type; the size is this
number times the lengths of all array layers, as long as no layer leaves a 64-bit word.  The
only fault is the sum of the widths of a float, when it leaves a 32-bit word.
-/

variable {width : Nat}

/-! ### Powers of two -/

/-- The powers of two from some number on. -/
def powersFrom (least : Nat) : Set Nat :=
  { power | (∃ exponent, power = 2 ^ exponent) ∧ least ≤ power }

theorem isLeast_roundUpToPowerOfTwo (number : Nat) :
    IsLeast (powersFrom number) (roundUpToPowerOfTwo number) := by
  unfold roundUpToPowerOfTwo
  split
  next small =>
    refine ⟨⟨⟨0, rfl⟩, small⟩, ?_⟩
    rintro _ ⟨⟨exponent, rfl⟩, -⟩
    exact Nat.one_le_two_pow
  next large =>
    rw [Nat.one_shiftLeft]
    refine ⟨⟨⟨_, rfl⟩, ?_⟩, ?_⟩
    · have below := (Nat.log2_lt (by omega : number - 1 ≠ 0)).mp (Nat.lt_succ_self _)
      omega
    · rintro _ ⟨⟨exponent, rfl⟩, enough⟩
      have below : number - 1 < 2 ^ exponent := by omega
      exact Nat.pow_le_pow_right (by decide) ((Nat.log2_lt (by omega : number - 1 ≠ 0)).mpr below)

theorem isLeast_storageBytes (width : Nat) :
    IsLeast (powersFrom (max 1 (width ⌈/⌉ 8))) (storageBytes width) := by
  rw [Nat.ceilDiv_eq_add_pred_div]
  exact isLeast_roundUpToPowerOfTwo _

theorem storageBytes_le (fits : width < word32Limit) : storageBytes width ≤ 2 ^ 29 := by
  refine (isLeast_roundUpToPowerOfTwo _).2 ⟨⟨29, rfl⟩, ?_⟩
  have limit : word32Limit = 4294967296 := rfl
  omega

/-! ### Contents and lengths -/

namespace TypeTree

/-- What is under the array layers of a type. -/
def content : TypeTree → TypeTree
  | .array _ element _ => element.content
  | tree => tree

/-- The lengths of the array layers of a type, the outermost first. -/
def lengths : TypeTree → List Nat
  | .array _ element length => length.toNat :: element.lengths
  | _ => []

/-- Whether a type is a float whose parts do not fit a 32-bit word together. -/
def Overwide : TypeTree → Prop
  | .float _ exponent fraction _ => 2 ^ 32 ≤ 1 + exponent.toNat + fraction.toNat
  | _ => False

/-- The product of some lengths and a size, layer by layer within a 64-bit word. -/
def total? (size : Nat) : List Nat → Option Nat
  | [] => some size
  | length :: inner => (total? size inner).bind fun bytes =>
    if bytes * length < word64Limit then some (bytes * length) else none

theorem total?_eq_some_iff {size bytes : Nat} {lengths : List Nat} :
    total? size lengths = some bytes ↔
      (∀ inner, inner <:+ lengths → inner ≠ [] → inner.prod * size < 2 ^ 64) ∧
        bytes = lengths.prod * size := by
  induction lengths generalizing bytes with
  | nil => simp [total?, eq_comm]
  | cons length inner ih =>
    have limit : word64Limit = 2 ^ 64 := rfl
    have product (n : Nat) : inner.prod * size * n = (n :: inner).prod * size := by
      rw [List.prod_cons]
      ring
    simp only [total?, Option.bind_eq_some_iff, Option.ite_none_right_eq_some, Option.some.injEq,
      ih, List.suffix_cons_iff, limit]
    constructor
    · rintro ⟨_, ⟨within, rfl⟩, fits, rfl⟩
      rw [product] at fits ⊢
      refine ⟨?_, rfl⟩
      rintro layers (rfl | deeper) some
      · exact fits
      · exact within layers deeper some
    · rintro ⟨within, rfl⟩
      refine ⟨_, ⟨fun layers deeper => within layers (.inr deeper), rfl⟩, ?_⟩
      rw [product]
      exact ⟨within _ (.inl rfl) (by simp), rfl⟩

/-- What can come of measuring a type. -/
inductive Measured (tree : TypeTree) (bits : UInt32) : Prop where
  | overwide (wide : tree.content.Overwide) (fault : Fault)
    (alignment : tree.alignment? bits = .error fault) (bytes : tree.bytes? bits = .error fault)
  | scalar (narrow : ¬ tree.content.Overwide) (storable : tree.isStorable = true) (width : Nat)
    (fits : width < word32Limit) (width_eq : tree.content.scalarBits? bits = .ok (some width))
    (alignment : tree.alignment? bits = .ok (some (storageBytes width)))
    (bytes : tree.bytes? bits = .ok (total? (storageBytes width) tree.lengths))
  | unstored (narrow : ¬ tree.content.Overwide) (storable : tree.isStorable = false)
    (alignment : tree.alignment? bits = .ok none) (bytes : tree.bytes? bits = .ok none)

variable {bits : UInt32}

theorem measured : ∀ tree : TypeTree, tree.Measured bits
  | .void _ | .label _ | .function _ _ _ _ => .unstored id rfl rfl rfl
  | .int _ width _ => .scalar id rfl width.toNat width.toNat_lt rfl rfl rfl
  | .pointer _ _ => .scalar id rfl bits.toNat bits.toNat_lt rfl rfl rfl
  | .float _ exponent fraction _ => by
    by_cases fits : 1 + exponent.toNat + fraction.toNat < word32Limit
    · have width : Shape.floatBits exponent fraction = .ok _ := if_pos fits
      exact .scalar (Nat.not_le.mpr fits) rfl _ fits
        (by simp only [content, scalarBits?, width]; rfl)
        (by simp only [alignment?, scalarBits?, width]; rfl)
        (by simp only [bytes?, scalarBits?, width]; rfl)
    · have width : Shape.floatBits exponent fraction = .error _ := if_neg fits
      exact .overwide (Nat.not_lt.mp fits) _ (by simp only [alignment?, scalarBits?, width]; rfl)
        (by simp only [bytes?, scalarBits?, width]; rfl)
  | .array _ element length => by
    have below : element.Measured bits := element.measured
    cases below with
    | overwide wide fault alignment bytes =>
      exact .overwide wide fault alignment (by rw [bytes?, bytes]; rfl)
    | unstored narrow storable alignment bytes =>
      exact .unstored narrow storable alignment (by rw [bytes?, bytes]; rfl)
    | scalar narrow storable width fits width_eq alignment bytes =>
      refine .scalar narrow storable width fits width_eq alignment ?_
      rw [bytes?, bytes, lengths, total?]
      cases total? (storageBytes width) element.lengths <;> rfl

/-- The layout of a type with stored values: the least power of two of bytes that holds its scalar,
and as many bytes as its array layers say, unless one of them leaves a 64-bit word. -/
structure Laid (tree : TypeTree) (bits : UInt32) (alignment : Nat) (bytes : Option Nat) : Prop where
  power : ∃ exponent ≤ 29, alignment = 2 ^ exponent
  least : ∃ width, tree.content.scalarBits? bits = .ok (some width) ∧
    IsLeast (powersFrom (max 1 (width ⌈/⌉ 8))) alignment
  bytes_iff : ∀ size, bytes = some size ↔
    (∀ inner, inner <:+ tree.lengths → inner ≠ [] → inner.prod * alignment < 2 ^ 64) ∧
      size = tree.lengths.prod * alignment
  multiple : ∀ size, bytes = some size → alignment ∣ size

theorem laid {tree : TypeTree} (fits : width < word32Limit)
    (width_eq : tree.content.scalarBits? bits = .ok (some width)) :
    tree.Laid bits (storageBytes width) (total? (storageBytes width) tree.lengths) where
  power := by
    obtain ⟨⟨⟨exponent, power⟩, -⟩, -⟩ := isLeast_storageBytes width
    have small := storageBytes_le fits
    rw [power] at small ⊢
    exact ⟨exponent, (Nat.pow_le_pow_iff_right (by decide)).mp small, rfl⟩
  least := ⟨width, width_eq, isLeast_storageBytes width⟩
  bytes_iff _ := total?_eq_some_iff
  multiple size total := (total?_eq_some_iff.mp total).2 ▸ Nat.dvd_mul_left _ _

end TypeTree

/-- Measuring a type meets a fault exactly if it is, under its array layers, a float whose parts do
not fit a 32-bit word together.  Otherwise it has an alignment exactly if its values can be stored,
and both measures are those of the scalar under its array layers. -/
theorem layout_of_scalar (bits : UInt32) {requests : List TypeRequest} {types : List TypeId}
    {table : TypeTable}
    (run : (TypeTable.ofPointerBits bits).answerAll requests = .ok (types, table)) {type : TypeId}
    (registered : table.Registered type) :
    ((∃ fault, table.bytes? type = .error fault) ↔ (table.tree .full type).content.Overwide) ∧
    ((∃ fault, table.alignment? type = .error fault) ↔ (table.tree .full type).content.Overwide) ∧
    (¬ (table.tree .full type).content.Overwide → ∃ bytes alignment,
      table.bytes? type = .ok bytes ∧ table.alignment? type = .ok alignment ∧
      match alignment with
      | some alignment => table.isStorable type = .ok true ∧
        (table.tree .full type).Laid table.pointerBits alignment bytes
      | none => table.isStorable type = .ok false ∧ bytes = none) := by
  have layered := (TypeTable.answerAll_spec (TypeTable.layered_ofPointerBits bits) run).1.layered
    (TypeTable.layered_ofPointerBits bits)
  have storableEq : table.isStorable type = .ok (table.tree .full type).isStorable :=
    TypeTable.isStorable_eq layered registered
  have bytesEq : table.bytes? type = (table.tree .full type).bytes? table.pointerBits :=
    TypeTable.bytesWithin_eq layered registered (Nat.lt_succ_self _)
  have alignmentEq : table.alignment? type = (table.tree .full type).alignment? table.pointerBits :=
    TypeTable.alignmentWithin_eq layered registered (Nat.lt_succ_self _)
  have measured : (table.tree .full type).Measured table.pointerBits := TypeTree.measured _
  rw [storableEq, bytesEq, alignmentEq]
  cases measured with
  | overwide wide fault alignment bytes =>
    exact ⟨iff_of_true ⟨fault, bytes⟩ wide, iff_of_true ⟨fault, alignment⟩ wide, absurd wide⟩
  | scalar narrow storable width fits width_eq alignment bytes =>
    rw [bytes, alignment, storable]
    exact ⟨iff_of_false (by simp) narrow, iff_of_false (by simp) narrow,
      fun _ => ⟨_, _, rfl, rfl, rfl, TypeTree.laid fits width_eq⟩⟩
  | unstored narrow storable alignment bytes =>
    rw [bytes, alignment, storable]
    exact ⟨iff_of_false (by simp) narrow, iff_of_false (by simp) narrow,
      fun _ => ⟨_, _, rfl, rfl, rfl, rfl⟩⟩

/-- Five arrays of three integers of 24 bits take 60 bytes and are aligned to 4. -/
theorem layout_of_nested_array :
    ∃ table, (TypeTable.ofPointerBits 64).answerAll
        [.int 24 true, .array ⟨13⟩ 3, .array ⟨14⟩ 5] = .ok ([⟨13⟩, ⟨14⟩, ⟨15⟩], table) ∧
      (table.tree .full ⟨15⟩).lengths = [5, 3] ∧ table.bytes? ⟨15⟩ = .ok (some 60) ∧
      (table.tree .full ⟨15⟩).Laid table.pointerBits 4 (some 60) := by
  let requests : List TypeRequest := [.int 24 true, .array ⟨13⟩ 3, .array ⟨14⟩ 5]
  obtain ⟨table, run⟩ : ∃ table, (TypeTable.ofPointerBits 64).answerAll requests =
    .ok ([⟨13⟩, ⟨14⟩, ⟨15⟩], table) := ⟨_, rfl⟩
  have read : ((TypeTable.ofPointerBits 64).answerAll requests).map (fun answer =>
      (answer.2.bytes? ⟨15⟩, answer.2.alignment? ⟨15⟩, answer.2.size,
        (answer.2.tree .full ⟨15⟩).lengths)) = .ok (.ok (some 60), .ok (some 4), 16, [5, 3]) := rfl
  rw [run] at read
  obtain ⟨bytes, alignment, size, lengths⟩ : table.bytes? ⟨15⟩ = .ok (some 60) ∧
      table.alignment? ⟨15⟩ = .ok (some 4) ∧ table.size = 16 ∧
      (table.tree .full ⟨15⟩).lengths = [5, 3] := by
    simpa [Except.map] using read
  have registered : table.Registered ⟨15⟩ := by
    rw [TypeTable.Registered, ← TypeTable.size, size]
    decide
  obtain ⟨faults, -, laid⟩ := layout_of_scalar 64 run registered
  have narrow : ¬ (table.tree .full ⟨15⟩).content.Overwide := fun wide => by
    obtain ⟨fault, fails⟩ := faults.mpr wide
    cases bytes.symm.trans fails
  obtain ⟨known, aligned, isBytes, isAligned, layout⟩ := laid narrow
  cases isBytes.symm.trans bytes
  cases isAligned.symm.trans alignment
  exact ⟨table, run, lengths, bytes, layout.2⟩

end ValueGraph
