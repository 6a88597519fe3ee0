import Mathlib.Algebra.Group.Nat.Defs
import Switching.Proofs.Expr.Values
import Switching.Table.Row

/-!
# Rows, bits and assignments

As long as indices fit into a word, a row index and its bits determine each
other, so the rows over some inputs are exactly the lists of that many bits.
The assignment of a row gives every input the bit at its place.
-/

namespace Switching

/-- If every symbol is read as what it is written for, a list of symbols is read
as what it is written for. -/
theorem mapM_eq_some_iff_map_eq {α β : Type} {read? : α → Option β} {write : β → α}
    (inverse : ∀ symbol value, read? symbol = some value ↔ write value = symbol)
    {symbols : List α} {values : List β} :
    symbols.mapM read? = some values ↔ values.map write = symbols := by
  induction symbols generalizing values with
  | nil => cases values <;> simp
  | cons symbol rest ih =>
      rw [List.mapM_cons]
      simp only [Option.bind_eq_bind, Option.bind_eq_some_iff, Option.pure_def, Option.some.injEq,
        inverse, ih]
      cases values with
      | nil => simp
      | cons value others => simp

namespace Row

theorem count_eq_two_pow (width : Nat) : count width = 2 ^ width := by
  induction width with
  | zero => rfl
  | succ width ih => rw [count, ih, Nat.pow_succ, Nat.mul_comm]

/-- In a word a bit is appended without loss. -/
theorem appendBit_eq {index : Nat} (fits : index < 2 ^ 63) (bit : Bool) :
    appendBit index bit = 2 * index + bit.toNat := by
  have := bit.toNat_le
  exact Nat.mod_eq_of_lt (by rw [wordLimit]; omega)

/-- An index with room for `length` more bits below the word limit. -/
theorem room_succ {index length : Nat} (room : (index + 1) * 2 ^ (length + 1) ≤ 2 ^ 64)
    (bit : Bool) :
    index < 2 ^ 63 ∧ (2 * index + bit.toNat + 1) * 2 ^ length ≤ 2 ^ 64 := by
  have bit_le := bit.toNat_le
  have double : (index + 1) * 2 ^ (length + 1) = (2 * index + 2) * 2 ^ length := by
    rw [Nat.pow_succ, Nat.mul_comm (2 ^ length), ← Nat.mul_assoc]
    congr 1
    omega
  have one_le : 1 ≤ 2 ^ length := Nat.one_le_two_pow
  have base := Nat.mul_le_mul_left (2 * index + 2) one_le
  have grown := Nat.mul_le_mul_right (2 ^ length)
    (show 2 * index + bit.toNat + 1 ≤ 2 * index + 2 by omega)
  omega

/-- Appending the bits of an index to another one. -/
private theorem foldl_appendBit_bits (width value : Nat) :
    ∀ {index : Nat}, (index + 1) * 2 ^ width ≤ 2 ^ 64 →
      (bits width value).foldl appendBit index = index * 2 ^ width + value % 2 ^ width := by
  induction width with
  | zero =>
      intro index _
      simp [bits, Nat.mod_one]
  | succ width ih =>
      intro index room
      obtain ⟨fits, restRoom⟩ := room_succ room (value.testBit width)
      have digit : value % 2 ^ (width + 1) =
          value % 2 ^ width + 2 ^ width * (value.testBit width).toNat := by
        rw [Nat.testBit_eq_decide_div_mod_eq, Nat.pow_succ, Nat.mod_mul]
        rcases Nat.mod_two_eq_zero_or_one (value / 2 ^ width) with even | odd
        · simp [even]
        · simp [odd]
      rw [bits, List.foldl_cons, appendBit_eq fits, ih restRoom, digit, Nat.pow_succ]
      grind

/-- The bits of an index lead back to it. -/
theorem ofBits_bits {width index : Nat} (fits : width ≤ 64) (bound : index < count width) :
    ofBits (bits width index) = index := by
  have room : (0 + 1) * 2 ^ width ≤ 2 ^ 64 := by
    simpa using Nat.pow_le_pow_right (Nat.succ_pos 1) fits
  rw [ofBits, foldl_appendBit_bits width index room, Nat.zero_mul, Nat.zero_add,
    Nat.mod_eq_of_lt (count_eq_two_pow width ▸ bound)]

/-- Dropping the bits that were appended leaves the index before them. -/
private theorem foldl_appendBit_div (appended : List Bool) :
    ∀ {index : Nat}, (index + 1) * 2 ^ appended.length ≤ 2 ^ 64 →
      appended.foldl appendBit index / 2 ^ appended.length = index := by
  induction appended with
  | nil => simp
  | cons bit rest ih =>
      intro index room
      obtain ⟨fits, restRoom⟩ := room_succ room bit
      have bit_le := bit.toNat_le
      rw [List.foldl_cons, List.length_cons, Nat.pow_succ, ← Nat.div_div_eq_div_mul,
        appendBit_eq fits, ih restRoom]
      omega

private theorem bits_foldl_appendBit (appended : List Bool) :
    ∀ {index : Nat}, (index + 1) * 2 ^ appended.length ≤ 2 ^ 64 →
      bits appended.length (appended.foldl appendBit index) = appended := by
  induction appended with
  | nil => intros; rfl
  | cons bit rest ih =>
      intro index room
      obtain ⟨fits, restRoom⟩ := room_succ room bit
      have front := foldl_appendBit_div rest restRoom
      rw [List.foldl_cons, List.length_cons, bits, appendBit_eq fits, ih restRoom,
        Nat.testBit_eq_decide_div_mod_eq, front]
      cases bit <;> simp

/-- The index of some bits has these bits. -/
theorem bits_ofBits {bits : List Bool} (fits : bits.length ≤ 64) :
    Row.bits bits.length (ofBits bits) = bits := by
  refine bits_foldl_appendBit bits ?_
  simpa using Nat.pow_le_pow_right (Nat.succ_pos 1) fits

/-- Rows with the same bits are the same. -/
theorem eq_of_bits_eq {width first second : Nat} (fits : width ≤ 64)
    (firstBound : first < count width) (secondBound : second < count width)
    (same : bits width first = bits width second) : first = second := by
  rw [← ofBits_bits fits firstBound, same, ofBits_bits fits secondBound]

/-- Every list of bits is the list of some row. -/
theorem exists_bits_eq {width : Nat} (fits : width ≤ 64) {list : List Bool}
    (length_eq : list.length = width) : ∃ index < count width, bits width index = list := by
  subst length_eq
  exact ⟨ofBits list, ofBits_lt list, bits_ofBits fits⟩

/-! ## Assignments of rows -/

theorem map_value?_assignBits {names : List String} {bits : List Bool} (nodup : names.Nodup)
    (length_eq : bits.length = names.length) :
    names.map (assignBits bits names).value? = bits.map some := by
  have zip_fst : (names.zip bits).map Prod.fst = names :=
    List.map_fst_zip (Nat.le_of_eq length_eq.symm)
  have zip_snd : (names.zip bits).map Prod.snd = bits :=
    List.map_snd_zip (Nat.le_of_eq length_eq)
  calc
    names.map (assignBits bits names).value?
        = ((names.zip bits).map Prod.fst).map (assignBits bits names).value? := by rw [zip_fst]
    _ = (names.zip bits).map fun binding => (assignBits bits names).value? binding.1 :=
      List.map_map
    _ = (names.zip bits).map fun binding => some binding.2 := by
      refine List.map_congr_left fun binding mem => ?_
      exact Assignment.value?_ofList (zip_fst.symm ▸ nodup) mem
    _ = ((names.zip bits).map Prod.snd).map some := List.map_map.symm
    _ = bits.map some := by rw [zip_snd]

/-- An assignment of bits assigns all names. -/
theorem assigns_assignBits {names : List String} {bits : List Bool} (nodup : names.Nodup)
    (length_eq : bits.length = names.length) : (assignBits bits names).Assigns names := by
  intro name mem
  have listed : (assignBits bits names).value? name ∈ bits.map some :=
    map_value?_assignBits nodup length_eq ▸ List.mem_map_of_mem mem
  obtain ⟨bit, -, value_eq⟩ := List.mem_map.mp listed
  exact value_eq ▸ rfl

/-- The names have the assigned bits as their values. -/
theorem map_valuation_assignBits {names : List String} {bits : List Bool} (nodup : names.Nodup)
    (length_eq : bits.length = names.length) :
    names.map (assignBits bits names).valuation = bits := by
  have values := congrArg (List.map (Option.getD · false)) (map_value?_assignBits nodup length_eq)
  rw [List.map_map, List.map_map] at values
  exact values.trans (List.map_id _)

/-- The assignment of a row assigns all inputs. -/
theorem assigns_assignment {names : List String} (nodup : names.Nodup) (index : Nat) :
    (assignment names index).Assigns names :=
  assigns_assignBits nodup (length_bits names.length index)

/-- The inputs have the bits of a row as their values. -/
theorem map_valuation_assignment {names : List String} (nodup : names.Nodup) (index : Nat) :
    names.map (assignment names index).valuation = bits names.length index :=
  map_valuation_assignBits nodup (length_bits names.length index)

/-- Every choice of values for the inputs is the assignment of some row. -/
theorem exists_valuation {names : List String} (nodup : names.Nodup) (fits : names.length ≤ 64)
    (valuation : String → Bool) :
    ∃ index < count names.length, ∀ name ∈ names,
      (assignment names index).valuation name = valuation name := by
  have length_eq : (names.map valuation).length = names.length := List.length_map valuation
  obtain ⟨index, bound, bits_eq⟩ := exists_bits_eq fits length_eq
  refine ⟨index, bound, List.map_inj_left.mp ?_⟩
  rw [map_valuation_assignment nodup, bits_eq]

end Row

end Switching
