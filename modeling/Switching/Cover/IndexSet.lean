/-!
# Sets of indices

A finite set of natural numbers is kept as the number that has a one in its
binary notation at exactly the places in the set.
-/

namespace Switching

/-- A finite set of natural numbers. -/
structure IndexSet where
  mask : Nat
  deriving DecidableEq, Repr

namespace IndexSet

instance : EmptyCollection IndexSet :=
  ⟨⟨0⟩⟩

instance : Inhabited IndexSet :=
  ⟨∅⟩

/-- Whether a number is in a set. -/
def contains (set : IndexSet) (index : Nat) : Bool :=
  set.mask.testBit index

/-- The set of a single number. -/
def single (index : Nat) : IndexSet :=
  ⟨1 <<< index⟩

/-- The numbers in either set. -/
def union (a b : IndexSet) : IndexSet :=
  ⟨a.mask ||| b.mask⟩

/-- The numbers in both sets. -/
def inter (a b : IndexSet) : IndexSet :=
  ⟨a.mask &&& b.mask⟩

/-- Add a number to a set. -/
def insert (set : IndexSet) (index : Nat) : IndexSet :=
  set.union (single index)

/-- The set of the numbers in a list. -/
def ofList (indices : List Nat) : IndexSet :=
  indices.foldl insert ∅

/-- Whether a set has no member. -/
def isEmpty (set : IndexSet) : Bool :=
  set.mask = 0

/-- Whether every member of the first set is in the second one. -/
def subset (a b : IndexSet) : Bool :=
  a.inter b = a

/-- Whether two sets have a member in common. -/
def intersects (a b : IndexSet) : Bool :=
  !(a.inter b).isEmpty

/-- The members of a set in ascending order. -/
def toList (set : IndexSet) : List Nat :=
  (List.range (set.mask.log2 + 1)).filter set.contains

/-- The only member of a set that has just one. -/
def only? (set : IndexSet) : Option Nat :=
  let largest := set.mask.log2
  if set = single largest then some largest else none

@[simp]
theorem contains_empty (index : Nat) : (∅ : IndexSet).contains index = false :=
  Nat.zero_testBit index

@[simp]
theorem contains_single (member index : Nat) :
    (single member).contains index = decide (member = index) := by
  simp only [single, contains, Nat.one_shiftLeft]
  exact Nat.testBit_two_pow

@[simp]
theorem contains_union (a b : IndexSet) (index : Nat) :
    (a.union b).contains index = (a.contains index || b.contains index) :=
  Nat.testBit_or a.mask b.mask index

@[simp]
theorem contains_inter (a b : IndexSet) (index : Nat) :
    (a.inter b).contains index = (a.contains index && b.contains index) :=
  Nat.testBit_and a.mask b.mask index

/-- Sets with the same members are equal. -/
@[ext]
theorem ext {a b : IndexSet} (same : ∀ index, a.contains index = b.contains index) : a = b := by
  cases a
  cases b
  exact congrArg IndexSet.mk (Nat.eq_of_testBit_eq same)

@[simp]
theorem contains_insert (set : IndexSet) (member index : Nat) :
    (set.insert member).contains index = (set.contains index || decide (member = index)) := by
  simp [insert]

private theorem contains_foldl_insert (indices : List Nat) :
    ∀ (set : IndexSet) (index : Nat), (indices.foldl insert set).contains index =
      (set.contains index || decide (index ∈ indices)) := by
  induction indices with
  | nil => simp
  | cons first rest ih =>
      intro set index
      rw [List.foldl_cons, ih, contains_insert, Bool.or_assoc]
      congr 1
      simp [eq_comm, Bool.decide_or]

@[simp]
theorem contains_ofList (indices : List Nat) (index : Nat) :
    (ofList indices).contains index = decide (index ∈ indices) := by
  simp [ofList, contains_foldl_insert]

theorem isEmpty_iff {set : IndexSet} :
    set.isEmpty = true ↔ ∀ index, set.contains index = false := by
  constructor
  · intro none index
    have mask_eq : set.mask = 0 := of_decide_eq_true none
    simp [contains, mask_eq]
  · intro none
    have same : set = ∅ := ext fun index => by simp [none index]
    exact same ▸ rfl

theorem subset_iff {a b : IndexSet} :
    a.subset b = true ↔ ∀ index, a.contains index = true → b.contains index = true := by
  constructor
  · intro inside index member
    have same : a.inter b = a := of_decide_eq_true inside
    rw [← same, contains_inter, Bool.and_eq_true] at member
    exact member.2
  · intro inside
    refine decide_eq_true (ext fun index => ?_)
    rw [contains_inter]
    cases member : a.contains index with
    | false => rfl
    | true => exact inside index member

@[simp]
theorem subset_refl (set : IndexSet) : set.subset set = true :=
  subset_iff.mpr fun _ => id

theorem intersects_iff {a b : IndexSet} :
    a.intersects b = true ↔ ∃ index, a.contains index = true ∧ b.contains index = true := by
  rw [intersects, Bool.not_eq_true', ← Bool.not_eq_true, isEmpty_iff]
  constructor
  · intro some
    obtain ⟨index, member⟩ := Classical.not_forall.mp some
    rw [Bool.not_eq_false, contains_inter, Bool.and_eq_true] at member
    exact ⟨index, member⟩
  · rintro ⟨index, inA, inB⟩ none
    have := none index
    simp [inA, inB] at this

/-- The members of a set lie below its width. -/
private theorem lt_of_contains {set : IndexSet} {index : Nat}
    (member : set.contains index = true) : index < set.mask.log2 + 1 := by
  refine Nat.lt_of_not_le fun le => ?_
  have below := Nat.lt_of_lt_of_le (Nat.lt_log2_self (n := set.mask))
    (Nat.pow_le_pow_right (Nat.succ_pos 1) le)
  rw [contains, Nat.testBit_lt_two_pow below] at member
  cases member

@[simp]
theorem mem_toList {set : IndexSet} {index : Nat} :
    index ∈ set.toList ↔ set.contains index = true := by
  simp only [toList, List.mem_filter, List.mem_range]
  exact ⟨fun both => both.2, fun member => ⟨lt_of_contains member, member⟩⟩

/-- The members of a set are listed in ascending order. -/
theorem pairwise_toList (set : IndexSet) : set.toList.Pairwise (· < ·) :=
  List.pairwise_lt_range.filter _

/-- The list of a set contains that of another one if the sets do. -/
theorem toList_subset_iff {a b : IndexSet} : a.toList ⊆ b.toList ↔ a.subset b = true := by
  simp [subset_iff, List.subset_def]

/-- A member of a set that lists fewer than two members is the only one. -/
theorem eq_single_of_length_toList_lt {set : IndexSet} {member : Nat}
    (mem : set.contains member = true) (few : set.toList.length < 2) : set = single member := by
  have listed := mem_toList.mpr mem
  obtain ⟨other, list_eq⟩ : ∃ other, set.toList = [other] :=
    List.length_eq_one_iff.mp (Nat.le_antisymm (Nat.le_of_lt_succ few) (List.length_pos_of_mem listed))
  obtain rfl : member = other := by simpa [list_eq] using listed
  ext index
  rw [Bool.eq_iff_iff, ← mem_toList, contains_single, decide_eq_true_eq, list_eq,
    List.mem_singleton]
  exact eq_comm

/-- A set has an only member exactly if it consists of that member. -/
theorem only?_eq_some_iff {set : IndexSet} {index : Nat} :
    set.only? = some index ↔ set = single index := by
  have largest_single : (single index).mask.log2 = index := by
    rw [single, Nat.one_shiftLeft, Nat.log2_two_pow]
  simp only [only?, Option.ite_none_right_eq_some, Option.some.injEq]
  constructor
  · rintro ⟨same, rfl⟩
    exact same
  · rintro rfl
    exact ⟨by rw [largest_single], largest_single⟩

end IndexSet

end Switching
