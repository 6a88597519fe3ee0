import Switching.Cube.Basic

/-!
# Containment of cubes

`Cube.covers` compares place by place, so it also says of two arbitrary cubes
that the first one contains the second.  A cube with an open place splits into
the two cubes that fix this place, and each of the two contains one literal
more.  A cube implies a set of rows if it contains no row outside; it is prime
if none of the cubes that come from it by opening a fixed place does the same.
Every implying cube lies in a prime one.
-/

namespace Switching.Cube

@[simp]
theorem covers_cons_cons (place bit : Trit) (rest bits : Cube) :
    covers (place :: rest) (bit :: bits) = true ↔
      (place = .dash ∨ place = bit) ∧ covers rest bits = true := by
  simp [covers]

/-- A cube only contains cubes of its own width. -/
theorem length_eq_of_covers {outer inner : Cube} (contains : outer.covers inner = true) :
    outer.length = inner.length := by
  induction outer generalizing inner with
  | nil =>
      cases inner with
      | nil => rfl
      | cons bit bits => simp [covers] at contains
  | cons place rest ih =>
      cases inner with
      | nil => simp [covers] at contains
      | cons bit bits =>
          rw [List.length_cons, List.length_cons, ih ((covers_cons_cons ..).mp contains).2]

@[simp]
theorem covers_refl (cube : Cube) : cube.covers cube = true := by
  induction cube with
  | nil => rfl
  | cons place rest ih => simp [ih]

theorem covers_trans {outer middle inner : Cube} (first : outer.covers middle = true)
    (second : middle.covers inner = true) : outer.covers inner = true := by
  induction outer generalizing middle inner with
  | nil =>
      cases middle with
      | nil => exact second
      | cons bit bits => simp [covers] at first
  | cons place rest ih =>
      cases middle with
      | nil => simp [covers] at first
      | cons bit bits =>
          cases inner with
          | nil => simp [covers] at second
          | cons last lasts =>
              rw [covers_cons_cons] at first second ⊢
              refine ⟨?_, ih first.2 second.2⟩
              rcases first.1 with isOpen | same
              · exact .inl isOpen
              · exact same ▸ second.1

@[simp]
theorem literalCount_cons (place : Trit) (rest : Cube) :
    literalCount (place :: rest) = rest.literalCount + if place = .dash then 0 else 1 := by
  cases place <;> simp [literalCount]

/-- The larger of two cubes has at most as many literals. -/
theorem literalCount_le_of_covers {outer inner : Cube} (contains : outer.covers inner = true) :
    outer.literalCount ≤ inner.literalCount := by
  induction outer generalizing inner with
  | nil => exact Nat.zero_le _
  | cons place rest ih =>
      cases inner with
      | nil => simp [covers] at contains
      | cons bit bits =>
          obtain ⟨here, there⟩ := (covers_cons_cons ..).mp contains
          have rest_le := ih there
          rw [literalCount_cons, literalCount_cons]
          rcases here with rfl | rfl
          · rw [if_pos rfl]
            exact Nat.le_add_right_of_le rest_le
          · exact Nat.add_le_add_right rest_le _

/-- A full cube contains no full cube but itself. -/
@[simp]
theorem covers_full_full {bits others : List Bool} :
    (full bits).covers (full others) = true ↔ bits = others := by
  induction bits generalizing others with
  | nil => cases others <;> simp [full, covers]
  | cons bit rest ih =>
      cases others with
      | nil => simp [full, covers]
      | cons other others =>
          have rest_iff := @ih others
          simp only [full, List.map_cons, covers_cons_cons, List.cons.injEq] at rest_iff ⊢
          rw [rest_iff]
          cases bit <;> cases other <;> simp [Trit.ofBool]

/-- No cube is empty. -/
theorem exists_covers_full (cube : Cube) : ∃ bits, cube.covers (full bits) = true := by
  induction cube with
  | nil => exact ⟨[], rfl⟩
  | cons place rest ih =>
      obtain ⟨bits, inside⟩ := ih
      refine ⟨(place = .one) :: bits, ?_⟩
      cases place <;> simpa [full, Trit.ofBool] using inside

/-! ## Splitting at an open place -/

/-- `Splits cube ones zeros` says that fixing one and the same open place of
`cube` gives `ones` and `zeros`. -/
inductive Splits : Cube → Cube → Cube → Prop
  | here (rest : Cube) : Splits (.dash :: rest) (.one :: rest) (.zero :: rest)
  | there (place : Trit) {cube ones zeros : Cube} (split : Splits cube ones zeros) :
      Splits (place :: cube) (place :: ones) (place :: zeros)

/-- A full cube lies in a cube exactly if it lies in one of its halves. -/
theorem Splits.covers_full_iff {cube ones zeros : Cube} (split : Splits cube ones zeros)
    (bits : List Bool) : cube.covers (full bits) = true ↔
      ones.covers (full bits) = true ∨ zeros.covers (full bits) = true := by
  induction split generalizing bits with
  | here rest =>
      cases bits with
      | nil => simp [full, covers]
      | cons bit bits => cases bit <;> simp [full, Trit.ofBool]
  | there place split ih =>
      cases bits with
      | nil => simp [full, covers]
      | cons bit bits =>
          have rest_iff := ih bits
          simp only [full, List.map_cons, covers_cons_cons] at rest_iff ⊢
          rw [rest_iff, and_or_left]

theorem Splits.covers_ones {cube ones zeros : Cube} (split : Splits cube ones zeros) :
    cube.covers ones = true := by
  induction split with
  | here rest => simp
  | there place _ ih => simp [ih]

theorem Splits.covers_zeros {cube ones zeros : Cube} (split : Splits cube ones zeros) :
    cube.covers zeros = true := by
  induction split with
  | here rest => simp
  | there place _ ih => simp [ih]

/-- The number of open places of a cube. -/
def openCount (cube : Cube) : Nat :=
  cube.count .dash

@[simp]
theorem openCount_cons (place : Trit) (rest : Cube) :
    openCount (place :: rest) = rest.openCount + if place = .dash then 1 else 0 := by
  cases place <;> simp [openCount]

@[simp]
theorem openCount_full (bits : List Bool) : (full bits).openCount = 0 := by
  refine List.count_eq_zero.mpr fun mem => ?_
  obtain ⟨bit, _, isDash⟩ := List.mem_map.mp mem
  cases bit <;> simp [Trit.ofBool] at isDash

theorem openCount_le_length (cube : Cube) : cube.openCount ≤ cube.length :=
  List.count_le_length

/-- Each half has one open place less. -/
theorem Splits.openCount_eq {cube ones zeros : Cube} (split : Splits cube ones zeros) :
    cube.openCount = ones.openCount + 1 ∧ cube.openCount = zeros.openCount + 1 := by
  induction split with
  | here rest => simp
  | there place _ ih =>
      simp only [openCount_cons]
      omega

/-- Each half has one literal more. -/
theorem Splits.literalCount_eq {cube ones zeros : Cube} (split : Splits cube ones zeros) :
    ones.literalCount = cube.literalCount + 1 ∧
      zeros.literalCount = cube.literalCount + 1 := by
  induction split with
  | here rest => simp
  | there place _ ih =>
      simp only [literalCount_cons]
      omega

/-- A cube splits unless all its places are fixed. -/
theorem exists_splits {cube : Cube} (someOpen : cube.openCount ≠ 0) :
    ∃ ones zeros, Splits cube ones zeros := by
  induction cube with
  | nil => exact absurd rfl someOpen
  | cons place rest ih =>
      by_cases isOpen : place = .dash
      · subst isOpen
        exact ⟨_, _, .here rest⟩
      · have restOpen : openCount rest ≠ 0 := by
          simpa [isOpen] using someOpen
        obtain ⟨ones, zeros, split⟩ := ih restOpen
        exact ⟨_, _, .there place split⟩

/-- A cube without open places is full. -/
theorem exists_eq_full {cube : Cube} (allFixed : cube.openCount = 0) :
    ∃ bits, cube = full bits := by
  induction cube with
  | nil => exact ⟨[], rfl⟩
  | cons place rest ih =>
      simp only [openCount_cons, Nat.add_eq_zero_iff] at allFixed
      obtain ⟨bits, rfl⟩ := ih allFixed.1
      cases place with
      | one => exact ⟨true :: bits, rfl⟩
      | zero => exact ⟨false :: bits, rfl⟩
      | dash => simp at allFixed

/-! ## Prime cubes -/

/-- `Opens cube opened` says that opening one fixed place of `cube` gives
`opened`. -/
def Opens (cube opened : Cube) : Prop :=
  ∃ sibling, Splits opened cube sibling ∨ Splits opened sibling cube

/-- Both halves come from fixing the same place. -/
theorem Splits.exists_set {opened ones zeros : Cube} (split : Splits opened ones zeros) :
    ∃ position,
      (∃ bound : position < ones.length,
        ones[position] ≠ .dash ∧ opened = ones.set position .dash) ∧
      ∃ bound : position < zeros.length,
        zeros[position] ≠ .dash ∧ opened = zeros.set position .dash := by
  induction split with
  | here rest => exact ⟨0, ⟨Nat.succ_pos _, by simp⟩, Nat.succ_pos _, by simp⟩
  | there place _ ih =>
      obtain ⟨position, ⟨bound, fixed, rfl⟩, otherBound, otherFixed, same⟩ := ih
      exact ⟨position + 1, ⟨Nat.succ_lt_succ bound, fixed, rfl⟩, Nat.succ_lt_succ otherBound,
        otherFixed, congrArg (place :: ·) same⟩

/-- To open a place is to put a dash where there is none. -/
theorem opens_iff_set {cube opened : Cube} :
    Opens cube opened ↔ ∃ position, ∃ bound : position < cube.length,
      cube[position] ≠ .dash ∧ opened = cube.set position .dash := by
  constructor
  · rintro ⟨sibling, split | split⟩
    · exact split.exists_set.imp fun _ both => both.1
    · exact split.exists_set.imp fun _ both => both.2
  · rintro ⟨position, bound, fixed, rfl⟩
    induction cube generalizing position with
    | nil => exact absurd bound (Nat.not_lt_zero position)
    | cons place rest ih =>
        cases position with
        | zero =>
            cases place with
            | one => exact ⟨.zero :: rest, .inl (.here rest)⟩
            | zero => exact ⟨.one :: rest, .inr (.here rest)⟩
            | dash => exact absurd rfl fixed
        | succ position =>
            obtain ⟨sibling, split⟩ := ih position (Nat.lt_of_succ_lt_succ bound) fixed
            exact ⟨place :: sibling, split.imp (.there place) (.there place)⟩

theorem Opens.covers {cube opened : Cube} (opens : Opens cube opened) :
    opened.covers cube = true := by
  obtain ⟨sibling, split | split⟩ := opens
  · exact split.covers_ones
  · exact split.covers_zeros

theorem Opens.literalCount_lt {cube opened : Cube} (opens : Opens cube opened) :
    opened.literalCount < cube.literalCount := by
  obtain ⟨sibling, split | split⟩ := opens
  · exact split.literalCount_eq.1 ▸ Nat.lt_succ_self _
  · exact split.literalCount_eq.2 ▸ Nat.lt_succ_self _

/-- All rows in the cube are admitted. -/
def Implies (cube : Cube) (admits : List Bool → Prop) : Prop :=
  ∀ bits, cube.covers (full bits) = true → admits bits

theorem Implies.of_covers {outer inner : Cube} {admits : List Bool → Prop}
    (implies : outer.Implies admits) (contains : outer.covers inner = true) :
    inner.Implies admits :=
  fun bits inside => implies bits (covers_trans contains inside)

/-- A cube implies what both of its halves imply. -/
theorem Splits.implies_iff {cube ones zeros : Cube} (split : Splits cube ones zeros)
    {admits : List Bool → Prop} :
    cube.Implies admits ↔ ones.Implies admits ∧ zeros.Implies admits := by
  constructor
  · intro implies
    exact ⟨implies.of_covers split.covers_ones, implies.of_covers split.covers_zeros⟩
  · rintro ⟨onesImply, zerosImply⟩ bits inside
    rcases (split.covers_full_iff bits).mp inside with inOnes | inZeros
    · exact onesImply bits inOnes
    · exact zerosImply bits inZeros

/-- A full cube stands for one row. -/
@[simp]
theorem implies_full {bits : List Bool} {admits : List Bool → Prop} :
    (full bits).Implies admits ↔ admits bits := by
  constructor
  · exact fun implies => implies bits (covers_refl _)
  · intro admitted others inside
    exact covers_full_full.mp inside ▸ admitted

/-- A cube is prime if it implies a set of rows and stops to do so when any
of its fixed places is opened. -/
structure Prime (cube : Cube) (admits : List Bool → Prop) : Prop where
  implies : cube.Implies admits
  maximal : ∀ opened, Opens cube opened → ¬ opened.Implies admits

/-- Every implying cube lies in a prime one. -/
theorem Implies.exists_prime {cube : Cube} {admits : List Bool → Prop}
    (implies : cube.Implies admits) :
    ∃ prime : Cube, prime.Prime admits ∧ prime.covers cube = true := by
  -- Opening a place takes a literal away, so this stops at the latest when none is left.
  induction literals : cube.literalCount using Nat.strongRecOn generalizing cube with
  | ind count ih =>
      by_cases larger : ∃ opened, Opens cube opened ∧ opened.Implies admits
      · obtain ⟨opened, opens, openedImplies⟩ := larger
        obtain ⟨prime, isPrime, contains⟩ :=
          ih opened.literalCount (literals ▸ opens.literalCount_lt) openedImplies rfl
        exact ⟨prime, isPrime, covers_trans contains opens.covers⟩
      · exact ⟨cube, ⟨implies, fun opened opens openedImplies =>
          larger ⟨opened, opens, openedImplies⟩⟩, covers_refl cube⟩

end Switching.Cube
