import Switching.Proofs.Cube.Containment

/-!
# Unions of cubes

Two cubes merge exactly if they are the two halves of one cube, which is then
the merged one.  A cube that is the union of two disjoint cubes can have no
other parts than its halves: the two parts differ in one place only, where one
of them is one and the other one zero.  So merging is disjoint union, as far as
cubes are closed under it.
-/

namespace Switching

namespace Trit

/-- A place admits a bit if it leaves it open or fixes it to this bit. -/
def Admits (place : Trit) (bit : Bool) : Prop :=
  place = .dash ∨ place = .ofBool bit

instance (place : Trit) (bit : Bool) : Decidable (place.Admits bit) :=
  inferInstanceAs (Decidable (_ ∨ _))

theorem exists_admits (place : Trit) : ∃ bit, place.Admits bit := by
  cases place <;> decide

/-- Of two different places one admits a bit that the other one refuses. -/
theorem exists_admits_of_ne {a b : Trit} (ne : a ≠ b) :
    ∃ bit, (a.Admits bit ∧ ¬ b.Admits bit) ∨ (b.Admits bit ∧ ¬ a.Admits bit) := by
  revert ne
  cases a <;> cases b <;> decide

/-- Places that admit the same bits are equal. -/
theorem eq_of_admits_iff {a b : Trit} (same : ∀ bit, a.Admits bit ↔ b.Admits bit) : a = b := by
  refine Decidable.byContradiction fun ne => ?_
  obtain ⟨bit, ⟨inA, notB⟩ | ⟨inB, notA⟩⟩ := exists_admits_of_ne ne
  · exact notB ((same bit).mp inA)
  · exact notA ((same bit).mpr inB)

/-- Two places without a common bit are one and zero, in some order. -/
theorem fixed_of_not_admits_both {a b : Trit} (apart : ∀ bit, a.Admits bit → ¬ b.Admits bit) :
    (a = .one ∧ b = .zero) ∨ (a = .zero ∧ b = .one) := by
  have ones := apart true
  have zeros := apart false
  cases a <;> cases b <;> simp_all [Admits, ofBool]

end Trit

namespace Cube

theorem covers_full_cons {place : Trit} {rest : Cube} {bit : Bool} {bits : List Bool} :
    covers (place :: rest) (full (bit :: bits)) = true ↔
      place.Admits bit ∧ rest.covers (full bits) = true :=
  covers_cons_cons place (.ofBool bit) rest (full bits)

/-- Cubes that contain the same full cubes are equal. -/
theorem eq_of_covers_full_iff {a b : Cube}
    (same : ∀ bits, a.covers (full bits) = true ↔ b.covers (full bits) = true) : a = b := by
  have length_eq : a.length = b.length := by
    obtain ⟨bits, inside⟩ := exists_covers_full a
    exact (length_eq_of_covers inside).trans (length_eq_of_covers ((same bits).mp inside)).symm
  induction a generalizing b with
  | nil => exact (List.length_eq_zero_iff.mp length_eq.symm).symm
  | cons place rest ih =>
      cases b with
      | nil => cases length_eq
      | cons other others =>
          have same (bit : Bool) (bits : List Bool) := same (bit :: bits)
          simp only [covers_full_cons] at same
          obtain ⟨inRest, restCovers⟩ := exists_covers_full rest
          obtain ⟨inOthers, othersCovers⟩ := exists_covers_full others
          obtain rfl : place = other := Trit.eq_of_admits_iff fun bit =>
            ⟨fun admits => ((same bit inRest).mp ⟨admits, restCovers⟩).1,
              fun admits => ((same bit inOthers).mpr ⟨admits, othersCovers⟩).1⟩
          obtain ⟨bit, admits⟩ := place.exists_admits
          rw [ih (fun bits => by simpa [admits] using same bit bits) (Nat.succ.inj length_eq)]

/-! ## Merging halves -/

theorem splits_cons_cons_iff {cube a b : Cube} {x y : Trit} :
    Splits cube (x :: a) (y :: b) ↔
      (x = .one ∧ y = .zero ∧ a = b ∧ cube = .dash :: a) ∨
        (x = y ∧ ∃ rest, cube = x :: rest ∧ Splits rest a b) := by
  constructor
  · intro split
    cases split with
    | here rest => exact .inl ⟨rfl, rfl, rfl, rfl⟩
    | there place split => exact .inr ⟨rfl, _, rfl, split⟩
  · rintro (⟨rfl, rfl, rfl, rfl⟩ | ⟨rfl, rest, rfl, split⟩)
    · exact .here a
    · exact .there x split

/-- Two cubes merge into a cube exactly if they are its halves. -/
theorem combine?_eq_some_iff_splits {a b cube : Cube} :
    a.combine? b = some cube ↔ Splits cube a b ∨ Splits cube b a := by
  induction a generalizing b cube with
  | nil =>
      simp only [combine?, reduceCtorEq, false_iff]
      rintro (split | split) <;> cases split
  | cons x rest ih =>
      cases b with
      | nil =>
          simp only [combine?, reduceCtorEq, false_iff]
          rintro (split | split) <;> cases split
      | cons y others =>
          rw [splits_cons_cons_iff, splits_cons_cons_iff, combine?]
          by_cases same : x = y
          · subst same
            simp only [if_true, Option.map_eq_some_iff, ih]
            cases x <;> grind
          · rw [if_neg same]
            cases x <;> cases y <;> grind

theorem combine?_comm (a b : Cube) : a.combine? b = b.combine? a := by
  ext cube
  rw [combine?_eq_some_iff_splits, combine?_eq_some_iff_splits, or_comm]

theorem Splits.length_eq {cube ones zeros : Cube} (split : Splits cube ones zeros) :
    ones.length = zeros.length :=
  (length_eq_of_covers split.covers_ones).symm.trans (length_eq_of_covers split.covers_zeros)

theorem combine?_eq_none_of_length_ne {a b : Cube} (ne : a.length ≠ b.length) :
    a.combine? b = none := by
  refine Option.eq_none_iff_forall_ne_some.mpr fun cube merged => ne ?_
  rcases combine?_eq_some_iff_splits.mp merged with split | split
  · exact split.length_eq
  · exact split.length_eq.symm

/-! ## Disjoint unions -/

/-- A cube consists of the rows of two others that have no row in common. -/
structure IsDisjointUnion (whole a b : Cube) : Prop where
  disjoint : ∀ bits, ¬ (a.covers (full bits) = true ∧ b.covers (full bits) = true)
  union : ∀ bits, whole.covers (full bits) = true ↔
    a.covers (full bits) = true ∨ b.covers (full bits) = true

theorem IsDisjointUnion.symm {whole a b : Cube} (parts : IsDisjointUnion whole a b) :
    IsDisjointUnion whole b a where
  disjoint bits both := parts.disjoint bits both.symm
  union bits := (parts.union bits).trans or_comm

/-- The halves of a cube have no row in common. -/
theorem Splits.not_covers_both {cube ones zeros : Cube} (split : Splits cube ones zeros)
    (bits : List Bool) :
    ¬ (ones.covers (full bits) = true ∧ zeros.covers (full bits) = true) := by
  induction split generalizing bits with
  | here rest =>
      rintro ⟨inOnes, inZeros⟩
      cases bits with
      | nil => simp [full, covers] at inOnes
      | cons bit bits =>
          rw [covers_full_cons] at inOnes inZeros
          cases bit <;> simp [Trit.Admits, Trit.ofBool] at inOnes inZeros
  | there place split ih =>
      rintro ⟨inOnes, inZeros⟩
      cases bits with
      | nil => simp [full, covers] at inOnes
      | cons bit bits =>
          rw [covers_full_cons] at inOnes inZeros
          exact ih bits ⟨inOnes.2, inZeros.2⟩

theorem Splits.isDisjointUnion {cube ones zeros : Cube} (split : Splits cube ones zeros) :
    IsDisjointUnion cube ones zeros :=
  ⟨split.not_covers_both, split.covers_full_iff⟩

namespace IsDisjointUnion

variable {place x y : Trit} {rest a b : Cube}

theorem length_eq {whole : Cube} (parts : IsDisjointUnion whole a b) :
    whole.length = a.length := by
  obtain ⟨bits, inside⟩ := exists_covers_full a
  exact (length_eq_of_covers ((parts.union bits).mpr (.inl inside))).trans
    (length_eq_of_covers inside).symm

/-- The first place of the whole admits what the first place of one of the parts
admits. -/
theorem admits_iff (parts : IsDisjointUnion (place :: rest) (x :: a) (y :: b)) (bit : Bool) :
    place.Admits bit ↔ x.Admits bit ∨ y.Admits bit := by
  have union (bits : List Bool) := parts.union (bit :: bits)
  simp only [covers_full_cons] at union
  constructor
  · intro admits
    obtain ⟨bits, inRest⟩ := exists_covers_full rest
    exact ((union bits).mp ⟨admits, inRest⟩).imp And.left And.left
  · rintro (admits | admits)
    · obtain ⟨bits, inA⟩ := exists_covers_full a
      exact ((union bits).mpr (.inl ⟨admits, inA⟩)).1
    · obtain ⟨bits, inB⟩ := exists_covers_full b
      exact ((union bits).mpr (.inr ⟨admits, inB⟩)).1

/-- Behind a bit that both first places admit the rest is a disjoint union. -/
theorem tail (parts : IsDisjointUnion (place :: rest) (x :: a) (y :: b)) {bit : Bool}
    (inX : x.Admits bit) (inY : y.Admits bit) : IsDisjointUnion rest a b where
  disjoint bits both := parts.disjoint (bit :: bits)
    ⟨covers_full_cons.mpr ⟨inX, both.1⟩, covers_full_cons.mpr ⟨inY, both.2⟩⟩
  union bits := by
    have admits := (parts.admits_iff bit).mpr (.inl inX)
    simpa [covers_full_cons, admits, inX, inY] using parts.union (bit :: bits)

/-- Behind a bit that only the first place of one part admits the rest is the
rest of this part. -/
theorem eq_of_admits (parts : IsDisjointUnion (place :: rest) (x :: a) (y :: b)) {bit : Bool}
    (inX : x.Admits bit) (notY : ¬ y.Admits bit) : rest = a := by
  refine eq_of_covers_full_iff fun bits => ?_
  have admits := (parts.admits_iff bit).mpr (.inl inX)
  simpa [covers_full_cons, admits, inX, notY] using parts.union (bit :: bits)

/-- The whole cannot be one of its parts, as the other part is not empty. -/
theorem ne_left {whole : Cube} (parts : IsDisjointUnion whole a b) : whole ≠ a := by
  rintro rfl
  obtain ⟨bits, inB⟩ := exists_covers_full b
  exact parts.disjoint bits ⟨(parts.union bits).mpr (.inr inB), inB⟩

/-- If the first places of the parts differ, they admit no bit in common. -/
theorem not_admits_both (parts : IsDisjointUnion (place :: rest) (x :: a) (y :: b))
    (ne : x ≠ y) {bit : Bool} (inX : x.Admits bit) : ¬ y.Admits bit := by
  intro inY
  have restParts := parts.tail inX inY
  -- Behind a bit that only one of the two places admits the rest is one of the parts.
  obtain ⟨other, ⟨inX, notY⟩ | ⟨inY, notX⟩⟩ := Trit.exists_admits_of_ne ne
  · exact restParts.ne_left (parts.eq_of_admits inX notY)
  · exact restParts.symm.ne_left (parts.symm.eq_of_admits inY notX)

/-- Parts whose first places differ are the halves of a cube that is open
there. -/
theorem splits_of_ne (parts : IsDisjointUnion (place :: rest) (x :: a) (y :: b)) (ne : x ≠ y) :
    Splits (place :: rest) (x :: a) (y :: b) ∨ Splits (place :: rest) (y :: b) (x :: a) := by
  have apart (bit : Bool) (inX : x.Admits bit) : ¬ y.Admits bit := parts.not_admits_both ne inX
  obtain ⟨bitX, inX⟩ := x.exists_admits
  obtain ⟨bitY, inY⟩ := y.exists_admits
  obtain rfl : rest = a := parts.eq_of_admits inX (apart bitX inX)
  obtain rfl : rest = b := parts.symm.eq_of_admits inY fun inX => apart bitY inX inY
  have isOpen (all : ∀ bit, x.Admits bit ∨ y.Admits bit) : place = .dash :=
    Trit.eq_of_admits_iff fun bit => iff_of_true ((parts.admits_iff bit).mpr (all bit)) (.inl rfl)
  rcases Trit.fixed_of_not_admits_both apart with ⟨rfl, rfl⟩ | ⟨rfl, rfl⟩
  · obtain rfl := isOpen (by decide)
    exact .inl (.here rest)
  · obtain rfl := isOpen (by decide)
    exact .inr (.here rest)

/-- The parts of a cube are its halves. -/
theorem splits {whole : Cube} (parts : IsDisjointUnion whole a b) :
    Splits whole a b ∨ Splits whole b a := by
  induction whole generalizing a b with
  | nil =>
      obtain rfl : a = [] := List.length_eq_zero_iff.mp parts.length_eq.symm
      exact absurd rfl parts.ne_left
  | cons place rest ih =>
      cases a with
      | nil => cases parts.length_eq
      | cons x a =>
          cases b with
          | nil => cases parts.symm.length_eq
          | cons y b =>
              by_cases same : x = y
              · subst same
                obtain rfl : place = x := Trit.eq_of_admits_iff fun bit =>
                  (parts.admits_iff bit).trans or_self_iff
                obtain ⟨bit, admits⟩ := place.exists_admits
                exact (ih (parts.tail admits admits)).imp (.there place) (.there place)
              · exact parts.splits_of_ne same

end IsDisjointUnion

/-- Merging is disjoint union: two cubes merge into a cube exactly if they have
no row in common and the cube consists of the rows of both.  The order of the
two does not matter, and cubes of different widths do not merge. -/
theorem merging_iff_isDisjointUnion (a b : Cube) :
    (∀ cube, a.combine? b = some cube ↔ IsDisjointUnion cube a b) ∧
      a.combine? b = b.combine? a ∧ (a.length ≠ b.length → a.combine? b = none) := by
  constructor
  · intro cube
    rw [combine?_eq_some_iff_splits]
    constructor
    · rintro (split | split)
      · exact split.isDisjointUnion
      · exact split.isDisjointUnion.symm
    · exact IsDisjointUnion.splits
  constructor
  · exact combine?_comm a b
  · exact combine?_eq_none_of_length_ne

/-- Two cubes that differ in their last place merge, and neither does with a
narrower one. -/
theorem adjacentCubes_isDisjointUnion :
    IsDisjointUnion [.one, .dash, .dash] [.one, .dash, .one] [.one, .dash, .zero] ∧
      ([.one, .dash, .one] : Cube).length ≠ ([.one, .dash] : Cube).length ∧
      combine? [.one, .dash, .one] [.one, .dash] = none := by
  obtain ⟨merges, -, -⟩ := merging_iff_isDisjointUnion [.one, .dash, .one] [.one, .dash, .zero]
  obtain ⟨-, -, apart⟩ := merging_iff_isDisjointUnion [.one, .dash, .one] [.one, .dash]
  have widths : ([.one, .dash, .one] : Cube).length ≠ ([.one, .dash] : Cube).length := by decide
  exact ⟨(merges _).mp (by decide), widths, apart widths⟩

end Cube

end Switching
