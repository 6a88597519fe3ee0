import Mathlib.Data.List.GetD
import Mathlib.Data.List.Permutation
import Switching.Cover.Minimize
import Switching.Proofs.Cover.PrimeImplicants
import Switching.Proofs.Cover.Reduction
import Switching.Proofs.Table.Rows

/-!
# Selected implicants

The chart of a list of implicants and a list of targets relates their
positions.  If every target is covered by some implicant, it is covered by a
selected one, and no list of implicants that covers all targets costs less than
the selected ones where the limit was not in the way.  For a table this means
that the cubes of an output contain every row in which it is on and no row in
which it is off.
-/

namespace Switching

namespace Chart

theorem contains_positions {α : Type} {test : α → Bool} {members : List α} {index : Nat} :
    (positions test members).contains index = true ↔
      ∃ member, members[index]? = some member ∧ test member = true := by
  simp only [positions, IndexSet.contains_ofList, decide_eq_true_eq, List.mem_map,
    List.mem_filter, Prod.exists, List.mem_zipIdx_iff_getElem?]
  constructor
  · rintro ⟨member, _, ⟨found, passes⟩, rfl⟩
    exact ⟨member, found, passes⟩
  · rintro ⟨member, found, passes⟩
    exact ⟨member, index, ⟨found, passes⟩, rfl⟩

variable {implicants : List Implicant} {targets : List Target}

theorem literalsOf_ofLists {index : Nat} {implicant : Implicant}
    (found : implicants[index]? = some implicant) :
    (ofLists implicants targets).literalsOf index = implicant.literalCount := by
  simp [literalsOf, ofLists, Array.getD_eq_getD_getElem?, found]

theorem covers_ofLists {implicantIndex targetIndex : Nat} :
    (ofLists implicants targets).Covers implicantIndex targetIndex ↔
      ∃ implicant target, implicants[implicantIndex]? = some implicant ∧
        targets[targetIndex]? = some target ∧ implicant.coversTarget target = true := by
  cases found : targets[targetIndex]? with
  | none => simp [Covers, implicantsOf, ofLists, Array.getD_eq_getD_getElem?, found]
  | some target =>
      simp [Covers, implicantsOf, ofLists, Array.getD_eq_getD_getElem?, found,
        contains_positions]

theorem consistent_ofLists : (ofLists implicants targets).Consistent := by
  intro implicantIndex targetIndex
  rw [covers_ofLists]
  cases found : implicants[implicantIndex]? with
  | none => simp [targetsOf, ofLists, Array.getD_eq_getD_getElem?, found]
  | some implicant =>
      simp [targetsOf, ofLists, Array.getD_eq_getD_getElem?, found, contains_positions]

/-- Positions of implicants that cover all targets solve the whole chart. -/
theorem solves_whole_ofLists {chosen : Finset Nat}
    (inRange : ∀ index ∈ chosen, index < implicants.length)
    (covers : ∀ target ∈ targets, ∃ index ∈ chosen, ∃ implicant,
      implicants[index]? = some implicant ∧ implicant.coversTarget target = true) :
    (ofLists implicants targets).Solves (ofLists implicants targets).whole chosen where
  inPlay index mem := by simpa [whole, ofLists] using inRange index mem
  covers targetIndex mem := by
    have bound : targetIndex < targets.length := by simpa [whole, ofLists] using mem
    obtain ⟨index, chosenMem, implicant, found, coversTarget⟩ :=
      covers targets[targetIndex] (List.getElem_mem bound)
    exact ⟨index, chosenMem, covers_ofLists.mpr
      ⟨implicant, targets[targetIndex], found, List.getElem?_eq_getElem bound, coversTarget⟩⟩

end Chart

namespace Petrick

/-- A list of indices costs at least as much as the set of its members. -/
theorem price_toFinset_le (literals : Nat → Nat) (indices : List Nat) :
    price literals indices.toFinset ≤ toLex (indices.length, (indices.map literals).sum) := by
  induction indices with
  | nil => exact le_rfl
  | cons first rest ih =>
      rw [List.toFinset_cons]
      calc
        price literals (insert first rest.toFinset)
            ≤ price literals {first} + price literals rest.toFinset :=
          price_union_le {first} rest.toFinset
        _ ≤ indexPrice literals first + toLex (rest.length, (rest.map literals).sum) :=
          add_le_add (by simp [price]) ih
        _ = toLex ((first :: rest).length, ((first :: rest).map literals).sum) := by
          rw [List.length_cons, add_comm rest.length]
          rfl

end Petrick

/-- The number of cubes in a list and their literals in total, compared
lexicographically. -/
def Cube.listPrice (cubes : List Cube) : ℕ ×ₗ ℕ :=
  toLex (cubes.length, (cubes.map Cube.literalCount).sum)

namespace Selection

variable {implicants : List Implicant} {targets : List Target}

/-- The chosen positions solve the whole chart. -/
theorem solves_ofLists
    (coverable : ∀ target ∈ targets, ∃ implicant ∈ implicants,
      implicant.coversTarget target = true) (limit : Nat) :
    (Chart.ofLists implicants targets).Solves (Chart.ofLists implicants targets).whole
      ((Chart.ofLists implicants targets).solve limit).chosen.toFinset := by
  refine Chart.solves_solve Chart.consistent_ofLists (Finset.range implicants.length) ?_ limit
  refine Chart.solves_whole_ofLists (fun index mem => Finset.mem_range.mp mem)
    fun target mem => ?_
  obtain ⟨implicant, implicantMem, covers⟩ := coverable target mem
  obtain ⟨index, found⟩ := List.mem_iff_getElem?.mp implicantMem
  obtain ⟨bound, -⟩ := List.getElem?_eq_some_iff.mp found
  exact ⟨index, Finset.mem_range.mpr bound, implicant, found, covers⟩

/-- Every target that some implicant covers is covered by a selected one. -/
theorem exists_mem_ofChart
    (coverable : ∀ target ∈ targets, ∃ implicant ∈ implicants,
      implicant.coversTarget target = true) (limit : Nat) {target : Target}
    (mem : target ∈ targets) : ∃ implicant ∈ (ofChart limit implicants targets).implicants,
      implicant.coversTarget target = true := by
  obtain ⟨position, found⟩ := List.mem_iff_getElem?.mp mem
  obtain ⟨bound, -⟩ := List.getElem?_eq_some_iff.mp found
  obtain ⟨index, chosen, covers⟩ := (solves_ofLists coverable limit).covers position
    (by simpa [Chart.whole, Chart.ofLists] using bound)
  obtain ⟨implicant, target', foundImplicant, foundTarget, coversTarget⟩ :=
    Chart.covers_ofLists.mp covers
  have same : target = target' := Option.some.inj (found.symm.trans foundTarget)
  exact ⟨implicant, List.mem_filterMap.mpr ⟨index, List.mem_toFinset.mp chosen, foundImplicant⟩,
    same ▸ coversTarget⟩

/-- Only implicants of the chart are selected. -/
theorem mem_of_mem_ofChart {limit : Nat} {implicant : Implicant}
    (mem : implicant ∈ (ofChart limit implicants targets).implicants) :
    implicant ∈ implicants := by
  obtain ⟨index, -, found⟩ := List.mem_filterMap.mp mem
  exact List.mem_of_getElem? found

/-- The implicants at some positions have the literals that the chart has at
these positions. -/
theorem map_literalCount_collected (targets : List Target) {indices : List Nat}
    (inRange : ∀ index ∈ indices, index < implicants.length) :
    ((indices.filterMap fun index => implicants[index]?).map Implicant.cube).map
      Cube.literalCount = indices.map (Chart.ofLists implicants targets).literalsOf := by
  induction indices with
  | nil => rfl
  | cons first rest ih =>
      have found := List.getElem?_eq_getElem (inRange first List.mem_cons_self)
      rw [List.filterMap_cons_some found, List.map_cons, List.map_cons, List.map_cons,
        ih fun index mem => inRange index (List.mem_cons_of_mem _ mem),
        Chart.literalsOf_ofLists found]
      rfl

/-- The selected implicants cost as much as the chosen positions. -/
theorem listPrice_ofChart
    (coverable : ∀ target ∈ targets, ∃ implicant ∈ implicants,
      implicant.coversTarget target = true) (limit : Nat) :
    Cube.listPrice ((ofChart limit implicants targets).implicants.map Implicant.cube) =
      Petrick.price (Chart.ofLists implicants targets).literalsOf
        ((Chart.ofLists implicants targets).solve limit).chosen.toFinset := by
  have inRange : ∀ index ∈ ((Chart.ofLists implicants targets).solve limit).chosen,
      index < implicants.length := by
    intro index mem
    have inPlay := (solves_ofLists coverable limit).inPlay index (List.mem_toFinset.mpr mem)
    simpa [Chart.whole, Chart.ofLists] using inPlay
  have nodup : ((Chart.ofLists implicants targets).solve limit).chosen.Nodup :=
    (IndexSet.pairwise_toList _).imp Nat.ne_of_lt
  have values := map_literalCount_collected targets inRange
  have lengths := congrArg List.length values
  rw [List.length_map Cube.literalCount,
    List.length_map (Chart.ofLists implicants targets).literalsOf] at lengths
  rw [Petrick.price_eq, List.toFinset_card_of_nodup nodup, List.sum_toFinset _ nodup,
    ← values, ← lengths]
  rfl

/-- Where the limit was not in the way, no list of implicants that covers all
targets costs less than the selected ones. -/
theorem listPrice_ofChart_le {limit : Nat}
    (exact : (ofChart limit implicants targets).exact = true) {known : List Implicant}
    (inImplicants : ∀ implicant ∈ known, implicant ∈ implicants)
    (covers : ∀ target ∈ targets, ∃ implicant ∈ known, implicant.coversTarget target = true) :
    Cube.listPrice ((ofChart limit implicants targets).implicants.map Implicant.cube) ≤
      Cube.listPrice (known.map Implicant.cube) := by
  have coverable : ∀ target ∈ targets, ∃ implicant ∈ implicants,
      implicant.coversTarget target = true := by
    intro target mem
    obtain ⟨implicant, knownMem, coversTarget⟩ := covers target mem
    exact ⟨implicant, inImplicants implicant knownMem, coversTarget⟩
  have found : ∀ implicant ∈ known,
      implicants[implicants.idxOf implicant]? = some implicant := by
    intro implicant mem
    have bound := List.idxOf_lt_length_iff.mpr (inImplicants implicant mem)
    rw [List.getElem?_eq_getElem bound, List.getElem_idxOf]
  have solves : (Chart.ofLists implicants targets).Solves (Chart.ofLists implicants targets).whole
      (known.map implicants.idxOf).toFinset := by
    refine Chart.solves_whole_ofLists ?_ ?_
    · intro index mem
      obtain ⟨implicant, knownMem, rfl⟩ := List.mem_map.mp (List.mem_toFinset.mp mem)
      exact List.idxOf_lt_length_iff.mpr (inImplicants implicant knownMem)
    · intro target mem
      obtain ⟨implicant, knownMem, coversTarget⟩ := covers target mem
      exact ⟨implicants.idxOf implicant,
        List.mem_toFinset.mpr (List.mem_map_of_mem knownMem), implicant,
        found implicant knownMem, coversTarget⟩
  rw [listPrice_ofChart coverable]
  calc
    _ ≤ Petrick.price (Chart.ofLists implicants targets).literalsOf
          (known.map implicants.idxOf).toFinset :=
      Chart.price_solve_le Chart.consistent_ofLists exact solves
    _ ≤ toLex ((known.map implicants.idxOf).length, ((known.map implicants.idxOf).map
          (Chart.ofLists implicants targets).literalsOf).sum) := Petrick.price_toFinset_le _ _
    _ = Cube.listPrice (known.map Implicant.cube) := by
      rw [Cube.listPrice, List.length_map, List.length_map, List.map_map, List.map_map]
      congr 3
      exact List.map_congr_left fun implicant mem =>
        Chart.literalsOf_ofLists (found implicant mem)

end Selection

/-! ## Joint covers -/

namespace Chart

/-- A set of positions at which the implicants together cover all targets, each
target for its own output. -/
structure CoversAll (implicants : List Implicant) (targets : List Target)
    (chosen : Finset Nat) : Prop where
  inRange : ∀ index ∈ chosen, index < implicants.length
  covers : ∀ target ∈ targets, ∃ index ∈ chosen, ∃ implicant,
    implicants[index]? = some implicant ∧ implicant.coversTarget target = true

/-- The number of literals of the implicant at a position. -/
def literalsAt (implicants : List Implicant) (index : Nat) : Nat :=
  (implicants.map Implicant.literalCount).getD index 0

/-- Every set of positions that covers all targets has more members than the
chosen ones, or as many and at least as many literals in total. -/
def IsCheapest (implicants : List Implicant) (targets : List Target) (chosen : List Nat) : Prop :=
  ∀ other : Finset Nat, CoversAll implicants targets other →
    chosen.length < other.card ∨
      chosen.length = other.card ∧
        (chosen.map (literalsAt implicants)).sum ≤ ∑ index ∈ other, literalsAt implicants index

variable {implicants : List Implicant} {targets : List Target}

theorem literalsOf_ofLists_eq :
    (ofLists implicants targets).literalsOf = literalsAt implicants := by
  funext index
  simp [literalsOf, literalsAt, ofLists, Array.getD_eq_getD_getElem?, List.getD_eq_getElem?_getD]

/-- To solve the whole chart of two lists is to cover all targets. -/
theorem solves_whole_iff {chosen : Finset Nat} :
    (ofLists implicants targets).Solves (ofLists implicants targets).whole chosen ↔
      CoversAll implicants targets chosen := by
  constructor
  · intro solves
    constructor
    · intro index mem
      simpa [whole, ofLists] using solves.inPlay index mem
    · intro target mem
      obtain ⟨position, found⟩ := List.mem_iff_getElem?.mp mem
      obtain ⟨bound, -⟩ := List.getElem?_eq_some_iff.mp found
      obtain ⟨index, chosenMem, covers⟩ :=
        solves.covers position (by simpa [whole, ofLists] using bound)
      obtain ⟨implicant, other, foundImplicant, foundTarget, coversTarget⟩ :=
        covers_ofLists.mp covers
      obtain rfl : target = other := Option.some.inj (found.symm.trans foundTarget)
      exact ⟨index, chosenMem, implicant, foundImplicant, coversTarget⟩
  · rintro ⟨inRange, covers⟩
    exact solves_whole_ofLists inRange covers

/-- If every target is covered by some implicant, the positions that are chosen,
the selected ones and those that meet the clauses left, cover all targets,
whatever the limit.  If these clauses can be multiplied out within the limit, no
other set of positions that covers all targets costs less. -/
theorem solve_ofLists_cheapest (coverable : ∀ target ∈ targets, ∃ implicant ∈ implicants,
      implicant.coversTarget target = true) (limit : Nat) :
    ((ofLists implicants targets).solve limit).chosen.Pairwise (· < ·) ∧
      CoversAll implicants targets ((ofLists implicants targets).solve limit).chosen.toFinset ∧
      ∀ products, Petrick.expand limit
          ((ofLists implicants targets).clauses (ofLists implicants targets).reduce) =
            some products →
        IsCheapest implicants targets ((ofLists implicants targets).solve limit).chosen := by
  have ascending : ((ofLists implicants targets).solve limit).chosen.Pairwise (· < ·) :=
    IndexSet.pairwise_toList _
  have nodup : ((ofLists implicants targets).solve limit).chosen.Nodup :=
    ascending.imp Nat.ne_of_lt
  constructor
  · exact ascending
  constructor
  · exact solves_whole_iff.mp (Selection.solves_ofLists coverable limit)
  · intro products expanded other coversAll
    have exact : ((ofLists implicants targets).solve limit).exact = true :=
      Petrick.exact_solve expanded
    have price_le := price_solve_le consistent_ofLists exact (solves_whole_iff.mpr coversAll)
    rw [Petrick.price_eq, Petrick.price_eq, literalsOf_ofLists_eq,
      List.toFinset_card_of_nodup nodup, List.sum_toFinset _ nodup] at price_le
    exact Prod.Lex.toLex_le_toLex.mp price_le

/-- Six implicants for one output that cover six rows in a ring, two each, of
which two also serve a second output, and an implicant of the second output. -/
def ringImplicants : List Implicant :=
  [⟨[.zero, .dash, .one], 3⟩, ⟨[.zero, .one, .dash], 1⟩, ⟨[.dash, .one, .zero], 3⟩,
    ⟨[.one, .dash, .zero], 1⟩, ⟨[.one, .zero, .dash], 1⟩, ⟨[.dash, .zero, .one], 1⟩,
    ⟨[.one, .one, .one], 2⟩]

/-- The rows of the ring for the first output and a row for the second one. -/
def ringTargets : List Target :=
  [⟨[.zero, .zero, .one], 0⟩, ⟨[.zero, .one, .zero], 0⟩, ⟨[.zero, .one, .one], 0⟩,
    ⟨[.one, .zero, .zero], 0⟩, ⟨[.one, .zero, .one], 0⟩, ⟨[.one, .one, .zero], 0⟩,
    ⟨[.one, .one, .one], 1⟩]

/-- No joint cover of the ring and the row beside it is cheaper than the chosen
one. -/
theorem ring_cheapest :
    (∀ target ∈ ringTargets, ∃ implicant ∈ ringImplicants,
      implicant.coversTarget target = true) ∧
      ((ofLists ringImplicants ringTargets).solve 8).chosen = [0, 2, 4, 6] ∧
      CoversAll ringImplicants ringTargets [0, 2, 4, 6].toFinset ∧
      IsCheapest ringImplicants ringTargets [0, 2, 4, 6] := by
  have coverable : ∀ target ∈ ringTargets, ∃ implicant ∈ ringImplicants,
      implicant.coversTarget target = true := by
    decide
  have clauses_eq : (ofLists ringImplicants ringTargets).clauses
      (ofLists ringImplicants ringTargets).reduce =
        [[0, 5], [1, 2], [0, 1], [3, 4], [4, 5], [2, 3]] := by
    decide +kernel
  have expands : (Petrick.expand 8 [[0, 5], [1, 2], [0, 1], [3, 4], [4, 5], [2, 3]]).isSome =
      true := by
    cbv
  have chosen_eq : ((ofLists ringImplicants ringTargets).solve 8).chosen = [0, 2, 4, 6] := by
    cbv
  obtain ⟨products, expanded⟩ := Option.isSome_iff_exists.mp expands
  obtain ⟨-, coversAll, cheapest⟩ := solve_ofLists_cheapest coverable 8
  rw [chosen_eq] at coversAll cheapest
  rw [clauses_eq] at cheapest
  exact ⟨coverable, chosen_eq, coversAll, cheapest products expanded⟩

end Chart

end Switching
