import Switching.Proofs.Table.Patterns

/-!
# The forms of a row

The index of a row, its pattern and its assignment of the inputs can be
exchanged for one another.  Going from one form to another one and back gives
what there was before, except that an assignment comes back without the names
that are no inputs.
-/

namespace Switching

/-- A traversal whose steps all succeed collects their results. -/
theorem mapM_eq_ok_map {ε α β : Type} {step : α → Except ε β} (result : α → β) {list : List α}
    (each : ∀ member ∈ list, step member = .ok (result member)) :
    list.mapM step = .ok (list.map result) := by
  induction list with
  | nil => rfl
  | cons first rest ih =>
      rw [List.mapM_cons, each first List.mem_cons_self,
        ih fun member mem => each member (List.mem_cons_of_mem _ mem)]
      rfl

namespace Assignment

variable {assignment : Assignment} {name : String}

theorem mem_bindings_iff {value : Bool} :
    (name, value) ∈ assignment.bindings ↔ assignment.value? name = some value := by
  rw [value?, List.lookup_eq_some_iff]
  constructor
  · intro mem
    obtain ⟨before, after, bindings_eq⟩ := List.append_of_mem mem
    refine ⟨before, after, bindings_eq, fun earlier earlierMem => bne_iff_ne.mpr fun same => ?_⟩
    have ascending := assignment.ascending
    rw [bindings_eq] at ascending
    have less := (List.pairwise_append.mp ascending).2.2 earlier earlierMem _ List.mem_cons_self
    exact String.lt_irrefl _ (same ▸ less)
  · rintro ⟨before, after, bindings_eq, -⟩
    rw [bindings_eq]
    exact List.mem_append_right _ List.mem_cons_self

theorem nodup_bindings (assignment : Assignment) : assignment.bindings.Nodup := by
  refine assignment.ascending.imp ?_
  intro first second less equal
  exact String.lt_irrefl _ (equal ▸ less)

/-- Assignments with the same values are equal. -/
theorem eq_of_value?_eq {first second : Assignment}
    (same : ∀ name, first.value? name = second.value? name) : first = second := by
  have perm : first.bindings.Perm second.bindings := by
    refine (List.perm_ext_iff_of_nodup first.nodup_bindings second.nodup_bindings).mpr ?_
    rintro ⟨name, value⟩
    rw [mem_bindings_iff, mem_bindings_iff, same]
  have bindings_eq : first.bindings = second.bindings :=
    perm.eq_of_pairwise (fun _ _ _ _ less greater => absurd greater (String.lt_asymm less))
      first.ascending second.ascending
  cases first
  cases second
  cases bindings_eq
  rfl

/-- The values that an assignment gives to some names. -/
def restrict (assignment : Assignment) (names : List String) : Assignment :=
  ⟨assignment.bindings.filter (·.1 ∈ names), assignment.ascending.filter _⟩

theorem value?_restrict {names : List String} :
    (assignment.restrict names).value? name =
      if name ∈ names then assignment.value? name else none := by
  ext value
  rw [← mem_bindings_iff, restrict, List.mem_filter, mem_bindings_iff]
  split <;> simp_all

end Assignment

namespace Row

variable {width : Nat} {names : List String} {assignment : Assignment}

/-- Values that an assignment gives to all names form a pattern. -/
theorem patternOfAssignment_eq_ok (assigned : assignment.Assigns names) :
    patternOfAssignment assignment names =
      .ok (String.ofList ((names.map assignment.valuation).map bitSymbol)) := by
  rw [patternOfAssignment, List.map_map,
    mapM_eq_ok_map (bitSymbol ∘ assignment.valuation)]
  · rfl
  · intro name mem
    rw [Assignment.value?_eq_some_valuation (assigned name mem)]
    rfl

/-- The pattern of the values of a row's assignment is the pattern of the row. -/
theorem patternOfAssignment_assignment (nodup : names.Nodup) (index : Nat) :
    patternOfAssignment (Row.assignment names index) names =
      .ok (Row.pattern names.length index) := by
  rw [patternOfAssignment_eq_ok (assigns_assignment nodup index),
    map_valuation_assignment nodup, Row.pattern]

/-- The assignment of the row with the values of an assignment is the given one,
restricted to the inputs. -/
theorem assignBits_valuation (nodup : names.Nodup) (assigned : assignment.Assigns names) :
    assignBits (names.map assignment.valuation) names = assignment.restrict names := by
  refine Assignment.eq_of_value?_eq fun name => ?_
  rw [Assignment.value?_restrict]
  split
  · rename_i mem
    have values : names.map (assignBits (names.map assignment.valuation) names).value? =
        (names.map assignment.valuation).map some :=
      map_value?_assignBits nodup (List.length_map _)
    rw [List.map_map] at values
    exact (List.map_inj_left.mp values name mem).trans
      (Assignment.value?_eq_some_valuation (assigned name mem)).symm
  · rename_i absent
    refine Assignment.value?_ofList_of_notMem fun mem => absent ?_
    obtain ⟨binding, bindingMem, rfl⟩ := List.mem_map.mp mem
    exact (List.of_mem_zip bindingMem).1

/-- The pattern of the values of an assignment leads back to the assignment,
restricted to the inputs. -/
theorem exists_patternOfAssignment (fits : names.length ≤ 64) (nodup : names.Nodup)
    (assigned : assignment.Assigns names) :
    ∃ row : Fin (count names.length),
      patternOfAssignment assignment names = .ok (Row.pattern names.length row) ∧
      Row.assignment names row = assignment.restrict names := by
  obtain ⟨index, bound, bits_eq⟩ := exists_bits_eq fits (List.length_map assignment.valuation)
  refine ⟨⟨index, bound⟩, ?_, ?_⟩
  · rw [patternOfAssignment_eq_ok assigned, Row.pattern, bits_eq]
  · rw [Row.assignment, bits_eq, assignBits_valuation nodup assigned]

/-- For at most 64 inputs, index, pattern and assignment of a row determine each
other: the pattern of an index is looked up as this index; a pattern that is
looked up is the one of the index found, which is below the number of rows; the
assignment of such a pattern has this pattern; and every assignment of all inputs
has a pattern, whose assignment is the given one without the other names. -/
theorem forms_interchange {width : Nat} (fits : width ≤ 64) :
    (∀ index < 2 ^ width,
      (Row.index (Row.pattern width index) width).map Fin.val = .ok index) ∧
    (∀ (pattern : String) (row : Fin (count width)), Row.index pattern width = .ok row →
      row.val < 2 ^ width ∧ Row.pattern width row = pattern) ∧
    ∀ names : List String, names.Nodup → names.length = width →
      (∀ (pattern : String) (row : Fin (count width)), Row.index pattern width = .ok row →
        ∃ assignment, assignmentOfPattern pattern names = .ok assignment ∧
          patternOfAssignment assignment names = .ok pattern) ∧
      ∀ assignment : Assignment, assignment.Assigns names →
        ∃ pattern, patternOfAssignment assignment names = .ok pattern ∧
          assignmentOfPattern pattern names = .ok (assignment.restrict names) := by
  constructor
  · intro index bound
    have row_eq : Row.index (Row.pattern width index) width =
        .ok ⟨index, count_eq_two_pow width ▸ bound⟩ := (index_eq_ok_iff fits).mpr rfl
    rw [row_eq]
    rfl
  constructor
  · intro pattern row row_eq
    exact ⟨count_eq_two_pow width ▸ row.isLt, (index_eq_ok_iff fits).mp row_eq⟩
  rintro names nodup rfl
  constructor
  · intro pattern row row_eq
    obtain rfl := (index_eq_ok_iff fits).mp row_eq
    exact ⟨_, assignmentOfPattern_pattern fits row, patternOfAssignment_assignment nodup row⟩
  · intro assignment assigned
    obtain ⟨row, pattern_eq, assignment_eq⟩ := exists_patternOfAssignment fits nodup assigned
    exact ⟨_, pattern_eq, assignment_eq ▸ assignmentOfPattern_pattern fits row⟩

/-- Values for three inputs and for a name that is none of them. -/
def fourNames : Assignment :=
  .ofList [("D", true), ("C", false), ("A", true), ("B", true)]

/-- Row six of three inputs, its pattern and the values of the inputs. -/
theorem rowSix_interchange :
    (3 : Nat) ≤ 64 ∧ ["B", "A", "C"].Nodup ∧ fourNames.Assigns ["B", "A", "C"] ∧
      Row.pattern 3 6 = "110" ∧ (Row.index "110" 3).map Fin.val = .ok 6 ∧
      patternOfAssignment fourNames ["B", "A", "C"] = .ok "110" ∧
      assignmentOfPattern "110" ["B", "A", "C"] = .ok (fourNames.restrict ["B", "A", "C"]) := by
  have nodup : ["B", "A", "C"].Nodup := by decide
  have assigned : fourNames.Assigns ["B", "A", "C"] := by
    simp only [Assignment.Assigns]
    decide
  have pattern_eq : Row.pattern 3 6 = "110" := by decide
  have values_eq : patternOfAssignment fourNames ["B", "A", "C"] = .ok "110" := by rfl
  obtain ⟨indices, -, assignments⟩ := forms_interchange (show 3 ≤ 64 by decide)
  have index_eq := indices 6 (by decide)
  rw [pattern_eq] at index_eq
  obtain ⟨pattern, found, back⟩ := (assignments _ nodup rfl).2 fourNames assigned
  obtain rfl : pattern = "110" := Except.ok.inj (found.symm.trans values_eq)
  exact ⟨by decide, nodup, assigned, pattern_eq, index_eq, values_eq, back⟩

end Row

end Switching
