import Switching.Cover.Primes
import Switching.Proofs.Cube.Containment

/-!
# Prime implicants are the prime cubes

A level of merging holds, for every output, exactly the implying cubes with a
given number of open places.  Merging a level gives the next one, and the cubes
of a level that take part in no merge are the prime ones.  So the prime
implicants of a list of full terms serve an output exactly where their cubes
are prime for it.
-/

namespace Switching

namespace CubeMap

/-- A map serves an output with a cube if it gives the cube that output. -/
def Serves (map : CubeMap) (output : Nat) (cube : Cube) : Prop :=
  (map.outputsOf cube).getLsbD output = true

@[simp]
theorem serves_empty (output : Nat) (cube : Cube) : ¬ (CubeMap.empty).Serves output cube := by
  simp [Serves]

@[simp]
theorem serves_union {left right : CubeMap} {output : Nat} {cube : Cube} :
    (left.union right).Serves output cube ↔
      left.Serves output cube ∨ right.Serves output cube := by
  simp [Serves]

@[simp]
theorem serves_inter {left right : CubeMap} {output : Nat} {cube : Cube} :
    (left.inter right).Serves output cube ↔
      left.Serves output cube ∧ right.Serves output cube := by
  simp [Serves]

@[simp]
theorem serves_diff {left right : CubeMap} {output : Nat} {cube : Cube} :
    (left.diff right).Serves output cube ↔
      left.Serves output cube ∧ ¬ right.Serves output cube := by
  simp only [Serves, outputsOf_diff, BitVec.getLsbD_and, BitVec.getLsbD_not, Bool.and_eq_true,
    Bool.not_eq_true', decide_eq_true_eq, Bool.not_eq_true]
  constructor
  · rintro ⟨inLeft, _, notRight⟩
    exact ⟨inLeft, notRight⟩
  · rintro ⟨inLeft, notRight⟩
    exact ⟨inLeft, BitVec.lt_of_getLsbD inLeft, notRight⟩

@[simp]
theorem serves_make {outputs : OutputSet} {one zero dash : CubeMap} {output : Nat} {cube : Cube} :
    (make outputs one zero dash).Serves output cube ↔
      (node outputs one zero dash).Serves output cube := by
  simp [Serves]

@[simp]
theorem serves_node_nil {outputs : OutputSet} {one zero dash : CubeMap} {output : Nat} :
    (node outputs one zero dash).Serves output [] ↔ outputs.getLsbD output = true :=
  Iff.rfl

@[simp]
theorem serves_node_one {outputs : OutputSet} {one zero dash : CubeMap} {output : Nat}
    {rest : Cube} : (node outputs one zero dash).Serves output (.one :: rest) ↔
      one.Serves output rest :=
  Iff.rfl

@[simp]
theorem serves_node_zero {outputs : OutputSet} {one zero dash : CubeMap} {output : Nat}
    {rest : Cube} : (node outputs one zero dash).Serves output (.zero :: rest) ↔
      zero.Serves output rest :=
  Iff.rfl

@[simp]
theorem serves_node_dash {outputs : OutputSet} {one zero dash : CubeMap} {output : Nat}
    {rest : Cube} : (node outputs one zero dash).Serves output (.dash :: rest) ↔
      dash.Serves output rest :=
  Iff.rfl

/-- The map of a list of terms serves an output with a cube where one of the
terms does. -/
theorem serves_ofTerms {terms : List Term} {output : Nat} {cube : Cube} :
    (ofTerms terms).Serves output cube ↔
      ∃ term ∈ terms, term.cube = cube ∧ term.outputs.getLsbD output = true := by
  have step (terms : List Term) : ∀ start : CubeMap,
      (terms.foldl (fun level term => if term.outputs = 0 then level
        else level.union (single term.outputs term.cube)) start).Serves output cube ↔
        start.Serves output cube ∨
          ∃ term ∈ terms, term.cube = cube ∧ term.outputs.getLsbD output = true := by
    induction terms with
    | nil => simp
    | cons first rest ih =>
        intro start
        have single_iff : (single first.outputs first.cube).Serves output cube ↔
            first.cube = cube ∧ first.outputs.getLsbD output = true := by
          rw [Serves, outputsOf_single]
          by_cases same : cube = first.cube
          · simp [same]
          · simp [same, Ne.symm same]
        simp only [List.foldl_cons, ih, List.mem_cons, exists_eq_or_imp]
        split
        · rename_i noOutputs
          simp [noOutputs]
        · rw [serves_union, single_iff, or_assoc]
  rw [ofTerms, step]
  exact or_iff_right (serves_empty output cube)

/-- Merging gives the cubes of which both halves are served. -/
theorem serves_merges {level : CubeMap} {output : Nat} {cube : Cube} :
    level.merges.Serves output cube ↔ ∃ ones zeros, Cube.Splits cube ones zeros ∧
      level.Serves output ones ∧ level.Serves output zeros := by
  induction level generalizing cube with
  | empty => simp [merges]
  | node outputs one zero dash ihOne ihZero ihDash =>
      rw [merges, serves_make]
      constructor
      · intro served
        cases cube with
        | nil => simp at served
        | cons place rest =>
            cases place with
            | one =>
                obtain ⟨ones, zeros, split, both⟩ := ihOne.mp served
                exact ⟨_, _, .there _ split, both⟩
            | zero =>
                obtain ⟨ones, zeros, split, both⟩ := ihZero.mp served
                exact ⟨_, _, .there _ split, both⟩
            | dash =>
                rw [serves_node_dash, serves_union, serves_inter] at served
                rcases served with below | here
                · obtain ⟨ones, zeros, split, both⟩ := ihDash.mp below
                  exact ⟨_, _, .there _ split, both⟩
                · exact ⟨_, _, .here rest, here⟩
      · rintro ⟨ones, zeros, split, both⟩
        cases split with
        | here rest =>
            rw [serves_node_dash, serves_union, serves_inter]
            exact .inr both
        | there place split =>
            cases place with
            | one => exact ihOne.mpr ⟨_, _, split, both⟩
            | zero => exact ihZero.mpr ⟨_, _, split, both⟩
            | dash => exact serves_union.mpr (.inl (ihDash.mpr ⟨_, _, split, both⟩))

/-- A cube takes part in a merge where it and a sibling are served. -/
theorem serves_merged {level : CubeMap} {output : Nat} {cube : Cube} :
    level.merged.Serves output cube ↔ ∃ opened sibling,
      (Cube.Splits opened cube sibling ∨ Cube.Splits opened sibling cube) ∧
        level.Serves output cube ∧ level.Serves output sibling := by
  induction level generalizing cube with
  | empty => simp [merged]
  | node outputs one zero dash ihOne ihZero ihDash =>
      rw [merged, serves_make]
      constructor
      · intro served
        cases cube with
        | nil => simp at served
        | cons place rest =>
            cases place with
            | one =>
                rw [serves_node_one, serves_union, serves_inter] at served
                rcases served with below | here
                · obtain ⟨opened, sibling, split, both⟩ := ihOne.mp below
                  exact ⟨_, _, split.imp (.there _) (.there _), both⟩
                · exact ⟨_, _, .inl (.here rest), here⟩
            | zero =>
                rw [serves_node_zero, serves_union, serves_inter] at served
                rcases served with below | here
                · obtain ⟨opened, sibling, split, both⟩ := ihZero.mp below
                  exact ⟨_, _, split.imp (.there _) (.there _), both⟩
                · exact ⟨_, _, .inr (.here rest), here.symm⟩
            | dash =>
                obtain ⟨opened, sibling, split, both⟩ := ihDash.mp served
                exact ⟨_, _, split.imp (.there _) (.there _), both⟩
      · rintro ⟨opened, sibling, split | split, both⟩
        · cases split with
          | here rest => exact serves_union.mpr (.inr (serves_inter.mpr both))
          | there place split =>
              cases place with
              | one => exact serves_union.mpr (.inl (ihOne.mpr ⟨_, _, .inl split, both⟩))
              | zero => exact serves_union.mpr (.inl (ihZero.mpr ⟨_, _, .inl split, both⟩))
              | dash => exact ihDash.mpr ⟨_, _, .inl split, both⟩
        · cases split with
          | here rest => exact serves_union.mpr (.inr (serves_inter.mpr both.symm))
          | there place split =>
              cases place with
              | one => exact serves_union.mpr (.inl (ihOne.mpr ⟨_, _, .inr split, both⟩))
              | zero => exact serves_union.mpr (.inl (ihZero.mpr ⟨_, _, .inr split, both⟩))
              | dash => exact ihDash.mpr ⟨_, _, .inr split, both⟩

/-- The bound on fixed places holds for every cube that is served. -/
theorem literalCount_le_fixedPlaces {map : CubeMap} {output : Nat} {cube : Cube}
    (served : map.Serves output cube) : cube.literalCount ≤ map.fixedPlaces := by
  induction map generalizing cube with
  | empty => simp at served
  | node outputs one zero dash ihOne ihZero ihDash =>
      cases cube with
      | nil => exact Nat.zero_le _
      | cons place rest =>
          cases place with
          | one =>
              have below := ihOne served
              simp only [Cube.literalCount_cons, fixedPlaces, reduceCtorEq, if_false]
              omega
          | zero =>
              have below := ihZero served
              simp only [Cube.literalCount_cons, fixedPlaces, reduceCtorEq, if_false]
              omega
          | dash =>
              have below := ihDash served
              simp only [Cube.literalCount_cons, fixedPlaces, if_true]
              omega

/-! ## Levels -/

/-- `IsLevel map admits count` says that the map serves every output with
exactly those of its implying cubes that have `count` open places. -/
def IsLevel (map : CubeMap) (admits : Nat → List Bool → Prop) (count : Nat) : Prop :=
  ∀ output cube, map.Serves output cube ↔
    cube.openCount = count ∧ cube.Implies (admits output)

variable {level : CubeMap} {admits : Nat → List Bool → Prop} {count : Nat}

/-- Merging a level gives the next one. -/
theorem IsLevel.merges (isLevel : level.IsLevel admits count) :
    level.merges.IsLevel admits (count + 1) := by
  intro output cube
  rw [serves_merges]
  constructor
  · rintro ⟨ones, zeros, split, onesServed, zerosServed⟩
    have onesFacts := (isLevel output ones).mp onesServed
    have zerosFacts := (isLevel output zeros).mp zerosServed
    exact ⟨split.openCount_eq.1.trans (congrArg (· + 1) onesFacts.1),
      split.implies_iff.mpr ⟨onesFacts.2, zerosFacts.2⟩⟩
  · rintro ⟨opens, implies⟩
    have someOpen : cube.openCount ≠ 0 := by omega
    obtain ⟨ones, zeros, split⟩ := Cube.exists_splits someOpen
    have halves := split.implies_iff.mp implies
    have counts := split.openCount_eq
    exact ⟨ones, zeros, split, (isLevel output ones).mpr ⟨by omega, halves.1⟩,
      (isLevel output zeros).mpr ⟨by omega, halves.2⟩⟩

/-- The cubes of a level that are merged with no other are the prime ones. -/
theorem IsLevel.serves_diff_merged (isLevel : level.IsLevel admits count) {output : Nat}
    {cube : Cube} : (level.diff level.merged).Serves output cube ↔
      cube.openCount = count ∧ cube.Prime (admits output) := by
  rw [serves_diff, isLevel output cube, serves_merged]
  constructor
  · rintro ⟨⟨opens, implies⟩, unmerged⟩
    refine ⟨opens, implies, fun opened opening openedImplies => unmerged ?_⟩
    obtain ⟨sibling, split⟩ := opening
    refine ⟨opened, sibling, split, (isLevel output cube).mpr ⟨opens, implies⟩,
      (isLevel output sibling).mpr ?_⟩
    rcases split with split | split
    · have counts := split.openCount_eq
      exact ⟨by omega, (split.implies_iff.mp openedImplies).2⟩
    · have counts := split.openCount_eq
      exact ⟨by omega, (split.implies_iff.mp openedImplies).1⟩
  · rintro ⟨opens, prime⟩
    refine ⟨⟨opens, prime.implies⟩, ?_⟩
    rintro ⟨opened, sibling, split, _, siblingServed⟩
    have siblingImplies := ((isLevel output sibling).mp siblingServed).2
    refine prime.maximal opened ⟨sibling, split⟩ ?_
    rcases split with split | split
    · exact split.implies_iff.mpr ⟨prime.implies, siblingImplies⟩
    · exact split.implies_iff.mpr ⟨siblingImplies, prime.implies⟩

/-- An implying cube contains implying cubes with any smaller number of open
places. -/
theorem IsLevel.exists_serves (isLevel : level.IsLevel admits count) {output : Nat}
    {cube : Cube} (implies : cube.Implies (admits output)) (le : count ≤ cube.openCount) :
    ∃ inner, cube.covers inner = true ∧ level.Serves output inner := by
  induction surplus : cube.openCount - count generalizing cube with
  | zero =>
      exact ⟨cube, Cube.covers_refl cube, (isLevel output cube).mpr ⟨by omega, implies⟩⟩
  | succ surplus ih =>
      have someOpen : cube.openCount ≠ 0 := by omega
      obtain ⟨ones, zeros, split⟩ := Cube.exists_splits someOpen
      have counts := split.openCount_eq
      obtain ⟨inner, contains, served⟩ :=
        ih (split.implies_iff.mp implies).1 (by omega) (by omega)
      exact ⟨inner, Cube.covers_trans split.covers_ones contains, served⟩

/-- Rounds of merging that start at a level give the prime cubes with as many
open places as the level or up to `steps` more. -/
theorem IsLevel.serves_primesWithin (isLevel : level.IsLevel admits count) (steps : Nat)
    {output : Nat} {cube : Cube} : (primesWithin steps level).Serves output cube ↔
      (count ≤ cube.openCount ∧ cube.openCount ≤ count + steps) ∧
        cube.Prime (admits output) := by
  induction steps generalizing level count with
  | zero =>
      rw [primesWithin, isLevel.serves_diff_merged]
      exact and_congr_left' (by omega)
  | succ steps ih =>
      rw [primesWithin]
      split
      · rename_i isEmpty
        cases level with
        | node _ _ _ _ => simp [CubeMap.isEmpty] at isEmpty
        | empty =>
            refine iff_of_false (serves_empty output cube) ?_
            rintro ⟨⟨le, _⟩, prime⟩
            obtain ⟨inner, _, served⟩ := isLevel.exists_serves prime.implies le
            exact serves_empty output inner served
      · rw [serves_union, isLevel.serves_diff_merged, ih isLevel.merges, ← or_and_right]
        exact and_congr_left' (by omega)

end CubeMap

/-! ## Canonical order -/

namespace Cube

/-- A cube comes strictly before another one in the canonical order. -/
def Before (first second : Cube) : Prop :=
  first.precedes second = true ∧ first ≠ second

theorem before_nil_cons (place : Trit) (rest : Cube) : Before [] (place :: rest) :=
  ⟨rfl, List.cons_ne_nil place rest |>.symm⟩

/-- Cubes with the same first place are in the order of their rests. -/
theorem Before.cons {first second : Cube} (before : first.Before second) (place : Trit) :
    Before (place :: first) (place :: second) := by
  constructor
  · simpa [precedes] using before.1
  · intro same
    exact before.2 (List.cons.inj same).2

/-- The first places decide where they differ. -/
theorem before_of_rank_lt {place other : Trit} (less : place.rank < other.rank)
    (first second : Cube) : Before (place :: first) (other :: second) := by
  constructor
  · simp [precedes, less]
  · intro same
    rw [(List.cons.inj same).1] at less
    exact Nat.lt_irrefl _ less

end Cube

namespace CubeMap

/-- The pairs of a list are in strictly ascending canonical order of their
cubes. -/
def Ascending (pairs : List (Cube × OutputSet)) : Prop :=
  pairs.Pairwise fun first second => Cube.Before first.1 second.1

/-- The pairs of a branch, with the place of the branch in front. -/
def behind (place : Trit) (pairs : List (Cube × OutputSet)) : List (Cube × OutputSet) :=
  pairs.map fun (cube, served) => (place :: cube, served)

theorem ascending_behind (place : Trit) {pairs : List (Cube × OutputSet)}
    (ascending : Ascending pairs) : Ascending (behind place pairs) :=
  List.pairwise_map.mpr (ascending.imp fun before => Cube.Before.cons before place)

/-- Pairs behind a place may follow pairs that come before all of these. -/
theorem Ascending.append {pairs others : List (Cube × OutputSet)} (ascending : Ascending pairs)
    (place : Trit) (othersAscending : Ascending others)
    (before : ∀ pair ∈ pairs, ∀ rest, Cube.Before pair.1 (place :: rest)) :
    Ascending (pairs ++ behind place others) := by
  apply List.pairwise_append.mpr
  constructor
  · exact ascending
  constructor
  · exact ascending_behind place othersAscending
  · intro pair mem other otherMem
    obtain ⟨⟨rest, served⟩, -, rfl⟩ := List.mem_map.mp otherMem
    exact before pair mem rest

theorem before_of_mem_behind {place other : Trit} (less : place.rank < other.rank)
    {pairs : List (Cube × OutputSet)} {pair : Cube × OutputSet} (mem : pair ∈ behind place pairs)
    (rest : Cube) : Cube.Before pair.1 (other :: rest) := by
  obtain ⟨⟨cube, served⟩, -, rfl⟩ := List.mem_map.mp mem
  exact Cube.before_of_rank_lt less cube rest

/-- The list of a map is in strictly ascending canonical order. -/
theorem ascending_toList (map : CubeMap) : Ascending map.toList := by
  induction map with
  | empty => exact .nil
  | node here one zero dash ihOne ihZero ihDash =>
      have root : ∀ pair ∈ (if here = 0 then [] else [([], here)] : List (Cube × OutputSet)),
          pair.1 = [] := by
        split <;> simp
      have rootAscending :
          Ascending (if here = 0 then [] else [([], here)] : List (Cube × OutputSet)) := by
        unfold Ascending
        split <;> simp
      have ones := rootAscending.append .one ihOne fun pair mem rest =>
        root pair mem ▸ Cube.before_nil_cons .one rest
      have zeros := ones.append .zero ihZero fun pair mem rest => by
        rcases List.mem_append.mp mem with inRoot | inOnes
        · exact root pair inRoot ▸ Cube.before_nil_cons .zero rest
        · exact before_of_mem_behind (by decide) inOnes rest
      apply zeros.append .dash ihDash
      intro pair mem rest
      rcases List.mem_append.mp mem with earlier | inZeros
      · rcases List.mem_append.mp earlier with inRoot | inOnes
        · exact root pair inRoot ▸ Cube.before_nil_cons .dash rest
        · exact before_of_mem_behind (by decide) inOnes rest
      · exact before_of_mem_behind (by decide) inZeros rest

end CubeMap

/-! ## The prime implicants of terms -/

/-- The rows that the terms admit for an output. -/
def Term.Admits (terms : List Term) (output : Nat) (bits : List Bool) : Prop :=
  ∃ term ∈ terms, term.cube = Cube.full bits ∧ term.outputs.getLsbD output = true

/-- Full terms make up the level without open places. -/
theorem CubeMap.isLevel_ofTerms {terms : List Term}
    (full : ∀ term ∈ terms, term.cube.openCount = 0) :
    (CubeMap.ofTerms terms).IsLevel (Term.Admits terms) 0 := by
  intro output cube
  rw [serves_ofTerms]
  constructor
  · rintro ⟨term, mem, rfl, serves⟩
    obtain ⟨bits, cube_eq⟩ := Cube.exists_eq_full (full term mem)
    refine ⟨full term mem, ?_⟩
    rw [cube_eq, Cube.implies_full]
    exact ⟨term, mem, cube_eq, serves⟩
  · rintro ⟨noneOpen, implies⟩
    obtain ⟨bits, rfl⟩ := Cube.exists_eq_full noneOpen
    exact Cube.implies_full.mp implies

/-- For full terms the rounds of merging reach every prime cube. -/
theorem CubeMap.serves_primes_ofTerms {terms : List Term}
    (full : ∀ term ∈ terms, term.cube.openCount = 0) {output : Nat} {cube : Cube} :
    (CubeMap.ofTerms terms).primes.Serves output cube ↔
      cube.Prime (Term.Admits terms output) := by
  have isLevel := isLevel_ofTerms full
  rw [primes, isLevel.serves_primesWithin]
  refine ⟨And.right, fun prime => ⟨⟨Nat.zero_le _, ?_⟩, prime⟩⟩
  -- A full cube inside fixes all places, and there are no more rounds than that.
  obtain ⟨inner, contains, served⟩ := isLevel.exists_serves prime.implies (Nat.zero_le _)
  have allFixed : inner.literalCount = inner.length := by
    have noneOpen := ((isLevel output inner).mp served).1
    have mem_ne := List.count_eq_zero.mp noneOpen
    refine List.countP_eq_length.mpr fun place mem => ?_
    exact decide_eq_true fun isOpen => mem_ne (isOpen ▸ mem)
  have bound := literalCount_le_fixedPlaces served
  have width := Cube.length_eq_of_covers contains
  have := cube.openCount_le_length
  omega

/-- A prime implicant serves the outputs for which its cube is prime. -/
theorem serves_iff_of_mem_primeImplicants {terms : List Term}
    (full : ∀ term ∈ terms, term.cube.openCount = 0) {implicant : Implicant}
    (mem : implicant ∈ primeImplicants terms) (output : Nat) :
    implicant.serves output = true ↔ implicant.cube.Prime (Term.Admits terms output) := by
  obtain ⟨⟨cube, outputs⟩, listed, rfl⟩ := List.mem_map.mp mem
  rw [← CubeMap.serves_primes_ofTerms full, CubeMap.Serves, (CubeMap.mem_toList.mp listed).2]
  rfl

/-- Every prime cube for an output is the cube of a prime implicant. -/
theorem exists_mem_primeImplicants {terms : List Term}
    (full : ∀ term ∈ terms, term.cube.openCount = 0) {output : Nat} {cube : Cube}
    (prime : cube.Prime (Term.Admits terms output)) :
    ∃ implicant ∈ primeImplicants terms,
      implicant.cube = cube ∧ implicant.serves output = true := by
  have served := (CubeMap.serves_primes_ofTerms full).mpr prime
  refine ⟨⟨cube, (CubeMap.ofTerms terms).primes.outputsOf cube⟩, ?_, rfl, served⟩
  refine List.mem_map.mpr ⟨_, CubeMap.mem_toList.mpr ⟨fun none => ?_, rfl⟩, rfl⟩
  rw [CubeMap.Serves, none] at served
  simp at served

/-- The prime implicants of full terms are listed in strictly ascending order of
their cubes.  A cube is listed with an output exactly if all its full cubes are
terms of the output and this holds no longer when one of its fixed places is
opened. -/
theorem primeImplicants_exact {terms : List Term} (full : ∀ term ∈ terms, Trit.dash ∉ term.cube) :
    (primeImplicants terms).Pairwise (fun first second => first.cube.Before second.cube) ∧
      ∀ (cube : Cube) (output : Nat),
        (∃ implicant ∈ primeImplicants terms,
          implicant.cube = cube ∧ implicant.serves output = true) ↔
        cube.Implies (Term.Admits terms output) ∧
          ∀ (position : Nat) (bound : position < cube.length), cube[position] ≠ .dash →
            ¬ Cube.Implies (cube.set position .dash) (Term.Admits terms output) := by
  have noneOpen : ∀ term ∈ terms, term.cube.openCount = 0 := fun term mem =>
    List.count_eq_zero.mpr (full term mem)
  constructor
  · exact List.pairwise_map.mpr (CubeMap.ascending_toList _)
  · intro cube output
    constructor
    · rintro ⟨implicant, mem, rfl, serves⟩
      have prime := (serves_iff_of_mem_primeImplicants noneOpen mem output).mp serves
      constructor
      · exact prime.implies
      · intro position bound fixed
        exact prime.maximal _ (Cube.opens_iff_set.mpr ⟨position, bound, fixed, rfl⟩)
    · rintro ⟨implies, maximal⟩
      apply exists_mem_primeImplicants noneOpen
      constructor
      · exact implies
      · intro opened opens
        obtain ⟨position, bound, fixed, rfl⟩ := Cube.opens_iff_set.mp opens
        exact maximal position bound fixed

/-- Terms of two widths, one of them listed twice with different outputs. -/
def mixedTerms : List Term :=
  [⟨[.one, .one], 3⟩, ⟨[.one, .zero], 1⟩, ⟨[.zero, .one], 2⟩, ⟨[.one], 1⟩, ⟨[.one, .one], 4⟩,
    ⟨[.zero], 1⟩]

theorem mixedTerms_primeImplicants :
    (∀ term ∈ mixedTerms, Trit.dash ∉ term.cube) ∧
      primeImplicants mixedTerms =
        [⟨[.one, .one], 4⟩, ⟨[.one, .dash], 1⟩, ⟨[.dash], 1⟩, ⟨[.dash, .one], 2⟩] ∧
      (primeImplicants mixedTerms).Pairwise (fun first second => first.cube.Before second.cube) ∧
      ∀ (cube : Cube) (output : Nat),
        (∃ implicant ∈ primeImplicants mixedTerms,
          implicant.cube = cube ∧ implicant.serves output = true) ↔
        cube.Implies (Term.Admits mixedTerms output) ∧
          ∀ (position : Nat) (bound : position < cube.length), cube[position] ≠ .dash →
            ¬ Cube.Implies (cube.set position .dash) (Term.Admits mixedTerms output) := by
  have full : ∀ term ∈ mixedTerms, Trit.dash ∉ term.cube := by decide
  exact ⟨full, by decide, primeImplicants_exact full⟩

end Switching
