import Switching.Cube.Map

/-!
# Prime implicants

Cubes are merged level by level: two cubes that differ in one fixed place give
the cube that is open there, for the outputs that they have in common.  A cube
is prime for those of its outputs for which it was merged with no other cube.

On a `CubeMap` a level is merged as a whole.  Two cubes that differ in their
first place only are the same cube below the branches for one and zero, so
these merges are the intersection of the two branches; all other merges happen
below the first place.
-/

namespace Switching

/-- A cube with the outputs for which all its rows are on or free. -/
structure Term where
  cube : Cube
  outputs : OutputSet
  deriving DecidableEq, Repr

/-- A prime implicant with the outputs for which it is prime. -/
structure Implicant where
  cube : Cube
  outputs : OutputSet
  deriving DecidableEq, Repr

namespace Implicant

/-- Whether an implicant is prime for an output. -/
def serves (implicant : Implicant) (output : Nat) : Bool :=
  implicant.outputs.getLsbD output

/-- The number of literals in the product of an implicant. -/
def literalCount (implicant : Implicant) : Nat :=
  implicant.cube.literalCount

end Implicant

namespace CubeMap

/-- The cubes that the merges within a level give. -/
def merges : CubeMap → CubeMap
  | .empty => .empty
  | .node _ one zero dash =>
      make 0 one.merges zero.merges (dash.merges.union (one.inter zero))

/-- The cubes of a level that take part in a merge, with the outputs for which
they do. -/
def merged : CubeMap → CubeMap
  | .empty => .empty
  | .node _ one zero dash =>
      let shared := one.inter zero
      make 0 (one.merged.union shared) (zero.merged.union shared) dash.merged

/-- The primes among the cubes that come from a level by at most `steps`
rounds of merging. -/
def primesWithin : (steps : Nat) → CubeMap → CubeMap
  | 0, level => level.diff level.merged
  | steps + 1, level =>
      if level.isEmpty then .empty
      else (level.diff level.merged).union (primesWithin steps level.merges)

/-- The primes of a level.  Every round of merging opens a fixed place, so
there are no more rounds than fixed places. -/
def primes (level : CubeMap) : CubeMap :=
  primesWithin level.fixedPlaces level

/-- The map that gives every cube the outputs of its terms. -/
def ofTerms (terms : List Term) : CubeMap :=
  terms.foldl (fun level term =>
    if term.outputs = 0 then level else level.union (single term.outputs term.cube)) ∅

end CubeMap

/-- The prime implicants of a list of terms, in canonical order. -/
def primeImplicants (terms : List Term) : List Implicant :=
  (CubeMap.ofTerms terms).primes.toList.map fun (cube, outputs) => ⟨cube, outputs⟩

end Switching
