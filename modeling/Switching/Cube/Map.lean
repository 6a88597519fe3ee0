import Switching.Cube.Basic

/-!
# Cubes with output sets

A `CubeMap` gives every cube a set of outputs, which is empty for all but
finitely many cubes.  It is a tree that branches on the places of a cube, so
the branches stand in the canonical order of cubes and the set operations work
branch by branch.
-/

namespace Switching

/-- A set of outputs, of which there are at most sixty-four. -/
abbrev OutputSet := BitVec 64

/-- A finite map from cubes to sets of outputs. -/
inductive CubeMap
  | empty
  | node (outputs : OutputSet) (one zero dash : CubeMap)
  deriving DecidableEq, Repr

namespace CubeMap

instance : EmptyCollection CubeMap :=
  ⟨.empty⟩

instance : Inhabited CubeMap :=
  ⟨∅⟩

/-- Whether a map is the empty tree. -/
def isEmpty : CubeMap → Bool
  | .empty => true
  | .node _ _ _ _ => false

/-- A tree with the given parts, or the empty tree if all parts are empty. -/
def make (outputs : OutputSet) (one zero dash : CubeMap) : CubeMap :=
  if outputs = 0 ∧ one.isEmpty ∧ zero.isEmpty ∧ dash.isEmpty then .empty
  else .node outputs one zero dash

/-- The outputs of a cube. -/
def outputsOf : CubeMap → Cube → OutputSet
  | .empty, _ => 0
  | .node outputs _ _ _, [] => outputs
  | .node _ one _ _, .one :: rest => one.outputsOf rest
  | .node _ _ zero _, .zero :: rest => zero.outputsOf rest
  | .node _ _ _ dash, .dash :: rest => dash.outputsOf rest

/-- The map that gives one cube a set of outputs. -/
def single (outputs : OutputSet) : Cube → CubeMap
  | [] => .node outputs .empty .empty .empty
  | .one :: rest => .node 0 (single outputs rest) .empty .empty
  | .zero :: rest => .node 0 .empty (single outputs rest) .empty
  | .dash :: rest => .node 0 .empty .empty (single outputs rest)

/-- The union of the output sets of two maps. -/
def union : CubeMap → CubeMap → CubeMap
  | .empty, right => right
  | left, .empty => left
  | .node a one zero dash, .node b one' zero' dash' =>
      make (a ||| b) (one.union one') (zero.union zero') (dash.union dash')

/-- The intersection of the output sets of two maps. -/
def inter : CubeMap → CubeMap → CubeMap
  | .node a one zero dash, .node b one' zero' dash' =>
      make (a &&& b) (one.inter one') (zero.inter zero') (dash.inter dash')
  | _, _ => .empty

/-- The difference of the output sets of two maps. -/
def diff : CubeMap → CubeMap → CubeMap
  | .empty, _ => .empty
  | left, .empty => left
  | .node a one zero dash, .node b one' zero' dash' =>
      make (a &&& ~~~b) (one.diff one') (zero.diff zero') (dash.diff dash')

/-- A bound on the number of fixed places of the cubes in a map. -/
def fixedPlaces : CubeMap → Nat
  | .empty => 0
  | .node _ one zero dash =>
      max (max one.fixedPlaces zero.fixedPlaces + 1) dash.fixedPlaces

/-- The cubes that have outputs, with their outputs, in canonical order. -/
def toList : CubeMap → List (Cube × OutputSet)
  | .empty => []
  | .node outputs one zero dash =>
      (if outputs = 0 then [] else [([], outputs)]) ++
        one.toList.map (fun (cube, served) => (.one :: cube, served)) ++
        zero.toList.map (fun (cube, served) => (.zero :: cube, served)) ++
        dash.toList.map (fun (cube, served) => (.dash :: cube, served))

@[simp]
theorem outputsOf_empty (cube : Cube) : (CubeMap.empty).outputsOf cube = 0 := by
  cases cube <;> rfl

@[simp]
theorem outputsOf_make (outputs : OutputSet) (one zero dash : CubeMap) (cube : Cube) :
    (make outputs one zero dash).outputsOf cube =
      (node outputs one zero dash).outputsOf cube := by
  unfold make
  split
  · rename_i allEmpty
    obtain ⟨rfl, oneEmpty, zeroEmpty, dashEmpty⟩ := allEmpty
    cases one <;> simp [isEmpty] at oneEmpty
    cases zero <;> simp [isEmpty] at zeroEmpty
    cases dash <;> simp [isEmpty] at dashEmpty
    cases cube with
    | nil => rfl
    | cons place rest => cases place <;> simp [outputsOf]
  · rfl

theorem outputsOf_single (outputs : OutputSet) (cube other : Cube) :
    (single outputs cube).outputsOf other = if other = cube then outputs else 0 := by
  induction cube generalizing other with
  | nil =>
      cases other with
      | nil => simp [single, outputsOf]
      | cons place rest => cases place <;> simp [single, outputsOf]
  | cons place rest ih =>
      cases other with
      | nil => cases place <;> simp [single, outputsOf]
      | cons otherPlace others => cases place <;> cases otherPlace <;> simp [single, outputsOf, ih]

@[simp]
theorem outputsOf_union (left right : CubeMap) (cube : Cube) :
    (left.union right).outputsOf cube = left.outputsOf cube ||| right.outputsOf cube := by
  fun_induction union left right generalizing cube with
  | case1 right => simp
  | case2 left => simp
  | case3 a one zero dash b one' zero' dash' ihOne ihZero ihDash =>
      rw [outputsOf_make]
      cases cube with
      | nil => rfl
      | cons place rest => cases place <;> simp [outputsOf, ihOne, ihZero, ihDash]

@[simp]
theorem outputsOf_inter (left right : CubeMap) (cube : Cube) :
    (left.inter right).outputsOf cube = left.outputsOf cube &&& right.outputsOf cube := by
  fun_induction inter left right generalizing cube with
  | case1 a one zero dash b one' zero' dash' ihOne ihZero ihDash =>
      rw [outputsOf_make]
      cases cube with
      | nil => rfl
      | cons place rest => cases place <;> simp [outputsOf, ihOne, ihZero, ihDash]
  | case2 left right someEmpty =>
      cases left with
      | empty => simp
      | node a one zero dash =>
          cases right with
          | empty => simp
          | node b one' zero' dash' => exact (someEmpty _ _ _ _ _ _ _ _ rfl rfl).elim

@[simp]
theorem outputsOf_diff (left right : CubeMap) (cube : Cube) :
    (left.diff right).outputsOf cube = left.outputsOf cube &&& ~~~right.outputsOf cube := by
  fun_induction diff left right generalizing cube with
  | case1 right => simp
  | case2 left =>
      have everyOutput : ~~~(0 : OutputSet) = BitVec.allOnes 64 := by decide
      rw [outputsOf_empty, everyOutput, BitVec.and_allOnes]
  | case3 a one zero dash b one' zero' dash' ihOne ihZero ihDash =>
      rw [outputsOf_make]
      cases cube with
      | nil => rfl
      | cons place rest => cases place <;> simp [outputsOf, ihOne, ihZero, ihDash]

/-- The list of a map shows exactly the cubes that have outputs. -/
theorem mem_toList {map : CubeMap} {cube : Cube} {outputs : OutputSet} :
    (cube, outputs) ∈ map.toList ↔ outputs ≠ 0 ∧ map.outputsOf cube = outputs := by
  induction map generalizing cube with
  | empty =>
      simp only [toList, outputsOf_empty, List.not_mem_nil, false_iff]
      exact fun both => both.1 both.2.symm
  | node here one zero dash ihOne ihZero ihDash =>
      cases cube with
      | nil =>
          simp only [toList, outputsOf, List.mem_append, List.mem_map, Prod.mk.injEq,
            reduceCtorEq, false_and, and_false, exists_false, or_false]
          by_cases noOutputs : here = 0
          · simp only [noOutputs, if_true, List.not_mem_nil, false_iff]
            exact fun both => both.1 both.2.symm
          · simp only [noOutputs, if_false, List.mem_singleton, Prod.mk.injEq, true_and]
            exact ⟨fun same => ⟨same ▸ noOutputs, same.symm⟩, fun both => both.2.symm⟩
      | cons place rest => cases place <;> simp [toList, outputsOf, ihOne, ihZero, ihDash]

end CubeMap

end Switching
