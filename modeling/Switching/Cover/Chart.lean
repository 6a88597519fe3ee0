import Switching.Cover.IndexSet
import Switching.Cover.Petrick
import Switching.Cover.Primes

/-!
# Prime implicant charts

A chart has a row for every implicant and a column for every target, that is,
for every row of the table in which an output is on.  It says which implicants
cover which targets.  Reduction repeats three steps until none of them changes
anything: it selects the implicants that alone cover some target, it drops
implicants that another one makes superfluous, and it drops targets that are
covered along with another one.  The targets that are left are solved as
clauses.
-/

namespace Switching

/-- A full cube for which an output is on. -/
structure Target where
  cube : Cube
  output : Nat
  deriving DecidableEq, Repr

/-- Whether an implicant covers a target. -/
def Implicant.coversTarget (implicant : Implicant) (target : Target) : Bool :=
  implicant.serves target.output && implicant.cube.covers target.cube

/-- A prime implicant chart: the numbers of literals of the implicants, the
targets that each implicant covers and the implicants that cover each
target. -/
structure Chart where
  literals : Array Nat
  targets : Array IndexSet
  implicants : Array IndexSet
  deriving Repr

namespace Chart

/-- The positions of the members of a list that pass a test. -/
def positions {α : Type} (test : α → Bool) (members : List α) : IndexSet :=
  .ofList ((members.zipIdx.filter fun (member, _) => test member).map Prod.snd)

/-- The chart of a list of implicants and a list of targets. -/
def ofLists (implicants : List Implicant) (targets : List Target) : Chart where
  literals := (implicants.map Implicant.literalCount).toArray
  targets := (implicants.map fun implicant =>
    positions implicant.coversTarget targets).toArray
  implicants := (targets.map fun target =>
    positions (·.coversTarget target) implicants).toArray

variable (chart : Chart)

/-- The number of literals of an implicant. -/
def literalsOf (implicant : Nat) : Nat :=
  chart.literals.getD implicant 0

/-- The targets that an implicant covers. -/
def targetsOf (implicant : Nat) : IndexSet :=
  chart.targets.getD implicant ∅

/-- The implicants that cover a target. -/
def implicantsOf (target : Nat) : IndexSet :=
  chart.implicants.getD target ∅

/-- What is left of a chart: the implicants and targets still in play, both in
ascending order, and the implicants selected, in the order of their
selection. -/
structure Remainder where
  implicants : List Nat
  targets : List Nat
  selected : List Nat
  deriving DecidableEq, Repr

namespace Remainder

/-- The number of implicants and targets in play. -/
def size (remainder : Remainder) : Nat :=
  remainder.implicants.length + remainder.targets.length

end Remainder

/-- The whole chart. -/
def whole : Remainder where
  implicants := List.range chart.literals.size
  targets := List.range chart.implicants.size
  selected := []

/-- The implicants in play that alone cover some target in play. -/
def essentials (remainder : Remainder) : IndexSet :=
  let inPlay := IndexSet.ofList remainder.implicants
  .ofList (remainder.targets.filterMap fun target =>
    ((chart.implicantsOf target).inter inPlay).only?)

/-- Select the essential implicants, and take them and the targets that they
cover out of play. -/
def selectEssentials (remainder : Remainder) : Remainder :=
  let essentials := chart.essentials remainder
  { implicants := remainder.implicants.filter fun implicant => !essentials.contains implicant
    targets := remainder.targets.filter fun target =>
      !(chart.implicantsOf target).intersects essentials
    selected := remainder.selected ++ essentials.toList }

/-- Go through a list and take out every member that is dominated by one still
in the list.  The members before the current one, latest first, have been
kept. -/
def sweep {α : Type} (dominates : α → α → Bool) (kept : List α) : List α → List α
  | [] => kept.reverse
  | member :: rest =>
      if kept.any (dominates · member) || rest.any (dominates · member) then
        sweep dominates kept rest
      else sweep dominates (member :: kept) rest

/-- An implicant or target in play, with the set of its partners in play. -/
structure Line where
  index : Nat
  partners : IndexSet
  deriving DecidableEq, Repr

/-- The implicants in play with the targets in play that they cover. -/
def implicantLines (remainder : Remainder) : List Line :=
  let inPlay := IndexSet.ofList remainder.targets
  remainder.implicants.map fun implicant =>
    ⟨implicant, (chart.targetsOf implicant).inter inPlay⟩

/-- The targets in play with the implicants in play that cover them. -/
def targetLines (remainder : Remainder) : List Line :=
  let inPlay := IndexSet.ofList remainder.implicants
  remainder.targets.map fun target => ⟨target, (chart.implicantsOf target).inter inPlay⟩

/-- An implicant makes another one superfluous if it covers at least the same
targets with no more literals; of two that agree in both the first one
stays. -/
def implicantDominates (a b : Line) : Bool :=
  chart.literalsOf a.index ≤ chart.literalsOf b.index && b.partners.subset a.partners &&
    (a.partners ≠ b.partners || chart.literalsOf a.index ≠ chart.literalsOf b.index ||
      a.index < b.index)

/-- A target is covered along with another one if every implicant that covers
the other one covers it too; of two that have the same implicants the first
one stays. -/
def targetDominates (a b : Line) : Bool :=
  a.partners.subset b.partners && (a.partners ≠ b.partners || a.index < b.index)

/-- Drop the implicants that cover nothing and those that another one makes
superfluous. -/
def dropImplicants (remainder : Remainder) : Remainder :=
  let useful := (chart.implicantLines remainder).filter (!·.partners.isEmpty)
  { remainder with
    implicants := (sweep chart.implicantDominates [] useful).map Line.index }

/-- Drop the targets that are covered along with another one. -/
def dropTargets (remainder : Remainder) : Remainder :=
  { remainder with
    targets := (sweep targetDominates [] (chart.targetLines remainder)).map Line.index }

/-- One round of the three steps. -/
def reduceOnce (remainder : Remainder) : Remainder :=
  chart.dropTargets (chart.dropImplicants (chart.selectEssentials remainder))

/-- Repeat the three steps until they take nothing out of play. -/
def reduceFrom (remainder : Remainder) : Remainder :=
  let next := chart.reduceOnce remainder
  if next.size < remainder.size then reduceFrom next else next
termination_by remainder.size

/-- Reduce a chart. -/
def reduce : Remainder :=
  chart.reduceFrom chart.whole

/-- A clause for every target in play: the implicants in play that cover it, in
ascending order. -/
def clauses (remainder : Remainder) : List (List Nat) :=
  (chart.targetLines remainder).map fun line => line.partners.toList

/-- Choose implicants that cover every target: the ones selected by reduction
together with a choice that meets the clauses left. -/
def solve (limit : Nat) : Petrick.Solution :=
  let remainder := chart.reduce
  let rest := Petrick.solve chart.literalsOf limit (chart.clauses remainder)
  { chosen := (IndexSet.ofList (remainder.selected ++ rest.chosen)).toList
    exact := rest.exact }

end Chart

end Switching
