/-!
# Cheapest sets that meet all clauses

A clause lists the implicants that cover one target.  The product of all
clauses, read as sums, is multiplied out, and a product that contains another
one is absorbed by it; what remains are the smallest sets that meet every
clause.  Where the number of products passes a limit the expansion is given up
and a set is assembled greedily.
-/

namespace Switching.Petrick

/-- A clause: the indices of which one has to be chosen. -/
abbrev Clause := List Nat

/-- A set of indices, listed in strictly ascending order. -/
abbrev Product := List Nat

/-- Whether a set of indices meets a clause. -/
def meets (product : Product) (clause : Clause) : Bool :=
  clause.any product.contains

/-- Add an index to an ascending list. -/
def insertIndex (index : Nat) : Product → Product
  | [] => [index]
  | first :: rest =>
      if index < first then index :: first :: rest
      else if index = first then first :: rest
      else first :: insertIndex index rest

@[simp]
theorem mem_insertIndex {index other : Nat} {product : Product} :
    other ∈ insertIndex index product ↔ other = index ∨ other ∈ product := by
  induction product with
  | nil => simp [insertIndex]
  | cons first rest ih =>
      unfold insertIndex
      split
      · exact List.mem_cons
      · split
        · rename_i same
          simp [same]
        · simp only [List.mem_cons, ih]
          exact or_left_comm

/-- Multiply a product with a clause.  A product that meets the clause is left
as it is. -/
def extend (clause : Clause) (product : Product) : List Product :=
  if meets product clause then [product] else clause.map (insertIndex · product)

/-- Lexicographic order of lists. -/
def lexLe : Product → Product → Bool
  | [], _ => true
  | _ :: _, [] => false
  | a :: rest, b :: others => a < b || (a == b && lexLe rest others)

/-- The order of products: by size, then lexicographically. -/
def precedes (a b : Product) : Bool :=
  a.length < b.length || (a.length == b.length && lexLe a b)

/-- Go through products in order and keep those that contain none of the
earlier ones.  The products kept so far are listed latest first. -/
def absorbInto (kept : List Product) : List Product → List Product
  | [] => kept.reverse
  | product :: rest =>
      if kept.any (·.isSublist product) then absorbInto kept rest
      else absorbInto (product :: kept) rest

/-- Put products in order and absorb those that contain another one. -/
def absorb (products : List Product) : List Product :=
  absorbInto [] (products.mergeSort precedes)

/-- Multiply the clauses out, unless more than `limit` products arise after
some clause. -/
def expand (limit : Nat) (clauses : List Clause) : Option (List Product) :=
  clauses.foldlM (fun products clause =>
    let next := absorb (products.flatMap (extend clause))
    if next.length ≤ limit then some next else none) [[]]

variable (literals : Nat → Nat)

/-- The number of literals of a product. -/
def cost (product : Product) : Nat :=
  product.foldr (fun index total => literals index + total) 0

/-- Whether a product has fewer indices than another one, or as many and fewer
literals. -/
def cheaper (a b : Product) : Bool :=
  a.length < b.length || (a.length == b.length && cost literals a < cost literals b)

/-- The first of the cheapest products. -/
def cheapest : List Product → Product
  | [] => []
  | first :: rest =>
      rest.foldl (fun best product => if cheaper literals product best then product else best) first

/-- The number of clauses that an index meets. -/
def gain (clauses : List Clause) (index : Nat) : Nat :=
  clauses.countP (·.contains index)

/-- Whether an index meets more clauses than another one, or as many with fewer
literals. -/
def better (clauses : List Clause) (a b : Nat) : Bool :=
  gain clauses b < gain clauses a ||
    (gain clauses a == gain clauses b && literals a < literals b)

/-- The best index of the clauses; of equally good ones the least. -/
def best? (clauses : List Clause) : Option Nat :=
  match clauses.flatten.mergeSort.eraseReps with
  | [] => none
  | first :: rest =>
      some (rest.foldl (fun best index =>
        if better literals clauses index best then index else best) first)

/-- The clauses that an index does not meet. -/
def unmetBy (clauses : List Clause) (index : Nat) : List Clause :=
  clauses.filter (!·.contains index)

/-- Choose the best index again and again, until every clause is met or none
can be met. -/
def greedyFrom (clauses : List Clause) : List Nat :=
  match best? literals clauses with
  | none => []
  | some index =>
      if (unmetBy clauses index).length < clauses.length then
        index :: greedyFrom (unmetBy clauses index)
      else []
termination_by clauses.length

/-- A set that meets the clauses, found greedily. -/
def greedy (clauses : List Clause) : Product :=
  (greedyFrom literals clauses).mergeSort

/-- A chosen set, and whether it comes from the full expansion. -/
structure Solution where
  chosen : Product
  exact : Bool
  deriving DecidableEq, Repr

/-- Choose a set that meets every clause: the cheapest one if the expansion
stays within the limit, otherwise one found greedily. -/
def solve (limit : Nat) (clauses : List Clause) : Solution :=
  if clauses.isEmpty then ⟨[], true⟩
  else
    match expand limit clauses with
    | some products => ⟨cheapest literals products, true⟩
    | none => ⟨greedy literals clauses, false⟩

end Switching.Petrick
