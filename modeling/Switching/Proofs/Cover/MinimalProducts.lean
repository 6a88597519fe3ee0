import Mathlib.Data.List.Permutation
import Mathlib.Data.List.Sort
import Mathlib.Data.Prod.Lex
import Mathlib.Order.Minimal
import Switching.Proofs.Cover.Expansion

/-!
# Minimal sets that meet all clauses

Multiplying clauses out lists exactly the minimal sets that meet all clauses, each
once, by size and then lexicographically: absorption leaves no product that contains
another one, and below every set that meets the clauses there is a product.  So the
first of the cheapest products comes before all sets that meet the clauses, compared
by size, literals and lexicographic order.  A set assembled greedily has no index
twice.
-/

namespace Switching.Petrick

variable {clauses : List Clause} {products kept : List Product} {product other : Product}
  {literals : Nat → Nat}

/-! ## The order of products -/

/-- The size of a product, and the product itself. -/
def sizeKey (product : Product) : ℕ ×ₗ List ℕ :=
  toLex (product.length, product)

theorem sizeKey_injective : Function.Injective sizeKey :=
  fun _ _ same => congrArg Prod.snd (toLex.injective same)

theorem sizeKey_lt_iff : sizeKey product < sizeKey other ↔
    product.length < other.length ∨ product.length = other.length ∧ product < other :=
  Prod.Lex.toLex_lt_toLex

theorem lexLe_iff : lexLe product other = true ↔ product ≤ other := by
  rw [← not_lt]
  induction product generalizing other with
  | nil => simp [lexLe]
  | cons first rest ih =>
      cases other with
      | nil => simp [lexLe]
      | cons second others =>
          rw [lexLe, Bool.or_eq_true, Bool.and_eq_true, ih, decide_eq_true_eq, beq_iff_eq,
            List.cons_lt_cons_iff]
          rcases lt_trichotomy first second with less | rfl | more
          · simp [less, less.not_gt, less.ne']
          · simp
          · simp [more, more.not_gt, more.ne']

theorem precedes_iff : precedes product other = true ↔ sizeKey product ≤ sizeKey other := by
  simp [precedes, sizeKey, Prod.Lex.toLex_le_toLex, lexLe_iff]

theorem pairwise_mergeSort_precedes (products : List Product) :
    (products.mergeSort precedes).Pairwise fun first second => sizeKey first ≤ sizeKey second := by
  refine (List.pairwise_mergeSort ?_ ?_ products).imp precedes_iff.mp
  · intro first second third before after
    exact precedes_iff.mpr ((precedes_iff.mp before).trans (precedes_iff.mp after))
  · intro first second
    rw [Bool.or_eq_true, precedes_iff, precedes_iff]
    exact le_total _ _

/-! ## Absorption -/

/-- Absorption keeps the order. -/
theorem absorbInto_sublist (kept products : List Product) :
    (absorbInto kept products).Sublist (kept.reverse ++ products) := by
  induction products generalizing kept with
  | nil => simp [absorbInto]
  | cons first rest ih =>
      unfold absorbInto
      split
      · exact (ih kept).trans ((List.sublist_cons_self first rest).append_left _)
      · simpa using ih (first :: kept)

/-- No product that is kept contains an earlier one. -/
theorem pairwise_absorbInto
    (apart : kept.reverse.Pairwise fun earlier later => ¬ earlier.Sublist later) :
    (absorbInto kept products).Pairwise fun earlier later => ¬ earlier.Sublist later := by
  induction products generalizing kept with
  | nil => exact apart
  | cons first rest ih =>
      unfold absorbInto
      split
      · exact ih apart
      · rename_i fresh
        refine ih ?_
        rw [List.reverse_cons, List.pairwise_append]
        refine ⟨apart, List.pairwise_singleton _ _, fun earlier mem later laterMem sublist => ?_⟩
        obtain rfl := List.mem_singleton.mp laterMem
        exact fresh (List.any_eq_true.mpr
          ⟨earlier, List.mem_reverse.mp mem, List.isSublist_iff_sublist.mpr sublist⟩)

/-- What absorption leaves is in order, and no product contains an earlier one. -/
theorem pairwise_absorb (products : List Product) :
    (absorb products).Pairwise fun earlier later =>
      sizeKey earlier < sizeKey later ∧ ¬ earlier.Sublist later := by
  have apart : (absorb products).Pairwise fun earlier later => ¬ earlier.Sublist later :=
    pairwise_absorbInto .nil
  have inOrder : (absorb products).Pairwise fun earlier later => sizeKey earlier ≤ sizeKey later :=
    (pairwise_mergeSort_precedes products).sublist (absorbInto_sublist [] _)
  refine (inOrder.and apart).imp fun ⟨le, notSublist⟩ => ⟨lt_of_le_of_ne le ?_, notSublist⟩
  exact fun same => notSublist (sizeKey_injective same ▸ List.Sublist.refl _)

/-- The products of some clauses are in order, and none contains an earlier one. -/
theorem pairwise_multiplyOut (clauses : List Clause) :
    (multiplyOut clauses).Pairwise fun earlier later =>
      sizeKey earlier < sizeKey later ∧ ¬ earlier.Sublist later := by
  induction clauses using List.reverseRecOn with
  | nil => exact List.pairwise_singleton _ _
  | append_singleton clauses clause _ =>
      exact multiplyOut_concat clauses clause ▸ pairwise_absorb _

/-- No product contains another one. -/
theorem eq_of_sublist_of_mem_multiplyOut (mem : product ∈ multiplyOut clauses)
    (otherMem : other ∈ multiplyOut clauses) (sublist : product.Sublist other) :
    product = other := by
  have ordered := pairwise_multiplyOut clauses
  have forward : (multiplyOut clauses).Pairwise fun first second =>
      first.Sublist second → first = second :=
    ordered.imp fun both sublist => absurd sublist both.2
  have backward : (multiplyOut clauses).Pairwise fun first second =>
      second.Sublist first → second = first := by
    refine ordered.imp fun both sublist => sublist.eq_of_length (sublist.length_le.antisymm ?_)
    rcases sizeKey_lt_iff.mp both.1 with shorter | ⟨same, -⟩
    · exact shorter.le
    · exact same.le
  exact forward.forall_of_forall_of_flip (fun _ _ _ => rfl) backward mem otherMem sublist

/-! ## Minimal sets -/

/-- A list has exactly the minimal sets that meet some clauses, each once, as ascending
lists ordered by size and then lexicographically. -/
structure ListsMinimal (clauses : List Clause) (products : List Product) : Prop where
  ordered : products.Pairwise fun first second =>
    first.length < second.length ∨ first.length = second.length ∧ first < second
  mem_iff : ∀ product, product ∈ products ↔
    product.Pairwise (· < ·) ∧ Minimal (MeetsAll clauses) product.toFinset

/-- Ascending lists are contained in each other as their sets of members are. -/
theorem sublist_of_toFinset_subset (ascending : product.Pairwise (· < ·))
    (otherAscending : other.Pairwise (· < ·)) (subset : product.toFinset ⊆ other.toFinset) :
    product.Sublist other := by
  have nodup : product.Nodup := ascending.imp Nat.ne_of_lt
  have members : product ⊆ other := fun index mem =>
    List.mem_toFinset.mp (subset (List.mem_toFinset.mpr mem))
  exact List.sublist_of_subperm_of_pairwise (nodup.subperm members)
    (ascending.imp Nat.le_of_lt) (otherAscending.imp Nat.le_of_lt)

/-- Multiplying clauses out lists the minimal sets that meet them. -/
theorem listsMinimal_multiplyOut (clauses : List Clause) :
    ListsMinimal clauses (multiplyOut clauses) := by
  have expansion := expansion_multiplyOut clauses
  refine ⟨(pairwise_multiplyOut clauses).imp fun both => sizeKey_lt_iff.mp both.1, fun product => ?_⟩
  constructor
  · intro mem
    have ascending := expansion.ascending product mem
    refine ⟨ascending, expansion.meeting product mem, fun smaller meetsAll subset => ?_⟩
    obtain ⟨least, leastMem, leastSubset⟩ := expansion.below smaller meetsAll
    have sublist := sublist_of_toFinset_subset (expansion.ascending least leastMem) ascending
      (leastSubset.trans subset)
    exact eq_of_sublist_of_mem_multiplyOut leastMem mem sublist ▸ leastSubset
  · rintro ⟨ascending, minimal⟩
    obtain ⟨least, leastMem, leastSubset⟩ := expansion.below _ minimal.prop
    have leastAscending := expansion.ascending least leastMem
    have subset := minimal.le_of_le (expansion.meeting least leastMem) leastSubset
    have below := sublist_of_toFinset_subset leastAscending ascending leastSubset
    have above := sublist_of_toFinset_subset ascending leastAscending subset
    exact below.antisymm above ▸ leastMem

/-- The list of the minimal sets is unique. -/
theorem ListsMinimal.eq_multiplyOut (lists : ListsMinimal clauses products) :
    products = multiplyOut clauses := by
  have others := listsMinimal_multiplyOut clauses
  have sorted {list : List Product} (lists : ListsMinimal clauses list) :
      list.Pairwise fun first second => sizeKey first < sizeKey second :=
    lists.ordered.imp sizeKey_lt_iff.mpr
  have nodup {list : List Product} (lists : ListsMinimal clauses list) : list.Nodup :=
    (sorted lists).imp fun less same => less.ne (congrArg sizeKey same)
  have perm : products.Perm (multiplyOut clauses) :=
    (List.perm_ext_iff_of_nodup (nodup lists) (nodup others)).mpr fun product =>
      (lists.mem_iff product).trans (others.mem_iff product).symm
  exact perm.eq_of_pairwise (fun first second _ _ less more => absurd less more.asymm)
    (sorted lists) (sorted others)

/-! ## The first of the cheapest products -/

variable (literals)

/-- What is compared in a choice between sets: the size, then the literals in total,
then the members in lexicographic order. -/
def choiceKey (product : Product) : ℕ ×ₗ ℕ ×ₗ List ℕ :=
  toLex (product.length, toLex ((product.map literals).sum, product))

variable {literals}

theorem cost_eq_sum (product : Product) : cost literals product = (product.map literals).sum := by
  induction product with
  | nil => rfl
  | cons first rest ih => rw [List.map_cons, List.sum_cons, ← ih, cost, List.foldr_cons, ← cost]

theorem choiceKey_lt_iff : choiceKey literals product < choiceKey literals other ↔
    product.length < other.length ∨ product.length = other.length ∧
      (cost literals product < cost literals other ∨
        cost literals product = cost literals other ∧ product < other) := by
  simp only [choiceKey, Prod.Lex.toLex_lt_toLex, cost_eq_sum]

theorem choiceKey_lt_of_cheaper (less : cheaper literals product other = true) :
    choiceKey literals product < choiceKey literals other := by
  rw [choiceKey_lt_iff]
  simp only [cheaper, Bool.or_eq_true, Bool.and_eq_true, decide_eq_true_eq, beq_iff_eq] at less
  exact less.imp_right fun both => both.imp_right .inl

/-- A product that is no cheaper than an earlier one comes behind it. -/
theorem choiceKey_lt_of_not_cheaper (before : sizeKey product < sizeKey other)
    (notLess : ¬ cheaper literals other product = true) :
    choiceKey literals product < choiceKey literals other := by
  simp only [cheaper, Bool.or_eq_true, Bool.and_eq_true, decide_eq_true_eq, beq_iff_eq] at notLess
  rw [choiceKey_lt_iff]
  rcases sizeKey_lt_iff.mp before with shorter | ⟨same, less⟩
  · exact .inl shorter
  · have cost_le : cost literals product ≤ cost literals other := by omega
    exact .inr ⟨same, cost_le.lt_or_eq.imp_right fun equal => ⟨equal, less⟩⟩

private theorem foldl_cheaper_le {rest : List Product} (first : Product)
    (ordered : (first :: rest).Pairwise fun earlier later => sizeKey earlier < sizeKey later) :
    ∀ product ∈ first :: rest,
      choiceKey literals (rest.foldl
        (fun best product => if cheaper literals product best then product else best) first) ≤
        choiceKey literals product := by
  induction rest generalizing first with
  | nil => simp
  | cons second rest ih =>
      obtain ⟨before, restOrdered⟩ := List.pairwise_cons.mp ordered
      rw [List.foldl_cons]
      split
      · rename_i less
        have least := ih second restOrdered
        intro product mem
        rcases List.mem_cons.mp mem with rfl | later
        · exact (least second List.mem_cons_self).trans (choiceKey_lt_of_cheaper less).le
        · exact least product later
      · rename_i notLess
        have least := ih first (ordered.sublist (.cons_cons first (List.sublist_cons_self _ _)))
        have second_le := choiceKey_lt_of_not_cheaper (before second List.mem_cons_self) notLess
        intro product mem
        rcases List.mem_cons.mp mem with rfl | later
        · exact least product List.mem_cons_self
        · rcases List.mem_cons.mp later with rfl | later
          · exact (least first List.mem_cons_self).trans second_le.le
          · exact least product (List.mem_cons_of_mem _ later)

/-- Of products in order, the one that is chosen comes first by size, literals and
lexicographic order. -/
theorem choiceKey_cheapest_le
    (ordered : products.Pairwise fun earlier later => sizeKey earlier < sizeKey later) :
    ∀ product ∈ products,
      choiceKey literals (cheapest literals products) ≤ choiceKey literals product := by
  cases products with
  | nil => simp
  | cons first rest => exact foldl_cheaper_le first ordered

/-- A part of a product comes before the product. -/
theorem choiceKey_le_of_sublist (sublist : product.Sublist other) :
    choiceKey literals product ≤ choiceKey literals other := by
  rcases sublist.length_le.lt_or_eq with shorter | same
  · exact (choiceKey_lt_iff.mpr (.inl shorter)).le
  · exact (congrArg (choiceKey literals) (sublist.eq_of_length same)).le

/-! ## The greedy choice -/

/-- The greedy method chooses no index twice. -/
theorem nodup_greedyFrom (literals : Nat → Nat) (clauses : List Clause) :
    (greedyFrom literals clauses).Nodup := by
  fun_induction greedyFrom literals clauses with
  | case1 => exact List.nodup_nil
  | case2 clauses best best_eq progress ih =>
      refine List.nodup_cons.mpr ⟨fun mem => ?_, ih⟩
      obtain ⟨clause, unmet, inClause⟩ := mem_clause_of_mem_greedyFrom mem
      simp [unmetBy, inClause] at unmet
  | case3 => exact List.nodup_nil

theorem pairwise_greedy (literals : Nat → Nat) (clauses : List Clause) :
    (greedy literals clauses).Pairwise (· < ·) := by
  have nodup : (greedy literals clauses).Nodup :=
    (List.mergeSort_perm _ _).nodup_iff.mpr (nodup_greedyFrom literals clauses)
  have sorted : (greedy literals clauses).Pairwise (· ≤ ·) := List.pairwise_mergeSort' _ _
  exact (sorted.and nodup).imp fun both => lt_of_le_of_ne both.1 both.2

/-! ## The choice -/

theorem chosen_of_expand {limit : Nat} (expanded : expand limit clauses = some products) :
    (solve literals limit clauses).chosen = cheapest literals products := by
  unfold solve
  split
  · rename_i noClauses
    obtain rfl := List.isEmpty_iff.mp noClauses
    cases expanded
    rfl
  · rw [expanded]

theorem solve_of_expand_eq_none {limit : Nat} (gaveUp : expand limit clauses = none) :
    solve literals limit clauses = ⟨greedy literals clauses, false⟩ := by
  unfold solve
  split
  · rename_i noClauses
    obtain rfl := List.isEmpty_iff.mp noClauses
    cases gaveUp
  · rw [gaveUp]

/-- The choice from the products comes before all sets that meet the clauses. -/
theorem choiceKey_chosen_le {limit : Nat} (expanded : expand limit clauses = some products)
    (ascending : product.Pairwise (· < ·)) (meetsAll : MeetsAll clauses product.toFinset) :
    choiceKey literals (solve literals limit clauses).chosen ≤ choiceKey literals product := by
  have expansion := expansion_of_expand expanded
  have ordered : products.Pairwise fun earlier later => sizeKey earlier < sizeKey later :=
    (expand_eq_some_iff.mp expanded).1 ▸ (pairwise_multiplyOut clauses).imp And.left
  obtain ⟨least, leastMem, subset⟩ := expansion.below _ meetsAll
  have sublist := sublist_of_toFinset_subset (expansion.ascending least leastMem) ascending subset
  rw [chosen_of_expand expanded]
  exact (choiceKey_cheapest_le ordered least leastMem).trans (choiceKey_le_of_sublist sublist)

/-- The choice is ascending, whatever the limit. -/
theorem pairwise_chosen (literals : Nat → Nat) (limit : Nat) (clauses : List Clause) :
    (solve literals limit clauses).chosen.Pairwise (· < ·) := by
  cases expanded : expand limit clauses with
  | none =>
      rw [solve_of_expand_eq_none expanded]
      exact pairwise_greedy literals clauses
  | some products =>
      rw [chosen_of_expand expanded]
      cases products with
      | nil => exact .nil
      | cons first rest =>
          have mem := (cheapest_mem_and_le literals (List.cons_ne_nil first rest)).1
          exact (expansion_of_expand expanded).ascending _ mem

/-- The clauses are not multiplied out exactly if more minimal sets than the limit meet
the first few of them. -/
theorem expand_eq_none_iff {limit : Nat} :
    expand limit clauses = none ↔ ∃ front products, front ≠ [] ∧ front <+: clauses ∧
      ListsMinimal front products ∧ limit < products.length := by
  constructor
  · intro gaveUp
    by_contra small
    have within : ∀ front, front ≠ [] → front <+: clauses → (multiplyOut front).length ≤ limit :=
      fun front nonempty isPrefix => Nat.le_of_not_lt fun more =>
        small ⟨front, _, nonempty, isPrefix, listsMinimal_multiplyOut front, more⟩
    rw [expand_eq_some_iff.mpr ⟨rfl, within⟩] at gaveUp
    cases gaveUp
  · rintro ⟨front, products, nonempty, isPrefix, lists, more⟩
    rw [Option.eq_none_iff_forall_ne_some]
    intro found expanded
    have small := (expand_eq_some_iff.mp expanded).2 front nonempty isPrefix
    rw [← lists.eq_multiplyOut] at small
    omega

/-- Multiplying out clauses lists exactly the minimal sets that meet them, unless there
are too many on the way, and the set that is chosen then comes before all others that
meet the clauses.  Otherwise the set is assembled greedily; it is ascending and meets
the clauses as well. -/
theorem expand_exact (literals : Nat → Nat) (limit : Nat)
    (nonempty : ∀ clause ∈ clauses, clause ≠ []) :
    (∀ products, expand limit clauses = some products → ListsMinimal clauses products ∧
      (solve literals limit clauses).chosen.Pairwise (· < ·) ∧
      MeetsAll clauses (solve literals limit clauses).chosen.toFinset ∧
      ∀ product : Product, product.Pairwise (· < ·) → MeetsAll clauses product.toFinset →
        choiceKey literals (solve literals limit clauses).chosen ≤ choiceKey literals product) ∧
    (expand limit clauses = none → solve literals limit clauses = ⟨greedy literals clauses, false⟩ ∧
      (greedy literals clauses).Pairwise (· < ·) ∧
      MeetsAll clauses (greedy literals clauses).toFinset) ∧
    (expand limit clauses = none ↔ ∃ front products, front ≠ [] ∧ front <+: clauses ∧
      ListsMinimal front products ∧ limit < products.length) := by
  refine ⟨fun products expanded => ⟨?_, ?_, ?_, ?_⟩, fun gaveUp => ?_, expand_eq_none_iff⟩
  · exact (expand_eq_some_iff.mp expanded).1 ▸ listsMinimal_multiplyOut clauses
  · exact pairwise_chosen literals limit clauses
  · exact meetsAll_solve nonempty
  · exact fun product ascending meetsAll => choiceKey_chosen_le expanded ascending meetsAll
  · have meetsAll : MeetsAll clauses (solve literals limit clauses).chosen.toFinset :=
      meetsAll_solve nonempty
    have solve_eq : solve literals limit clauses = ⟨greedy literals clauses, false⟩ :=
      solve_of_expand_eq_none gaveUp
    rw [solve_eq] at meetsAll
    exact ⟨solve_eq, pairwise_greedy literals clauses, meetsAll⟩

/-- Three clauses, every two of which share an index. -/
def triangle : List Clause :=
  [[0, 1], [1, 2], [0, 2]]

/-- Literals that make the index 0 the most expensive one. -/
def triangleLiterals (index : Nat) : Nat :=
  if index = 0 then 3 else 2

/-- Any two indices meet the triangle.  The cheapest two are found within three
products, and greedily if two are the limit. -/
theorem triangle_expand_exact :
    (∀ clause ∈ triangle, clause ≠ []) ∧
      expand 3 triangle = some [[0, 1], [0, 2], [1, 2]] ∧
      ListsMinimal triangle [[0, 1], [0, 2], [1, 2]] ∧
      (solve triangleLiterals 3 triangle).chosen = [1, 2] ∧
      (∀ product : Product, product.Pairwise (· < ·) → MeetsAll triangle product.toFinset →
        choiceKey triangleLiterals [1, 2] ≤ choiceKey triangleLiterals product) ∧
      expand 2 triangle = none ∧ solve triangleLiterals 2 triangle = ⟨[1, 2], false⟩ ∧
      MeetsAll triangle [1, 2].toFinset := by
  have nonempty : ∀ clause ∈ triangle, clause ≠ [] := by decide
  have expanded : expand 3 triangle = some [[0, 1], [0, 2], [1, 2]] := by cbv
  have chosen_eq : (solve triangleLiterals 3 triangle).chosen = [1, 2] := by cbv
  have gaveUp : expand 2 triangle = none := by cbv
  have greedy_eq : greedy triangleLiterals triangle = [1, 2] := by cbv
  obtain ⟨exact, -⟩ := expand_exact triangleLiterals 3 nonempty
  obtain ⟨lists, -, -, least⟩ := exact _ expanded
  obtain ⟨-, greedily, -⟩ := expand_exact triangleLiterals 2 nonempty
  obtain ⟨solve_eq, -, meetsAll⟩ := greedily gaveUp
  rw [chosen_eq] at least
  rw [greedy_eq] at solve_eq meetsAll
  exact ⟨nonempty, expanded, lists, chosen_eq, least, gaveUp, solve_eq, meetsAll⟩

end Switching.Petrick
