import Mathlib.Algebra.BigOperators.Group.Finset.Basic
import Mathlib.Algebra.GroupWithZero.Nat
import Mathlib.Algebra.Order.BigOperators.Group.Finset
import Mathlib.Algebra.Order.Group.Nat
import Mathlib.Algebra.Order.Monoid.Prod
import Mathlib.Data.Finset.Sort
import Switching.Cover.Petrick

/-!
# Sets that meet all clauses

The price of a set is its size together with its number of literals, compared
lexicographically.  Multiplying clauses out gives products that meet every
clause, and below every set that meets them there is one of the products.  So
the cheapest product has the least price of all sets that meet the clauses.  A
set assembled greedily meets them as well.
-/

namespace Switching.Petrick

/-! ## Prices -/

variable (literals : Nat → Nat)

/-- The price of a single index: one index, with its literals. -/
def indexPrice (index : Nat) : ℕ ×ₗ ℕ :=
  toLex (1, literals index)

/-- The price of a set of indices: its size, then its number of literals. -/
def price (chosen : Finset Nat) : ℕ ×ₗ ℕ :=
  ∑ index ∈ chosen, indexPrice literals index

theorem price_eq (chosen : Finset Nat) :
    price literals chosen = toLex (chosen.card, ∑ index ∈ chosen, literals index) := by
  induction chosen using Finset.induction_on with
  | empty => rfl
  | insert index rest fresh ih =>
      rw [price, Finset.sum_insert fresh, ← price, ih, Finset.card_insert_of_notMem fresh,
        Finset.sum_insert fresh, add_comm rest.card 1]
      rfl

theorem zero_le_indexPrice (index : Nat) : 0 ≤ indexPrice literals index :=
  Prod.Lex.toLex_le_toLex.mpr (.inl Nat.zero_lt_one)

variable {literals}

/-- A smaller set costs no more. -/
theorem price_mono {inner outer : Finset Nat} (subset : inner ⊆ outer) :
    price literals inner ≤ price literals outer :=
  Finset.sum_le_sum_of_subset_of_nonneg subset fun index _ _ => zero_le_indexPrice literals index

theorem price_union_le (first second : Finset Nat) :
    price literals (first ∪ second) ≤ price literals first + price literals second := by
  have disjoint : Disjoint first (second \ first) := Finset.disjoint_sdiff
  rw [← Finset.union_sdiff_self_eq_union, price, Finset.sum_union disjoint]
  exact add_le_add_right (price_mono Finset.sdiff_subset) _

/-- A set that contains another one costs as much as it and the rest. -/
theorem price_sdiff_add {inner outer : Finset Nat} (subset : inner ⊆ outer) :
    price literals (outer \ inner) + price literals inner = price literals outer :=
  Finset.sum_sdiff subset

/-- Exchanging an index for one with no more literals costs no more. -/
theorem price_exchange_le {chosen : Finset Nat} {dropped taken : Nat} (mem : dropped ∈ chosen)
    (le : literals taken ≤ literals dropped) :
    price literals (insert taken (chosen.erase dropped)) ≤ price literals chosen := by
  have step : indexPrice literals taken ≤ indexPrice literals dropped :=
    Prod.Lex.toLex_le_toLex.mpr (.inr ⟨rfl, le⟩)
  calc
    price literals (insert taken (chosen.erase dropped))
        ≤ price literals {taken} + price literals (chosen.erase dropped) :=
      price_union_le {taken} (chosen.erase dropped)
    _ ≤ indexPrice literals dropped + price literals (chosen.erase dropped) :=
      add_le_add_left (by simpa [price] using step) _
    _ = price literals chosen := Finset.add_sum_erase chosen _ mem

/-! ## Products -/

theorem meets_iff {product : Product} {clause : Clause} :
    meets product clause = true ↔ ∃ index ∈ clause, index ∈ product := by
  simp [meets]

/-- Adding an index keeps the ascending order. -/
theorem pairwise_insertIndex {index : Nat} {product : Product}
    (ascending : product.Pairwise (· < ·)) : (insertIndex index product).Pairwise (· < ·) := by
  induction product with
  | nil => simp [insertIndex]
  | cons first rest ih =>
      obtain ⟨below, restAscending⟩ := List.pairwise_cons.mp ascending
      unfold insertIndex
      split
      · rename_i less
        refine List.pairwise_cons.mpr ⟨fun other mem => ?_, ascending⟩
        rcases List.mem_cons.mp mem with rfl | mem
        · exact less
        · exact less.trans (below other mem)
      · split
        · exact ascending
        · refine List.pairwise_cons.mpr ⟨fun other mem => ?_, ih restAscending⟩
          rcases mem_insertIndex.mp mem with rfl | mem
          · omega
          · exact below other mem

private theorem mem_absorbInto {product : Product} {products : List Product} :
    ∀ {kept : List Product}, product ∈ absorbInto kept products →
      product ∈ kept ∨ product ∈ products := by
  induction products with
  | nil =>
      intro kept mem
      exact .inl (List.mem_reverse.mp mem)
  | cons first rest ih =>
      intro kept mem
      unfold absorbInto at mem
      split at mem
      · exact (ih mem).imp_right (List.mem_cons_of_mem _)
      · rcases ih mem with inKept | inRest
        · rcases List.mem_cons.mp inKept with rfl | inKept
          · exact .inr List.mem_cons_self
          · exact .inl inKept
        · exact .inr (List.mem_cons_of_mem _ inRest)

private theorem mem_absorbInto_of_mem_kept {product : Product} {products : List Product} :
    ∀ {kept : List Product}, product ∈ kept → product ∈ absorbInto kept products := by
  induction products with
  | nil => exact fun mem => List.mem_reverse.mpr mem
  | cons first rest ih =>
      intro kept mem
      unfold absorbInto
      split
      · exact ih mem
      · exact ih (List.mem_cons_of_mem _ mem)

private theorem exists_sublist_absorbInto {product : Product} {products : List Product} :
    ∀ {kept : List Product}, product ∈ products →
      ∃ smaller ∈ absorbInto kept products, smaller.Sublist product := by
  induction products with
  | nil => simp
  | cons first rest ih =>
      intro kept mem
      unfold absorbInto
      rcases List.mem_cons.mp mem with rfl | inRest
      · split
        · rename_i absorbed
          obtain ⟨smaller, inKept, sublist⟩ := List.any_eq_true.mp absorbed
          exact ⟨smaller, mem_absorbInto_of_mem_kept inKept,
            List.isSublist_iff_sublist.mp sublist⟩
        · exact ⟨product, mem_absorbInto_of_mem_kept List.mem_cons_self, .refl _⟩
      · split
        · exact ih inRest
        · exact ih inRest

/-- Absorption makes no new products. -/
theorem mem_of_mem_absorb {product : Product} {products : List Product}
    (mem : product ∈ absorb products) : product ∈ products :=
  List.mem_mergeSort.mp ((mem_absorbInto mem).resolve_left List.not_mem_nil)

/-- Absorption leaves, for every product, a part of it. -/
theorem exists_sublist_absorb {product : Product} {products : List Product}
    (mem : product ∈ products) : ∃ smaller ∈ absorb products, smaller.Sublist product :=
  exists_sublist_absorbInto (List.mem_mergeSort.mpr mem)

/-! ## Multiplying out -/

/-- A set of indices has an index of every clause. -/
def MeetsAll (clauses : List Clause) (chosen : Finset Nat) : Prop :=
  ∀ clause ∈ clauses, ∃ index ∈ clause, index ∈ chosen

/-- What the products of some clauses are: ascending lists of indices of the
clauses that meet all clauses, one of them below every set that does. -/
structure Expansion (clauses : List Clause) (products : List Product) : Prop where
  ascending : ∀ product ∈ products, product.Pairwise (· < ·)
  drawn : ∀ product ∈ products, ∀ index ∈ product, ∃ clause ∈ clauses, index ∈ clause
  meeting : ∀ product ∈ products, MeetsAll clauses product.toFinset
  below : ∀ chosen, MeetsAll clauses chosen → ∃ product ∈ products, product.toFinset ⊆ chosen

/-- Without clauses nothing has to be chosen. -/
theorem expansion_nil : Expansion [] [[]] where
  ascending := by simp
  drawn := by simp
  meeting := by simp [MeetsAll]
  below := by simp

/-- What extends a product meets the clause and is the product itself or has one
more index of the clause. -/
theorem mem_extend {clause : Clause} {old product : Product} (mem : product ∈ extend clause old) :
    (∃ index ∈ clause, index ∈ product) ∧
      (product = old ∨ ∃ index ∈ clause, product = insertIndex index old) := by
  unfold extend at mem
  split at mem
  · rename_i met
    rw [List.mem_singleton] at mem
    exact ⟨mem ▸ meets_iff.mp met, .inl mem⟩
  · obtain ⟨index, indexMem, rfl⟩ := List.mem_map.mp mem
    exact ⟨⟨index, indexMem, mem_insertIndex.mpr (.inl rfl)⟩, .inr ⟨index, indexMem, rfl⟩⟩

/-- A set that contains a product and meets the clause contains an extension of
the product. -/
theorem exists_extend_subset {clause : Clause} {old : Product} {chosen : Finset Nat} {index : Nat}
    (oldSubset : old.toFinset ⊆ chosen) (indexMem : index ∈ clause) (inChosen : index ∈ chosen) :
    ∃ product ∈ extend clause old, product.toFinset ⊆ chosen := by
  unfold extend
  split
  · exact ⟨old, List.mem_singleton_self old, oldSubset⟩
  · refine ⟨insertIndex index old, List.mem_map_of_mem indexMem, fun other otherMem => ?_⟩
    rcases mem_insertIndex.mp (List.mem_toFinset.mp otherMem) with rfl | inOld
    · exact inChosen
    · exact oldSubset (List.mem_toFinset.mpr inOld)

/-- Multiplying the products with one more clause. -/
theorem Expansion.step {clauses : List Clause} {products : List Product}
    (expansion : Expansion clauses products) (clause : Clause) :
    Expansion (clauses ++ [clause]) (absorb (products.flatMap (extend clause))) := by
  have shape {product : Product}
      (mem : product ∈ absorb (products.flatMap (extend clause))) :
      ∃ old ∈ products, (∃ index ∈ clause, index ∈ product) ∧
        (product = old ∨ ∃ index ∈ clause, product = insertIndex index old) := by
    obtain ⟨old, oldMem, extended⟩ := List.mem_flatMap.mp (mem_of_mem_absorb mem)
    exact ⟨old, oldMem, mem_extend extended⟩
  constructor
  case ascending =>
    intro product mem
    obtain ⟨old, oldMem, -, rfl | ⟨index, -, rfl⟩⟩ := shape mem
    · exact expansion.ascending product oldMem
    · exact pairwise_insertIndex (expansion.ascending old oldMem)
  case drawn =>
    intro product mem other otherMem
    have fromOld {old : Product} (oldMem : old ∈ products) (inOld : other ∈ old) :
        ∃ clause' ∈ clauses ++ [clause], other ∈ clause' := by
      obtain ⟨clause', clauseMem, inClause⟩ := expansion.drawn old oldMem other inOld
      exact ⟨clause', List.mem_append_left _ clauseMem, inClause⟩
    obtain ⟨old, oldMem, -, rfl | ⟨index, indexMem, rfl⟩⟩ := shape mem
    · exact fromOld oldMem otherMem
    · rcases mem_insertIndex.mp otherMem with rfl | inOld
      · exact ⟨clause, by simp, indexMem⟩
      · exact fromOld oldMem inOld
  case meeting =>
    intro product mem clause' clauseMem
    obtain ⟨old, oldMem, meetsLast, origin⟩ := shape mem
    rcases List.mem_append.mp clauseMem with earlier | last
    · obtain ⟨index, indexMem, inOld⟩ := expansion.meeting old oldMem clause' earlier
      refine ⟨index, indexMem, List.mem_toFinset.mpr ?_⟩
      rw [List.mem_toFinset] at inOld
      rcases origin with rfl | ⟨added, -, rfl⟩
      · exact inOld
      · exact mem_insertIndex.mpr (.inr inOld)
    · obtain ⟨index, indexMem, inProduct⟩ := meetsLast
      exact List.mem_singleton.mp last ▸ ⟨index, indexMem, List.mem_toFinset.mpr inProduct⟩
  case below =>
    intro chosen meetsAll
    obtain ⟨old, oldMem, oldSubset⟩ := expansion.below chosen fun clause' clauseMem =>
      meetsAll clause' (List.mem_append_left _ clauseMem)
    obtain ⟨index, indexMem, inChosen⟩ := meetsAll clause (by simp)
    obtain ⟨product, productMem, productSubset⟩ :=
      exists_extend_subset oldSubset indexMem inChosen
    obtain ⟨smaller, smallerMem, sublist⟩ :=
      exists_sublist_absorb (List.mem_flatMap.mpr ⟨old, oldMem, productMem⟩)
    refine ⟨smaller, smallerMem, fun other otherMem => productSubset ?_⟩
    exact List.mem_toFinset.mpr (sublist.subset (List.mem_toFinset.mp otherMem))

/-- The products of some clauses, however many there are. -/
def multiplyOut (clauses : List Clause) : List Product :=
  clauses.foldl (fun products clause => absorb (products.flatMap (extend clause))) [[]]

theorem multiplyOut_concat (clauses : List Clause) (clause : Clause) :
    multiplyOut (clauses ++ [clause]) = absorb ((multiplyOut clauses).flatMap (extend clause)) :=
  List.foldl_append

theorem expansion_multiplyOut (clauses : List Clause) :
    Expansion clauses (multiplyOut clauses) := by
  induction clauses using List.reverseRecOn with
  | nil => exact expansion_nil
  | append_singleton clauses clause ih => exact multiplyOut_concat clauses clause ▸ ih.step clause

/-- The clauses are multiplied out unless the first few of them have more products
than the limit. -/
theorem expand_eq_some_iff {limit : Nat} {clauses : List Clause} {products : List Product} :
    expand limit clauses = some products ↔ products = multiplyOut clauses ∧
      ∀ front, front ≠ [] → front <+: clauses → (multiplyOut front).length ≤ limit := by
  induction clauses using List.reverseRecOn generalizing products with
  | nil =>
      have noFront : ∀ front : List Clause, front ≠ [] → front <+: [] →
          (multiplyOut front).length ≤ limit :=
        fun front nonempty isPrefix => absurd (List.prefix_nil.mp isPrefix) nonempty
      rw [and_iff_left noFront]
      exact Option.some_inj.trans eq_comm
  | append_singleton clauses clause ih =>
      have concat : expand limit (clauses ++ [clause]) = (expand limit clauses).bind fun products =>
          let next := absorb (products.flatMap (extend clause))
          if next.length ≤ limit then some next else none := by
        simp [expand, List.foldlM_append]
      simp only [concat, Option.bind_eq_some_iff, ih, Option.ite_none_right_eq_some,
        Option.some.injEq]
      constructor
      · rintro ⟨_, ⟨rfl, small⟩, le, rfl⟩
        rw [← multiplyOut_concat] at le ⊢
        refine ⟨rfl, fun front nonempty isPrefix => ?_⟩
        rcases List.prefix_concat_iff.mp isPrefix with rfl | isPrefix
        · exact le
        · exact small front nonempty isPrefix
      · rintro ⟨rfl, small⟩
        refine ⟨_, ⟨rfl, fun front nonempty isPrefix => ?_⟩, ?_, (multiplyOut_concat _ _).symm⟩
        · exact small front nonempty (isPrefix.trans (List.prefix_append _ _))
        · exact multiplyOut_concat clauses clause ▸ small _ (by simp) List.prefix_rfl

/-- The products of all clauses, where their number stays within the limit. -/
theorem expansion_of_expand {limit : Nat} {clauses : List Clause} {products : List Product}
    (expanded : expand limit clauses = some products) : Expansion clauses products :=
  (expand_eq_some_iff.mp expanded).1 ▸ expansion_multiplyOut clauses

/-! ## The cheapest product -/

variable (literals)

/-- The price of a product. -/
def productPrice (product : Product) : ℕ ×ₗ ℕ :=
  toLex (product.length, cost literals product)

variable {literals}

theorem productPrice_eq_price {product : Product} (ascending : product.Pairwise (· < ·)) :
    productPrice literals product = price literals product.toFinset := by
  have nodup : product.Nodup := ascending.imp Nat.ne_of_lt
  rw [price_eq, productPrice, List.toFinset_card_of_nodup nodup, List.sum_toFinset _ nodup]
  congr 2
  induction product with
  | nil => rfl
  | cons first rest ih =>
      rw [List.map_cons, List.sum_cons, ← ih ascending.of_cons nodup.of_cons]
      rfl

theorem cheaper_iff {a b : Product} :
    cheaper literals a b = true ↔ productPrice literals a < productPrice literals b := by
  simp [cheaper, productPrice, Prod.Lex.toLex_lt_toLex]

private theorem foldl_cheaper {rest : List Product} : ∀ (first : Product),
    let best := rest.foldl (fun best product =>
      if cheaper literals product best then product else best) first
    best ∈ first :: rest ∧
      ∀ product ∈ first :: rest, productPrice literals best ≤ productPrice literals product := by
  induction rest with
  | nil => simp
  | cons second rest ih =>
      intro first
      rw [List.foldl_cons]
      split
      · rename_i less
        obtain ⟨mem, least⟩ := ih second
        refine ⟨List.mem_cons_of_mem _ mem, fun product productMem => ?_⟩
        rcases List.mem_cons.mp productMem with rfl | later
        · exact (least second List.mem_cons_self).trans (cheaper_iff.mp less).le
        · exact least product later
      · rename_i notLess
        obtain ⟨mem, least⟩ := ih first
        refine ⟨?_, fun product productMem => ?_⟩
        · rcases List.mem_cons.mp mem with same | later
          · exact List.mem_cons.mpr (.inl same)
          · exact List.mem_cons_of_mem _ (List.mem_cons_of_mem _ later)
        · rcases List.mem_cons.mp productMem with rfl | productMem
          · exact least product List.mem_cons_self
          · rcases List.mem_cons.mp productMem with rfl | later
            · exact (least first List.mem_cons_self).trans
                (not_lt.mp fun less => notLess (cheaper_iff.mpr less))
            · exact least product (List.mem_cons_of_mem _ later)

variable (literals) in
/-- The cheapest of some products is one of them, and none costs less. -/
theorem cheapest_mem_and_le {products : List Product} (nonempty : products ≠ []) :
    cheapest literals products ∈ products ∧ ∀ product ∈ products,
      productPrice literals (cheapest literals products) ≤ productPrice literals product := by
  cases products with
  | nil => exact absurd rfl nonempty
  | cons first rest => exact foldl_cheaper first

/-! ## The greedy choice -/

private theorem foldl_better_mem {clauses : List Clause} {rest : List Nat} : ∀ (first : Nat),
    rest.foldl (fun best index => if better literals clauses index best then index else best)
      first ∈ first :: rest := by
  induction rest with
  | nil => simp
  | cons second rest ih =>
      intro first
      rw [List.foldl_cons]
      split
      · exact List.mem_cons_of_mem _ (ih second)
      · rcases List.mem_cons.mp (ih first) with same | later
        · exact List.mem_cons.mpr (.inl same)
        · exact List.mem_cons_of_mem _ (List.mem_cons_of_mem _ later)

private theorem mem_eraseRepsBy_loop {index : Nat} {rest : List Nat} :
    ∀ {last : Nat} {passed : List Nat}, index ∈ List.eraseRepsBy.loop (· == ·) last rest passed ↔
      index ∈ last :: rest ∨ index ∈ passed := by
  induction rest with
  | nil =>
      intro last passed
      simp [List.eraseRepsBy.loop, or_comm]
  | cons first rest ih =>
      intro last passed
      unfold List.eraseRepsBy.loop
      split
      · rename_i same
        rw [ih]
        simp [beq_iff_eq.mp same]
      · rw [ih]
        simp only [List.mem_cons]
        tauto

private theorem mem_eraseReps {index : Nat} {indices : List Nat} :
    index ∈ indices.eraseReps ↔ index ∈ indices := by
  cases indices with
  | nil => exact Iff.rfl
  | cons first rest => exact mem_eraseRepsBy_loop.trans (or_iff_left List.not_mem_nil)

/-- The best index is one of the clauses. -/
theorem mem_clause_of_best? {clauses : List Clause} {index : Nat}
    (best : best? literals clauses = some index) : ∃ clause ∈ clauses, index ∈ clause := by
  unfold best? at best
  split at best
  · cases best
  · rename_i first rest candidates
    have mem : index ∈ first :: rest :=
      Option.some.inj best ▸ foldl_better_mem first
    rw [← candidates, mem_eraseReps, List.mem_mergeSort] at mem
    exact List.mem_flatten.mp mem

/-- There is a best index unless all clauses are empty. -/
theorem best?_eq_none {clauses : List Clause} (none_eq : best? literals clauses = none) :
    ∀ clause ∈ clauses, clause = [] := by
  unfold best? at none_eq
  split at none_eq
  · rename_i noCandidates
    intro clause mem
    refine List.eq_nil_iff_forall_not_mem.mpr fun index inClause => ?_
    have candidate : index ∈ clauses.flatten.mergeSort.eraseReps := by
      rw [mem_eraseReps, List.mem_mergeSort]
      exact List.mem_flatten.mpr ⟨clause, mem, inClause⟩
    rw [noCandidates] at candidate
    cases candidate
  · cases none_eq

/-- The greedy choice takes its indices from the clauses. -/
theorem mem_clause_of_mem_greedyFrom {clauses : List Clause} {index : Nat}
    (mem : index ∈ greedyFrom literals clauses) : ∃ clause ∈ clauses, index ∈ clause := by
  fun_induction greedyFrom literals clauses with
  | case1 => cases mem
  | case2 clauses best best_eq progress ih =>
      rcases List.mem_cons.mp mem with rfl | later
      · exact mem_clause_of_best? best_eq
      · obtain ⟨clause, unmet, inClause⟩ := ih later
        exact ⟨clause, List.mem_of_mem_filter unmet, inClause⟩
  | case3 => cases mem

variable (literals) in
/-- Every choice of the greedy method meets a clause, so it goes on until all
clauses are met. -/
theorem exists_mem_greedyFrom {clauses : List Clause} (nonempty : ∀ clause ∈ clauses, clause ≠ [])
    {clause : Clause} (mem : clause ∈ clauses) :
    ∃ index ∈ clause, index ∈ greedyFrom literals clauses := by
  fun_induction greedyFrom literals clauses with
  | case1 clauses best_eq => exact absurd (best?_eq_none best_eq clause mem) (nonempty clause mem)
  | case2 clauses best best_eq progress ih =>
      by_cases met : best ∈ clause
      · exact ⟨best, met, List.mem_cons_self⟩
      · have unmet : clause ∈ unmetBy clauses best := List.mem_filter.mpr ⟨mem, by simpa using met⟩
        obtain ⟨index, inClause, later⟩ :=
          ih (fun other otherMem => nonempty other (List.mem_of_mem_filter otherMem)) unmet
        exact ⟨index, inClause, List.mem_cons_of_mem _ later⟩
  | case3 clauses best best_eq noProgress =>
      obtain ⟨hit, hitMem, inHit⟩ := mem_clause_of_best? best_eq
      refine absurd (List.length_filter_lt_length_iff_exists.mpr ⟨hit, hitMem, ?_⟩) noProgress
      simpa using inHit

/-! ## The choice -/

/-- The choice takes its indices from the clauses. -/
theorem mem_clause_of_mem_solve {limit : Nat} {clauses : List Clause} {index : Nat}
    (mem : index ∈ (solve literals limit clauses).chosen) :
    ∃ clause ∈ clauses, index ∈ clause := by
  unfold solve at mem
  split at mem
  · cases mem
  · split at mem
    · rename_i products expanded
      have expansion := expansion_of_expand expanded
      cases products with
      | nil => cases mem
      | cons first rest =>
          have chosen := (cheapest_mem_and_le literals (List.cons_ne_nil first rest)).1
          exact expansion.drawn _ chosen index mem
    · exact mem_clause_of_mem_greedyFrom (List.mem_mergeSort.mp mem)

private theorem Expansion.ne_nil {clauses : List Clause} {products : List Product}
    (expansion : Expansion clauses products) (nonempty : ∀ clause ∈ clauses, clause ≠ []) :
    products ≠ [] := by
  have everything : MeetsAll clauses clauses.flatten.toFinset := by
    intro clause mem
    obtain ⟨index, inClause⟩ := List.exists_mem_of_ne_nil clause (nonempty clause mem)
    exact ⟨index, inClause, List.mem_toFinset.mpr (List.mem_flatten.mpr ⟨clause, mem, inClause⟩)⟩
  obtain ⟨product, mem, -⟩ := expansion.below _ everything
  exact List.ne_nil_of_mem mem

/-- The choice meets every clause, whatever the limit. -/
theorem meetsAll_solve {limit : Nat} {clauses : List Clause}
    (nonempty : ∀ clause ∈ clauses, clause ≠ []) :
    MeetsAll clauses (solve literals limit clauses).chosen.toFinset := by
  unfold solve
  split
  · rename_i noClauses
    simp [MeetsAll, List.isEmpty_iff.mp noClauses]
  · split
    · rename_i products expanded
      have expansion := expansion_of_expand expanded
      have chosen := (cheapest_mem_and_le literals (expansion.ne_nil nonempty)).1
      exact expansion.meeting _ chosen
    · intro clause mem
      obtain ⟨index, inClause, chosen⟩ := exists_mem_greedyFrom literals nonempty mem
      exact ⟨index, inClause, List.mem_toFinset.mpr (List.mem_mergeSort.mpr chosen)⟩

/-- Where the clauses can be multiplied out within the limit, the choice is
exact. -/
theorem exact_solve {limit : Nat} {clauses : List Clause} {products : List Product}
    (expanded : expand limit clauses = some products) :
    (solve literals limit clauses).exact = true := by
  unfold solve
  split
  · rfl
  · rw [expanded]

/-- If the limit was not in the way, no set that meets the clauses costs less
than the choice. -/
theorem price_solve_le {limit : Nat} {clauses : List Clause}
    (exact : (solve literals limit clauses).exact = true) {chosen : Finset Nat}
    (meetsAll : MeetsAll clauses chosen) :
    price literals (solve literals limit clauses).chosen.toFinset ≤ price literals chosen := by
  unfold solve at exact ⊢
  split
  · exact price_mono (Finset.empty_subset chosen)
  · rename_i someClauses
    rw [if_neg someClauses] at exact
    split
    · rename_i products expanded
      have expansion := expansion_of_expand expanded
      obtain ⟨product, mem, subset⟩ := expansion.below chosen meetsAll
      obtain ⟨cheapestMem, least⟩ :=
        cheapest_mem_and_le literals (List.ne_nil_of_mem mem)
      calc
        price literals (cheapest literals products).toFinset
            = productPrice literals (cheapest literals products) :=
          (productPrice_eq_price (expansion.ascending _ cheapestMem)).symm
        _ ≤ productPrice literals product := least product mem
        _ = price literals product.toFinset :=
          productPrice_eq_price (expansion.ascending product mem)
        _ ≤ price literals chosen := price_mono subset
    · rename_i gaveUp
      simp [gaveUp] at exact

end Switching.Petrick
