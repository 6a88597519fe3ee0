import Switching.Cover.Chart
import Switching.Proofs.Cover.Expansion

/-!
# Reduction keeps a cheapest cover

A set of implicants solves what is left of a chart if all of them are in play
and every target in play is covered.  A remainder is faithful to its chart if
its solutions, with the implicants selected so far, solve the whole chart, and
if for every solution of the whole chart there is one of the remainder that
costs no more.  Each step of the reduction keeps a remainder faithful, so the
implicants chosen in the end cover all targets, and they are a cheapest choice
wherever the clauses left are solved exactly.
-/

namespace Switching.Chart

open Petrick (price price_mono price_union_le price_sdiff_add price_exchange_le)

variable (chart : Chart)

/-- An implicant covers a target. -/
def Covers (implicant target : Nat) : Prop :=
  (chart.implicantsOf target).contains implicant = true

/-- Both sides of a chart say the same. -/
def Consistent : Prop :=
  ∀ implicant target, (chart.targetsOf implicant).contains target = true ↔
    chart.Covers implicant target

/-- The chosen implicants are in play and cover every target in play. -/
structure Solves (remainder : Remainder) (chosen : Finset Nat) : Prop where
  inPlay : ∀ implicant ∈ chosen, implicant ∈ remainder.implicants
  covers : ∀ target ∈ remainder.targets, ∃ implicant ∈ chosen, chart.Covers implicant target

/-- The solutions of a remainder complete its selection to solutions of the
whole chart, and to one that costs no more than any given solution. -/
structure Faithful (remainder : Remainder) : Prop where
  completes : ∀ chosen, chart.Solves remainder chosen →
    chart.Solves chart.whole (remainder.selected.toFinset ∪ chosen)
  affords : ∀ chosen, chart.Solves chart.whole chosen →
    ∃ rest, chart.Solves remainder rest ∧
      price chart.literalsOf remainder.selected.toFinset + price chart.literalsOf rest ≤
        price chart.literalsOf chosen

variable {chart}

theorem faithful_whole : chart.Faithful chart.whole where
  completes := by simp [whole]
  affords chosen solves := ⟨chosen, solves, by simp [whole, price]⟩

/-- A step that takes some implicants keeps a remainder faithful if it does so
with respect to the remainder before it. -/
theorem Faithful.step {remainder next : Remainder} (faithful : chart.Faithful remainder)
    (taken : Finset Nat)
    (selected_eq : next.selected.toFinset = remainder.selected.toFinset ∪ taken)
    (completes : ∀ chosen, chart.Solves next chosen → chart.Solves remainder (taken ∪ chosen))
    (affords : ∀ chosen, chart.Solves remainder chosen → ∃ rest, chart.Solves next rest ∧
      price chart.literalsOf taken + price chart.literalsOf rest ≤
        price chart.literalsOf chosen) :
    chart.Faithful next where
  completes chosen solves := by
    rw [selected_eq, Finset.union_assoc]
    exact faithful.completes _ (completes chosen solves)
  affords chosen solves := by
    obtain ⟨middle, middleSolves, middleLe⟩ := faithful.affords chosen solves
    obtain ⟨rest, restSolves, restLe⟩ := affords middle middleSolves
    refine ⟨rest, restSolves, ?_⟩
    calc
      price chart.literalsOf next.selected.toFinset + price chart.literalsOf rest
          ≤ price chart.literalsOf remainder.selected.toFinset + price chart.literalsOf taken +
              price chart.literalsOf rest := by
        rw [selected_eq]
        exact add_le_add_left (price_union_le _ _) _
      _ ≤ price chart.literalsOf remainder.selected.toFinset + price chart.literalsOf middle := by
        rw [add_assoc]
        exact add_le_add_right restLe _
      _ ≤ price chart.literalsOf chosen := middleLe

/-! ## Essential implicants -/

theorem contains_essentials {remainder : Remainder} {implicant : Nat} :
    (chart.essentials remainder).contains implicant = true ↔
      ∃ target ∈ remainder.targets,
        (chart.implicantsOf target).inter (.ofList remainder.implicants) = .single implicant := by
  simp [essentials, IndexSet.only?_eq_some_iff]

/-- A target that an essential implicant alone covers leaves no choice. -/
theorem eq_of_inter_eq_single {remainder : Remainder} {target implicant other : Nat}
    (alone : (chart.implicantsOf target).inter (.ofList remainder.implicants) =
      .single implicant) :
    (chart.Covers other target ∧ other ∈ remainder.implicants) ↔ implicant = other := by
  have here := congrArg (·.contains other) alone
  simp only [IndexSet.contains_inter, IndexSet.contains_ofList, IndexSet.contains_single] at here
  rw [Covers, ← decide_eq_true_eq (p := implicant = other), ← here, Bool.and_eq_true,
    decide_eq_true_eq]

variable (chart) in
/-- The essential implicants as a set. -/
def essentialSet (remainder : Remainder) : Finset Nat :=
  (chart.essentials remainder).toList.toFinset

theorem mem_essentialSet {remainder : Remainder} {implicant : Nat} :
    implicant ∈ chart.essentialSet remainder ↔
      (chart.essentials remainder).contains implicant = true := by
  rw [essentialSet, List.mem_toFinset, IndexSet.mem_toList]

/-- The essential implicants complete a solution of what is left without
them. -/
theorem Solves.withEssentials {remainder : Remainder} {chosen : Finset Nat}
    (solves : chart.Solves (chart.selectEssentials remainder) chosen) :
    chart.Solves remainder (chart.essentialSet remainder ∪ chosen) where
  inPlay implicant mem := by
    rcases Finset.mem_union.mp mem with inTaken | inChosen
    · obtain ⟨target, -, alone⟩ := contains_essentials.mp (mem_essentialSet.mp inTaken)
      exact ((eq_of_inter_eq_single alone).mpr rfl).2
    · exact List.mem_of_mem_filter (solves.inPlay implicant inChosen)
  covers target mem := by
    by_cases met : (chart.implicantsOf target).intersects (chart.essentials remainder) = true
    · obtain ⟨implicant, covers, isEssential⟩ := IndexSet.intersects_iff.mp met
      exact ⟨implicant, Finset.mem_union_left _ (mem_essentialSet.mpr isEssential), covers⟩
    · have inNext : target ∈ (chart.selectEssentials remainder).targets :=
        List.mem_filter.mpr ⟨mem, by simpa using met⟩
      obtain ⟨implicant, inChosen, covers⟩ := solves.covers target inNext
      exact ⟨implicant, Finset.mem_union_right _ inChosen, covers⟩

/-- Every solution contains the essential implicants. -/
theorem Solves.essentialSet_subset {remainder : Remainder} {chosen : Finset Nat}
    (solves : chart.Solves remainder chosen) : chart.essentialSet remainder ⊆ chosen := by
  intro implicant mem
  obtain ⟨target, targetMem, alone⟩ := contains_essentials.mp (mem_essentialSet.mp mem)
  obtain ⟨other, inChosen, covers⟩ := solves.covers target targetMem
  rw [(eq_of_inter_eq_single alone).mp ⟨covers, solves.inPlay other inChosen⟩]
  exact inChosen

/-- A solution without the essential implicants solves what is left. -/
theorem Solves.withoutEssentials {remainder : Remainder} {chosen : Finset Nat}
    (solves : chart.Solves remainder chosen) :
    chart.Solves (chart.selectEssentials remainder)
      (chosen \ chart.essentialSet remainder) where
  inPlay implicant mem := by
    obtain ⟨inChosen, notTaken⟩ := Finset.mem_sdiff.mp mem
    rw [mem_essentialSet] at notTaken
    exact List.mem_filter.mpr ⟨solves.inPlay implicant inChosen, by simpa using notTaken⟩
  covers target mem := by
    obtain ⟨targetMem, notMet⟩ := List.mem_filter.mp mem
    obtain ⟨implicant, inChosen, covers⟩ := solves.covers target targetMem
    refine ⟨implicant, Finset.mem_sdiff.mpr ⟨inChosen, fun inTaken => ?_⟩, covers⟩
    have met := IndexSet.intersects_iff.mpr ⟨implicant, covers, mem_essentialSet.mp inTaken⟩
    simp [met] at notMet

/-- Selecting the essential implicants keeps a remainder faithful. -/
theorem Faithful.selectEssentials {remainder : Remainder} (faithful : chart.Faithful remainder) :
    chart.Faithful (chart.selectEssentials remainder) := by
  refine faithful.step (chart.essentialSet remainder) List.toFinset_append
    (fun _ solves => solves.withEssentials) fun chosen solves => ?_
  refine ⟨chosen \ chart.essentialSet remainder, solves.withoutEssentials, ?_⟩
  rw [add_comm, price_sdiff_add solves.essentialSet_subset]

/-! ## Dominance -/

/-- What holds of a list, and goes on to hold when a dominated member is taken
out, holds of what a sweep leaves. -/
theorem sweep_induction {α : Type} (dominates : α → α → Bool) (holds : List α → Prop)
    (takeOut : ∀ before member after, holds (before ++ member :: after) →
      (∃ other ∈ before ++ after, dominates other member = true) → holds (before ++ after))
    {members : List α} (start : holds members) : holds (sweep dominates [] members) := by
  have sweepFrom (pending : List α) : ∀ kept : List α, holds (kept.reverse ++ pending) →
      holds (sweep dominates kept pending) := by
    induction pending with
    | nil =>
        intro kept start
        simpa [sweep] using start
    | cons member rest ih =>
        intro kept start
        unfold sweep
        split
        · rename_i dominated
          refine ih kept (takeOut _ _ _ start ?_)
          rw [Bool.or_eq_true, List.any_eq_true, List.any_eq_true] at dominated
          rcases dominated with ⟨other, mem, dominates⟩ | ⟨other, mem, dominates⟩
          · exact ⟨other, List.mem_append_left _ (List.mem_reverse.mpr mem), dominates⟩
          · exact ⟨other, List.mem_append_right _ mem, dominates⟩
        · exact ih (member :: kept) (by simpa using start)
  exact sweepFrom members [] start

/-- A sweep makes no new members. -/
theorem mem_of_mem_sweep {α : Type} {dominates : α → α → Bool} {members : List α} {member : α}
    (mem : member ∈ sweep dominates [] members) : member ∈ members := by
  refine sweep_induction dominates (fun left => ∀ member ∈ left, member ∈ members) ?_
    (fun _ inMembers => inMembers) member mem
  intro before dropped after inMembers _ other otherMem
  refine inMembers other ?_
  rcases List.mem_append.mp otherMem with first | second
  · exact List.mem_append_left _ first
  · exact List.mem_append_right _ (List.mem_cons_of_mem _ second)

theorem contains_partners_of_mem_implicantLines (consistent : chart.Consistent)
    {remainder : Remainder} {line : Line} (mem : line ∈ chart.implicantLines remainder)
    (target : Nat) : line.partners.contains target = true ↔
      chart.Covers line.index target ∧ target ∈ remainder.targets := by
  obtain ⟨implicant, -, rfl⟩ := List.mem_map.mp mem
  simp [← consistent implicant target]

theorem contains_partners_of_mem_targetLines {remainder : Remainder} {line : Line}
    (mem : line ∈ chart.targetLines remainder) (implicant : Nat) :
    line.partners.contains implicant = true ↔
      chart.Covers implicant line.index ∧ implicant ∈ remainder.implicants := by
  obtain ⟨target, -, rfl⟩ := List.mem_map.mp mem
  simp [Covers]

variable (chart) in
/-- The lines of the implicants that cover some target in play. -/
def usefulLines (remainder : Remainder) : List Line :=
  (chart.implicantLines remainder).filter (!·.partners.isEmpty)

/-- Implicants that cover nothing can be left out of a solution. -/
theorem Solves.dropUseless (consistent : chart.Consistent) {remainder : Remainder}
    {chosen : Finset Nat} (solves : chart.Solves remainder chosen) :
    ∃ rest, chart.Solves { remainder with
        implicants := (chart.usefulLines remainder).map Line.index } rest ∧
      price chart.literalsOf rest ≤ price chart.literalsOf chosen := by
  classical
  refine ⟨chosen.filter fun implicant => ∃ target ∈ remainder.targets,
    chart.Covers implicant target, ⟨?_, ?_⟩, price_mono (Finset.filter_subset _ _)⟩
  · intro implicant mem
    obtain ⟨inChosen, target, targetMem, covers⟩ := Finset.mem_filter.mp mem
    have lineMem : (⟨implicant, (chart.targetsOf implicant).inter (.ofList remainder.targets)⟩ :
        Line) ∈ chart.implicantLines remainder :=
      List.mem_map_of_mem (solves.inPlay implicant inChosen)
    have partner := (contains_partners_of_mem_implicantLines consistent lineMem target).mpr
      ⟨covers, targetMem⟩
    refine List.mem_map.mpr ⟨_, List.mem_filter.mpr ⟨lineMem, ?_⟩, rfl⟩
    rw [Bool.not_eq_true', ← Bool.not_eq_true, IndexSet.isEmpty_iff]
    exact fun none => by simp [none target] at partner
  · intro target targetMem
    obtain ⟨implicant, inChosen, covers⟩ := solves.covers target targetMem
    exact ⟨implicant, Finset.mem_filter.mpr ⟨inChosen, target, targetMem, covers⟩, covers⟩

/-- In a solution a dominated implicant can be exchanged for the one that
dominates it. -/
theorem Solves.exchange {implicants : List Nat} {remainder : Remainder} {chosen : Finset Nat}
    {dropped taken : Nat}
    (solves : chart.Solves { remainder with implicants := dropped :: implicants } chosen)
    (mem : taken ∈ implicants)
    (covers : ∀ target ∈ remainder.targets, chart.Covers dropped target →
      chart.Covers taken target)
    (le : chart.literalsOf taken ≤ chart.literalsOf dropped) :
    ∃ other, chart.Solves { remainder with implicants } other ∧
      price chart.literalsOf other ≤ price chart.literalsOf chosen := by
  have inPlay {implicant : Nat} (inChosen : implicant ∈ chosen) (ne : implicant ≠ dropped) :
      implicant ∈ implicants :=
    (List.mem_cons.mp (solves.inPlay implicant inChosen)).resolve_left ne
  by_cases used : dropped ∈ chosen
  · refine ⟨insert taken (chosen.erase dropped), ⟨?_, ?_⟩, price_exchange_le used le⟩
    · intro implicant inOther
      rcases Finset.mem_insert.mp inOther with rfl | inRest
      · exact mem
      · obtain ⟨ne, inChosen⟩ := Finset.mem_erase.mp inRest
        exact inPlay inChosen ne
    · intro target targetMem
      obtain ⟨implicant, inChosen, coversTarget⟩ := solves.covers target targetMem
      by_cases same : implicant = dropped
      · exact ⟨taken, Finset.mem_insert_self _ _, covers target targetMem (same ▸ coversTarget)⟩
      · exact ⟨implicant, Finset.mem_insert_of_mem (Finset.mem_erase.mpr ⟨same, inChosen⟩),
          coversTarget⟩
  · refine ⟨chosen, ⟨fun implicant inChosen => ?_, solves.covers⟩, le_rfl⟩
    exact inPlay inChosen fun same => used (same ▸ inChosen)

/-- A sweep over implicants leaves a solution that costs no more. -/
theorem Solves.sweepImplicants (consistent : chart.Consistent) {remainder : Remainder}
    {lines : List Line} (inLines : ∀ line ∈ lines, line ∈ chart.implicantLines remainder)
    {chosen : Finset Nat}
    (solves : chart.Solves { remainder with implicants := lines.map Line.index } chosen) :
    ∃ rest, chart.Solves { remainder with
        implicants := (sweep chart.implicantDominates [] lines).map Line.index } rest ∧
      price chart.literalsOf rest ≤ price chart.literalsOf chosen := by
  have swept := sweep_induction chart.implicantDominates
    (fun left => (∀ line ∈ left, line ∈ chart.implicantLines remainder) ∧
      ∃ rest, chart.Solves { remainder with implicants := left.map Line.index } rest ∧
        price chart.literalsOf rest ≤ price chart.literalsOf chosen) ?_
    ⟨inLines, chosen, solves, le_rfl⟩
  · exact swept.2
  · rintro before member after ⟨inLines, rest, restSolves, restLe⟩ ⟨other, otherMem, dominates⟩
    have stillInLines : ∀ line ∈ before ++ after, line ∈ chart.implicantLines remainder :=
      fun line mem => inLines line (by
        rw [List.mem_append] at mem
        simpa using mem.imp_right .inr)
    simp only [implicantDominates, Bool.and_eq_true, decide_eq_true_eq] at dominates
    obtain ⟨⟨literalsLe, subset⟩, -⟩ := dominates
    have moved : chart.Solves
        { remainder with implicants := member.index :: (before ++ after).map Line.index } rest :=
      ⟨fun implicant mem => by simpa [or_left_comm] using restSolves.inPlay implicant mem,
        restSolves.covers⟩
    have takesOver : ∀ target ∈ remainder.targets, chart.Covers member.index target →
        chart.Covers other.index target := by
      intro target targetMem covers
      have inMember := (contains_partners_of_mem_implicantLines consistent
        (inLines member (by simp)) target).mpr ⟨covers, targetMem⟩
      have inOther := IndexSet.subset_iff.mp subset target inMember
      exact ((contains_partners_of_mem_implicantLines consistent
        (stillInLines other otherMem) target).mp inOther).1
    obtain ⟨exchanged, exchangedSolves, exchangedLe⟩ :=
      moved.exchange (List.mem_map_of_mem otherMem) takesOver literalsLe
    exact ⟨stillInLines, exchanged, exchangedSolves, exchangedLe.trans restLe⟩

/-- Dropping useless and dominated implicants keeps a remainder faithful. -/
theorem Faithful.dropImplicants (consistent : chart.Consistent) {remainder : Remainder}
    (faithful : chart.Faithful remainder) : chart.Faithful (chart.dropImplicants remainder) := by
  refine faithful.step ∅ (Finset.union_empty _).symm ?_ ?_
  · intro chosen solves
    rw [Finset.empty_union]
    refine ⟨fun implicant mem => ?_, solves.covers⟩
    obtain ⟨line, lineMem, rfl⟩ := List.mem_map.mp (solves.inPlay implicant mem)
    obtain ⟨implicant, implicantMem, rfl⟩ :=
      List.mem_map.mp (List.mem_of_mem_filter (mem_of_mem_sweep lineMem))
    exact implicantMem
  · intro chosen solves
    obtain ⟨useful, usefulSolves, usefulLe⟩ := solves.dropUseless consistent
    obtain ⟨rest, restSolves, restLe⟩ :=
      usefulSolves.sweepImplicants consistent fun line mem => List.mem_of_mem_filter mem
    refine ⟨rest, restSolves, ?_⟩
    rw [price, Finset.sum_empty, zero_add]
    exact restLe.trans usefulLe

/-- A solution for the targets that a sweep leaves covers the others as well. -/
theorem Solves.covers_of_sweep {remainder : Remainder} {chosen : Finset Nat}
    (solves : chart.Solves { remainder with
      targets := (sweep targetDominates [] (chart.targetLines remainder)).map Line.index } chosen) :
    ∀ target ∈ remainder.targets, ∃ implicant ∈ chosen, chart.Covers implicant target := by
  have swept := sweep_induction targetDominates
    (fun left => (∀ line ∈ left, line ∈ chart.targetLines remainder) ∧
      ((∀ line ∈ left, ∃ implicant ∈ chosen, chart.Covers implicant line.index) →
        ∀ target ∈ remainder.targets, ∃ implicant ∈ chosen, chart.Covers implicant target))
    ?takeOut
    (show _ ∧ _ from ⟨fun line mem => mem, fun covered target mem =>
      covered _ (List.mem_map_of_mem mem)⟩)
  case takeOut =>
    rintro before member after ⟨inLines, suffices_⟩ ⟨other, otherMem, dominates⟩
    have stillInLines : ∀ line ∈ before ++ after, line ∈ chart.targetLines remainder :=
      fun line mem => inLines line (by
        rw [List.mem_append] at mem
        simpa using mem.imp_right .inr)
    refine ⟨stillInLines, fun covered => suffices_ fun line mem => ?_⟩
    rw [List.mem_append, List.mem_cons, or_left_comm, ← List.mem_append] at mem
    rcases mem with rfl | mem
    · obtain ⟨implicant, inChosen, covers⟩ := covered other otherMem
      have inOther := (contains_partners_of_mem_targetLines (stillInLines other otherMem)
        implicant).mpr ⟨covers, solves.inPlay implicant inChosen⟩
      have inMember := IndexSet.subset_iff.mp (Bool.and_eq_true_iff.mp dominates).1 implicant
        inOther
      exact ⟨implicant, inChosen, ((contains_partners_of_mem_targetLines
        (inLines line (by simp)) implicant).mp inMember).1⟩
    · exact covered line mem
  exact swept.2 fun line mem => solves.covers line.index (List.mem_map_of_mem mem)

/-- Dropping targets that are covered along with others keeps a remainder
faithful. -/
theorem Faithful.dropTargets {remainder : Remainder} (faithful : chart.Faithful remainder) :
    chart.Faithful (chart.dropTargets remainder) := by
  refine faithful.step ∅ (Finset.union_empty _).symm ?_ ?_
  · intro chosen solves
    rw [Finset.empty_union]
    exact ⟨solves.inPlay, solves.covers_of_sweep⟩
  · intro chosen solves
    refine ⟨chosen, ⟨solves.inPlay, fun target mem => ?_⟩, by simp [price]⟩
    obtain ⟨line, lineMem, rfl⟩ := List.mem_map.mp mem
    obtain ⟨target, targetMem, rfl⟩ := List.mem_map.mp (mem_of_mem_sweep lineMem)
    exact solves.covers target targetMem

/-! ## The whole reduction -/

/-- What every round of the three steps keeps, the reduction keeps. -/
theorem reduceFrom_induction {holds : Remainder → Prop}
    (round : ∀ remainder, holds remainder → holds (chart.reduceOnce remainder))
    {remainder : Remainder} (start : holds remainder) : holds (chart.reduceFrom remainder) := by
  fun_induction reduceFrom chart remainder with
  | case1 remainder next smaller ih => exact ih (round remainder start)
  | case2 remainder next done => exact round remainder start

/-- What the reduction leaves is faithful to the chart. -/
theorem faithful_reduce (consistent : chart.Consistent) : chart.Faithful chart.reduce :=
  reduceFrom_induction
    (fun _ faithful => (faithful.selectEssentials.dropImplicants consistent).dropTargets)
    faithful_whole

/-- To meet the clauses of a remainder with implicants in play is to solve it. -/
theorem solves_iff_meetsAll {remainder : Remainder} {chosen : Finset Nat}
    (inPlay : ∀ implicant ∈ chosen, implicant ∈ remainder.implicants) :
    chart.Solves remainder chosen ↔ Petrick.MeetsAll (chart.clauses remainder) chosen := by
  have clause_iff (implicant target : Nat) (mem : implicant ∈ chosen) :
      implicant ∈ ((chart.implicantsOf target).inter (.ofList remainder.implicants)).toList ↔
        chart.Covers implicant target := by
    simp [Covers, inPlay implicant mem]
  simp only [Petrick.MeetsAll, clauses, targetLines, List.map_map, List.forall_mem_map,
    Function.comp_apply]
  constructor
  · intro solves target targetMem
    obtain ⟨implicant, mem, covers⟩ := solves.covers target targetMem
    exact ⟨implicant, (clause_iff implicant target mem).mpr covers, mem⟩
  · refine fun meetsAll => ⟨inPlay, fun target targetMem => ?_⟩
    obtain ⟨implicant, inClause, mem⟩ := meetsAll target targetMem
    exact ⟨implicant, mem, (clause_iff implicant target mem).mp inClause⟩

theorem mem_implicants_of_mem_clause {remainder : Remainder} {clause : Petrick.Clause}
    (mem : clause ∈ chart.clauses remainder) {implicant : Nat} (inClause : implicant ∈ clause) :
    implicant ∈ remainder.implicants := by
  obtain ⟨line, lineMem, rfl⟩ := List.mem_map.mp mem
  exact ((contains_partners_of_mem_targetLines lineMem implicant).mp
    (IndexSet.mem_toList.mp inClause)).2

theorem toFinset_chosen_solve (limit : Nat) : (chart.solve limit).chosen.toFinset =
    chart.reduce.selected.toFinset ∪
      (Petrick.solve chart.literalsOf limit (chart.clauses chart.reduce)).chosen.toFinset := by
  ext implicant
  simp [solve]

/-- If the whole chart has a solution, the chosen implicants are one, whatever
the limit. -/
theorem solves_solve (consistent : chart.Consistent) (known : Finset Nat)
    (solvable : chart.Solves chart.whole known) (limit : Nat) :
    chart.Solves chart.whole (chart.solve limit).chosen.toFinset := by
  have faithful := faithful_reduce consistent
  obtain ⟨rest, restSolves, -⟩ := faithful.affords known solvable
  have meetsAll := (solves_iff_meetsAll restSolves.inPlay).mp restSolves
  have nonempty : ∀ clause ∈ chart.clauses chart.reduce, clause ≠ [] := by
    intro clause mem
    obtain ⟨index, inClause, -⟩ := meetsAll clause mem
    exact List.ne_nil_of_mem inClause
  rw [toFinset_chosen_solve]
  refine faithful.completes _ ((solves_iff_meetsAll fun implicant mem => ?_).mpr
    (Petrick.meetsAll_solve nonempty))
  obtain ⟨clause, clauseMem, inClause⟩ :=
    Petrick.mem_clause_of_mem_solve (List.mem_toFinset.mp mem)
  exact mem_implicants_of_mem_clause clauseMem inClause

/-- If the limit was not in the way, no solution of the whole chart costs less
than the chosen implicants. -/
theorem price_solve_le (consistent : chart.Consistent) {limit : Nat}
    (exact : (chart.solve limit).exact = true) {other : Finset Nat}
    (solves : chart.Solves chart.whole other) :
    price chart.literalsOf (chart.solve limit).chosen.toFinset ≤
      price chart.literalsOf other := by
  obtain ⟨rest, restSolves, restLe⟩ := (faithful_reduce consistent).affords other solves
  have meetsAll := (solves_iff_meetsAll restSolves.inPlay).mp restSolves
  rw [toFinset_chosen_solve]
  calc
    _ ≤ price chart.literalsOf chart.reduce.selected.toFinset +
          price chart.literalsOf (Petrick.solve chart.literalsOf limit
            (chart.clauses chart.reduce)).chosen.toFinset := price_union_le _ _
    _ ≤ price chart.literalsOf chart.reduce.selected.toFinset + price chart.literalsOf rest :=
      add_le_add_right (Petrick.price_solve_le exact meetsAll) _
    _ ≤ price chart.literalsOf other := restLe

end Switching.Chart
