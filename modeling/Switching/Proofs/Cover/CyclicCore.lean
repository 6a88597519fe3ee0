import Mathlib.Data.List.Pairwise
import Switching.Proofs.Cover.Selection

/-!
# The cyclic core of a chart

Reduction repeats its three steps for as long as one of them takes something
out of play.  A round that changes something leaves less in play than there
was before, so the rounds come to an end, and the last one shows that no step
applies any more.  What is left is the cyclic core: every target offers a
choice between implicants, no target is covered along with another one, no
implicant is superfluous, and no implicant left was selected before.
-/

namespace Switching.Chart

/-! ## Steps take out of play only -/

/-- Nothing has come into play. -/
structure Remainder.Within (next remainder : Remainder) : Prop where
  implicants : next.implicants.Sublist remainder.implicants
  targets : next.targets.Sublist remainder.targets

namespace Remainder.Within

variable {first second third : Remainder}

theorem trans (inner : Within first second) (outer : Within second third) :
    Within first third :=
  ⟨inner.implicants.trans outer.implicants, inner.targets.trans outer.targets⟩

theorem size_le (within : Within first second) : first.size ≤ second.size :=
  Nat.add_le_add within.implicants.length_le within.targets.length_le

/-- Where as much is in play as before, the same is in play. -/
theorem eq_of_size_le (within : Within first second) (le : second.size ≤ first.size) :
    first.implicants = second.implicants ∧ first.targets = second.targets := by
  have implicants_le := within.implicants.length_le
  have targets_le := within.targets.length_le
  simp only [size] at le
  exact ⟨within.implicants.eq_of_length_le (by omega),
    within.targets.eq_of_length_le (by omega)⟩

end Remainder.Within

theorem sweep_sublist {α : Type} {dominates : α → α → Bool} {members : List α} :
    (sweep dominates [] members).Sublist members := by
  refine sweep_induction dominates (List.Sublist · members) ?_ (List.Sublist.refl members)
  intro before member after sublist _
  exact (List.Sublist.append_left (List.sublist_cons_self member after) before).trans sublist

variable (chart : Chart) (remainder : Remainder)

theorem map_index_implicantLines :
    (chart.implicantLines remainder).map Line.index = remainder.implicants := by
  rw [implicantLines, List.map_map]
  exact List.map_id _

theorem map_index_targetLines :
    (chart.targetLines remainder).map Line.index = remainder.targets := by
  rw [targetLines, List.map_map]
  exact List.map_id _

theorem within_selectEssentials : (chart.selectEssentials remainder).Within remainder :=
  ⟨List.filter_sublist, List.filter_sublist⟩

theorem within_dropImplicants : (chart.dropImplicants remainder).Within remainder where
  implicants := by
    refine (sweep_sublist.map Line.index).trans ?_
    rw [← map_index_implicantLines chart remainder]
    exact List.filter_sublist.map Line.index
  targets := List.Sublist.refl _

theorem within_dropTargets : (chart.dropTargets remainder).Within remainder where
  implicants := List.Sublist.refl _
  targets := by
    refine (sweep_sublist.map Line.index).trans ?_
    rw [map_index_targetLines chart remainder]

/-! ## Rounds that change something -/

/-- Whether one of the three steps of a round takes something out of play. -/
def changes (remainder : Remainder) : Bool :=
  let chosen := chart.selectEssentials remainder
  let thinned := chart.dropImplicants chosen
  !(chart.essentials remainder).isEmpty || thinned.implicants ≠ chosen.implicants ||
    (chart.dropTargets thinned).targets ≠ thinned.targets

variable {chart : Chart} {remainder : Remainder}

theorem mem_implicants_of_contains_essentials {implicant : Nat}
    (isEssential : (chart.essentials remainder).contains implicant = true) :
    implicant ∈ remainder.implicants := by
  obtain ⟨target, -, alone⟩ := contains_essentials.mp isEssential
  exact ((eq_of_inter_eq_single alone).mpr rfl).2

theorem isEmpty_essentials_of_implicants_eq
    (same : (chart.selectEssentials remainder).implicants = remainder.implicants) :
    (chart.essentials remainder).isEmpty = true := by
  refine IndexSet.isEmpty_iff.mpr fun implicant => ?_
  by_contra isEssential
  rw [Bool.not_eq_false] at isEssential
  have kept : implicant ∈ (chart.selectEssentials remainder).implicants :=
    same ▸ mem_implicants_of_contains_essentials isEssential
  have notEssential := (List.mem_filter.mp kept).2
  simp [isEssential] at notEssential

theorem selectEssentials_eq_self (none : (chart.essentials remainder).isEmpty = true) :
    chart.selectEssentials remainder = remainder := by
  have absent := IndexSet.isEmpty_iff.mp none
  have selectsNothing : (chart.essentials remainder).toList = [] :=
    List.eq_nil_iff_forall_not_mem.mpr fun implicant mem => by
      simp [absent] at mem
  have meetsNothing (target : Nat) :
      (chart.implicantsOf target).intersects (chart.essentials remainder) = false := by
    rw [← Bool.not_eq_true, IndexSet.intersects_iff]
    rintro ⟨implicant, -, isEssential⟩
    simp [absent] at isEssential
  simp [selectEssentials, selectsNothing, meetsNothing, absent]

theorem dropImplicants_eq_self
    (same : (chart.dropImplicants remainder).implicants = remainder.implicants) :
    chart.dropImplicants remainder = remainder :=
  congrArg (fun implicants => { remainder with implicants }) same

theorem dropTargets_eq_self
    (same : (chart.dropTargets remainder).targets = remainder.targets) :
    chart.dropTargets remainder = remainder :=
  congrArg (fun targets => { remainder with targets }) same

/-- A round changes nothing exactly if none of its steps does. -/
theorem changes_eq_false_iff : chart.changes remainder = false ↔
    (chart.essentials remainder).isEmpty = true ∧
      (chart.dropImplicants remainder).implicants = remainder.implicants ∧
      (chart.dropTargets remainder).targets = remainder.targets := by
  simp only [changes, Bool.or_eq_false_iff, Bool.not_eq_false', decide_eq_false_iff_not,
    ne_eq, not_not, and_assoc]
  refine and_congr_right fun none => ?_
  rw [selectEssentials_eq_self none]
  refine and_congr_right fun implicants_eq => ?_
  rw [dropImplicants_eq_self implicants_eq]

theorem reduceOnce_eq_self (still : chart.changes remainder = false) :
    chart.reduceOnce remainder = remainder := by
  obtain ⟨none, implicants_eq, targets_eq⟩ := changes_eq_false_iff.mp still
  rw [reduceOnce, selectEssentials_eq_self none, dropImplicants_eq_self implicants_eq,
    dropTargets_eq_self targets_eq]

/-- A round changes something exactly if it leaves less in play. -/
theorem changes_iff_size_lt :
    chart.changes remainder = true ↔ (chart.reduceOnce remainder).size < remainder.size := by
  constructor
  · intro changed
    by_contra asMany
    have chosenWithin := within_selectEssentials chart remainder
    have thinnedWithin := within_dropImplicants chart (chart.selectEssentials remainder)
    have droppedWithin :=
      within_dropTargets chart (chart.dropImplicants (chart.selectEssentials remainder))
    have chosen_le := chosenWithin.size_le
    have thinned_le := thinnedWithin.size_le
    have dropped_le := droppedWithin.size_le
    rw [reduceOnce] at asMany
    have none := isEmpty_essentials_of_implicants_eq (chosenWithin.eq_of_size_le (by omega)).1
    have still : chart.changes remainder = false := by
      simp [changes, none, (thinnedWithin.eq_of_size_le (by omega)).1,
        (droppedWithin.eq_of_size_le (by omega)).2]
    rw [still] at changed
    cases changed
  · intro smaller
    by_contra still
    rw [reduceOnce_eq_self (Bool.eq_false_of_not_eq_true still)] at smaller
    exact Nat.lt_irrefl _ smaller

variable (chart) in
/-- `Runs rounds start last` says that repeating the three steps from `start` on
for as long as they change something takes `rounds` rounds, the last one of
which changes nothing and leaves `last`. -/
inductive Runs : Nat → Remainder → Remainder → Prop
  | stop {remainder : Remainder} (still : chart.changes remainder = false) :
      Runs 1 remainder (chart.reduceOnce remainder)
  | again {rounds : Nat} {remainder last : Remainder} (changed : chart.changes remainder = true)
      (rest : Runs rounds (chart.reduceOnce remainder) last) :
      Runs (rounds + 1) remainder last

/-- The last round shows that no step changes what is left. -/
theorem Runs.changes_eq_false {rounds : Nat} {start last : Remainder}
    (runs : chart.Runs rounds start last) : chart.changes last = false := by
  induction runs with
  | stop still => rwa [reduceOnce_eq_self still]
  | again _ _ ih => exact ih

variable (chart) in
/-- The reduction is a run of at most one round more than there is in play. -/
theorem exists_runs_reduceFrom (start : Remainder) :
    ∃ rounds ≤ start.size + 1, chart.Runs rounds start (chart.reduceFrom start) := by
  fun_induction reduceFrom chart start with
  | case1 start next smaller ih =>
      obtain ⟨rounds, rounds_le, runs⟩ := ih
      exact ⟨rounds + 1, by omega, .again (changes_iff_size_lt.mpr smaller) runs⟩
  | case2 start next asMany =>
      have still : chart.changes start = false :=
        Bool.eq_false_of_not_eq_true fun changed => asMany (changes_iff_size_lt.mp changed)
      exact ⟨1, Nat.le_add_left 1 _, .stop still⟩

/-! ## What stays as it is during the rounds -/

/-- The targets in play are listed in ascending order, and no implicant is
selected twice or still in play after its selection. -/
structure Remainder.Orderly (remainder : Remainder) : Prop where
  targets : remainder.targets.Pairwise (· < ·)
  selected : remainder.selected.Nodup
  apart : remainder.selected.Disjoint remainder.implicants

theorem Remainder.Orderly.within {next remainder : Remainder} (orderly : remainder.Orderly)
    (within : next.Within remainder) (same : next.selected = remainder.selected) :
    next.Orderly where
  targets := orderly.targets.sublist within.targets
  selected := same ▸ orderly.selected
  apart := same ▸ List.disjoint_of_subset_right within.implicants.subset orderly.apart

theorem orderly_whole : chart.whole.Orderly :=
  ⟨List.pairwise_lt_range, List.nodup_nil, List.disjoint_nil_left _⟩

theorem Remainder.Orderly.selectEssentials (orderly : remainder.Orderly) :
    (chart.selectEssentials remainder).Orderly where
  targets := orderly.targets.sublist (within_selectEssentials chart remainder).targets
  selected := by
    refine orderly.selected.append ((IndexSet.pairwise_toList _).imp Nat.ne_of_lt) ?_
    intro implicant selected isEssential
    exact orderly.apart selected
      (mem_implicants_of_contains_essentials (IndexSet.mem_toList.mp isEssential))
  apart := by
    intro implicant selected inPlay
    obtain ⟨wasInPlay, notEssential⟩ := List.mem_filter.mp inPlay
    rcases List.mem_append.mp selected with before | now
    · exact orderly.apart before wasInPlay
    · simp [IndexSet.mem_toList.mp now] at notEssential

theorem Remainder.Orderly.reduceOnce (orderly : remainder.Orderly) :
    (chart.reduceOnce remainder).Orderly :=
  orderly.selectEssentials.within
    ((within_dropTargets chart _).trans (within_dropImplicants chart _)) rfl

theorem orderly_reduce : chart.reduce.Orderly :=
  reduceFrom_induction (fun _ orderly => orderly.reduceOnce) orderly_whole

/-! ## What a round without changes shows -/

theorem length_sweep_le {α : Type} (dominates : α → α → Bool) (pending : List α) :
    ∀ kept : List α, (sweep dominates kept pending).length ≤ kept.length + pending.length := by
  induction pending with
  | nil => simp [sweep]
  | cons member rest ih =>
      intro kept
      unfold sweep
      split
      · exact (ih kept).trans (Nat.add_le_add_left (Nat.le_succ _) _)
      · have := ih (member :: kept)
        rwa [List.length_cons, Nat.add_right_comm] at this

/-- If a sweep takes no pending member out, none of them is dominated by another
one, nor by a member that was kept before. -/
theorem undominated_of_sweep_eq {α : Type} {dominates : α → α → Bool} {pending : List α} :
    ∀ {kept : List α}, sweep dominates kept pending = kept.reverse ++ pending →
      pending.Pairwise (fun a b => dominates a b = false ∧ dominates b a = false) ∧
        ∀ other ∈ kept, ∀ member ∈ pending, dominates other member = false := by
  induction pending with
  | nil => simp
  | cons member rest ih =>
      intro kept same
      unfold sweep at same
      split at same
      · have shorter := length_sweep_le dominates rest kept
        rw [same] at shorter
        simp at shorter
      · rename_i undominated
        simp only [Bool.or_eq_true, List.any_eq_true, not_or, not_exists, not_and,
          Bool.not_eq_true] at undominated
        obtain ⟨byKept, byRest⟩ := undominated
        -- The member is kept from here on, so no pending one is dominated by it.
        obtain ⟨restPairwise, restUndominated⟩ := @ih (member :: kept) (by simpa using same)
        have memberPairwise : ∀ other ∈ rest,
            dominates member other = false ∧ dominates other member = false := fun other mem =>
          ⟨restUndominated member List.mem_cons_self other mem, byRest other mem⟩
        refine ⟨List.pairwise_cons.mpr ⟨memberPairwise, restPairwise⟩, ?_⟩
        intro other otherMem pending mem
        rcases List.mem_cons.mp mem with rfl | later
        · exact byKept other otherMem
        · exact restUndominated other (List.mem_cons_of_mem _ otherMem) pending later

/-- If a sweep takes nothing out, no member is dominated by another one. -/
theorem pairwise_of_sweep_eq_self {α : Type} {dominates : α → α → Bool} {members : List α}
    (same : sweep dominates [] members = members) :
    members.Pairwise fun a b => dominates a b = false ∧ dominates b a = false :=
  (undominated_of_sweep_eq same).1

/-- If no implicant is dropped, all of them cover something and no one is
dominated by another one. -/
theorem implicantLines_of_dropImplicants_eq
    (same : (chart.dropImplicants remainder).implicants = remainder.implicants) :
    (∀ line ∈ chart.implicantLines remainder, line.partners.isEmpty = false) ∧
      (chart.implicantLines remainder).Pairwise fun a b =>
        chart.implicantDominates a b = false ∧ chart.implicantDominates b a = false := by
  have length_eq := congrArg List.length (same.trans (map_index_implicantLines chart remainder).symm)
  simp only [dropImplicants, List.length_map] at length_eq
  have useful_eq : (chart.implicantLines remainder).filter (!·.partners.isEmpty) =
      chart.implicantLines remainder :=
    List.filter_sublist.eq_of_length_le (length_eq ▸ sweep_sublist.length_le)
  rw [useful_eq] at length_eq
  refine ⟨fun line mem => ?_, ?_⟩
  · simpa using List.filter_eq_self.mp useful_eq line mem
  · exact pairwise_of_sweep_eq_self (sweep_sublist.eq_of_length length_eq)

/-- If no target is dropped, no one is dominated by another one. -/
theorem targetLines_of_dropTargets_eq
    (same : (chart.dropTargets remainder).targets = remainder.targets) :
    (chart.targetLines remainder).Pairwise fun a b =>
      targetDominates a b = false ∧ targetDominates b a = false := by
  have length_eq := congrArg List.length (same.trans (map_index_targetLines chart remainder).symm)
  simp only [dropTargets, List.length_map] at length_eq
  exact pairwise_of_sweep_eq_self (sweep_sublist.eq_of_length length_eq)

/-! ## The cyclic core -/

/-- Where no implicant is essential, every target that is covered at all offers
a choice. -/
theorem two_le_length_of_isEmpty_essentials
    (none : (chart.essentials remainder).isEmpty = true)
    (covered : ∀ target ∈ remainder.targets,
      ∃ implicant ∈ remainder.implicants, chart.Covers implicant target)
    {clause : List Nat} (mem : clause ∈ chart.clauses remainder) : 2 ≤ clause.length := by
  obtain ⟨line, lineMem, rfl⟩ := List.mem_map.mp mem
  obtain ⟨target, targetMem, rfl⟩ := List.mem_map.mp lineMem
  obtain ⟨implicant, inPlay, covers⟩ := covered target targetMem
  by_contra few
  have alone := IndexSet.eq_single_of_length_toList_lt
    ((contains_partners_of_mem_targetLines lineMem implicant).mpr ⟨covers, inPlay⟩)
    (Nat.lt_of_not_le few)
  have isEssential := contains_essentials.mpr ⟨target, targetMem, alone⟩
  rw [IndexSet.isEmpty_iff.mp none implicant] at isEssential
  cases isEssential

/-- Where no target is covered along with another one, no clause contains
another one. -/
theorem pairwise_clauses (ascending : remainder.targets.Pairwise (· < ·))
    (undominated : (chart.targetLines remainder).Pairwise fun a b =>
      targetDominates a b = false ∧ targetDominates b a = false) :
    (chart.clauses remainder).Pairwise fun a b => ¬ a ⊆ b ∧ ¬ b ⊆ a := by
  have earlier : (chart.targetLines remainder).Pairwise fun a b => a.index < b.index :=
    List.pairwise_map.mp (map_index_targetLines chart remainder ▸ ascending)
  refine List.pairwise_map.mpr ((undominated.and earlier).imp ?_)
  rintro a b ⟨⟨notAB, notBA⟩, before⟩
  have notSubset : ¬ a.partners.subset b.partners = true := fun subset => by
    simp [targetDominates, subset, before] at notAB
  rw [IndexSet.toList_subset_iff, IndexSet.toList_subset_iff]
  refine ⟨notSubset, fun subset => ?_⟩
  have differ : b.partners ≠ a.partners := fun same =>
    notSubset (same ▸ IndexSet.subset_refl b.partners)
  simp [targetDominates, subset, differ] at notBA

/-- An implicant whose line is not empty covers a target in play. -/
theorem exists_target_of_nonempty (consistent : chart.Consistent)
    (nonempty : ∀ line ∈ chart.implicantLines remainder, line.partners.isEmpty = false)
    {implicant : Nat} (mem : implicant ∈ remainder.implicants) :
    ∃ target ∈ remainder.targets, chart.Covers implicant target := by
  obtain ⟨line, lineMem, rfl⟩ :=
    List.mem_map.mp (map_index_implicantLines chart remainder ▸ mem)
  have notEmpty := nonempty line lineMem
  rw [← Bool.not_eq_true, IndexSet.isEmpty_iff, not_forall] at notEmpty
  obtain ⟨target, partner⟩ := notEmpty
  obtain ⟨covers, targetMem⟩ :=
    (contains_partners_of_mem_implicantLines consistent lineMem target).mp
      (Bool.eq_true_of_not_eq_false partner)
  exact ⟨target, targetMem, covers⟩

/-- Where no implicant is dominated, the one of two that has no more literals
misses a target of the other one. -/
theorem exists_missed_target (consistent : chart.Consistent)
    (undominated : (chart.implicantLines remainder).Pairwise fun a b =>
      chart.implicantDominates a b = false ∧ chart.implicantDominates b a = false)
    {a b : Nat} (aMem : a ∈ remainder.implicants) (bMem : b ∈ remainder.implicants) (ne : a ≠ b)
    (le : chart.literalsOf a ≤ chart.literalsOf b) :
    ∃ target ∈ remainder.targets, chart.Covers b target ∧ ¬ chart.Covers a target := by
  obtain ⟨lineA, lineAMem, rfl⟩ :=
    List.mem_map.mp (map_index_implicantLines chart remainder ▸ aMem)
  obtain ⟨lineB, lineBMem, rfl⟩ :=
    List.mem_map.mp (map_index_implicantLines chart remainder ▸ bMem)
  have : Std.Symm fun a b => chart.implicantDominates a b = false ∧
      chart.implicantDominates b a = false := ⟨fun _ _ => And.symm⟩
  obtain ⟨notAB, notBA⟩ :=
    undominated.forall lineAMem lineBMem fun same => ne (congrArg Line.index same)
  by_contra! missed
  have subset : lineB.partners.subset lineA.partners = true := by
    refine IndexSet.subset_iff.mpr fun target partner => ?_
    obtain ⟨covers, targetMem⟩ :=
      (contains_partners_of_mem_implicantLines consistent lineBMem target).mp partner
    exact (contains_partners_of_mem_implicantLines consistent lineAMem target).mpr
      ⟨missed target targetMem covers, targetMem⟩
  -- Of two implicants that agree in targets and literals the later one is dominated.
  obtain ⟨⟨partners_eq, literals_eq⟩, notEarlier⟩ :
      (lineA.partners = lineB.partners ∧
        chart.literalsOf lineA.index = chart.literalsOf lineB.index) ∧
        lineB.index ≤ lineA.index := by
    simpa [implicantDominates, subset, le] using notAB
  have earlier : lineB.index < lineA.index := Nat.lt_of_le_of_ne notEarlier ne.symm
  simp [implicantDominates, partners_eq, literals_eq, earlier] at notBA

variable (chart) in
/-- Nothing can be taken out of play any more: every clause offers a choice and
contains no other clause, every implicant in play covers a target in play, and
one that another implicant cannot replace without more literals.  No implicant
was selected twice, and none of the selected ones is in a clause. -/
structure Settled (remainder : Remainder) : Prop where
  choices : ∀ clause ∈ chart.clauses remainder, clause.Pairwise (· < ·) ∧ 2 ≤ clause.length
  incomparable : (chart.clauses remainder).Pairwise fun a b => ¬ a ⊆ b ∧ ¬ b ⊆ a
  useful : ∀ implicant ∈ remainder.implicants,
    ∃ target ∈ remainder.targets, chart.Covers implicant target
  undominated : ∀ a ∈ remainder.implicants, ∀ b ∈ remainder.implicants, a ≠ b →
    chart.literalsOf a ≤ chart.literalsOf b →
      ∃ target ∈ remainder.targets, chart.Covers b target ∧ ¬ chart.Covers a target
  selected : remainder.selected.Nodup
  apart : ∀ clause ∈ chart.clauses remainder, remainder.selected.Disjoint clause

/-- A remainder that a round leaves as it is is settled, provided that all its
targets are covered. -/
theorem settled_of_changes_eq_false (consistent : chart.Consistent) (orderly : remainder.Orderly)
    (still : chart.changes remainder = false)
    (covered : ∀ target ∈ remainder.targets,
      ∃ implicant ∈ remainder.implicants, chart.Covers implicant target) :
    chart.Settled remainder := by
  obtain ⟨none, implicants_eq, targets_eq⟩ := changes_eq_false_iff.mp still
  obtain ⟨nonempty, undominated⟩ := implicantLines_of_dropImplicants_eq implicants_eq
  constructor
  case choices =>
    intro clause mem
    refine ⟨?_, two_le_length_of_isEmpty_essentials none covered mem⟩
    obtain ⟨line, -, rfl⟩ := List.mem_map.mp mem
    exact IndexSet.pairwise_toList _
  case incomparable =>
    exact pairwise_clauses orderly.targets (targetLines_of_dropTargets_eq targets_eq)
  case useful =>
    intro implicant mem
    exact exists_target_of_nonempty consistent nonempty mem
  case undominated =>
    intro a aMem b bMem ne le
    exact exists_missed_target consistent undominated aMem bMem ne le
  case selected => exact orderly.selected
  case apart =>
    intro clause mem implicant selected inClause
    exact orderly.apart selected (mem_implicants_of_mem_clause mem inClause)

variable {implicants : List Implicant} {targets : List Target}

theorem size_whole_ofLists :
    (ofLists implicants targets).whole.size = implicants.length + targets.length := by
  simp [Remainder.size, whole, ofLists]

/-- If every target is covered by some implicant, the reduction comes to an end
after at most one round more than there are implicants and targets.  What it
leaves is settled, and implicants in play that meet the clauses left, whichever
they are, complete the selected ones to a cover of all targets. -/
theorem reduce_ofLists_settled (coverable : ∀ target ∈ targets, ∃ implicant ∈ implicants,
      implicant.coversTarget target = true) :
    (∃ rounds ≤ implicants.length + targets.length + 1,
      (ofLists implicants targets).Runs rounds (ofLists implicants targets).whole
        (ofLists implicants targets).reduce) ∧
      (ofLists implicants targets).Settled (ofLists implicants targets).reduce ∧
      ∀ chosen : Finset Nat,
        (∀ index ∈ chosen, index ∈ (ofLists implicants targets).reduce.implicants) →
        Petrick.MeetsAll ((ofLists implicants targets).clauses
          (ofLists implicants targets).reduce) chosen →
        CoversAll implicants targets
          ((ofLists implicants targets).reduce.selected.toFinset ∪ chosen) := by
  have runs := (ofLists implicants targets).exists_runs_reduceFrom
    (ofLists implicants targets).whole
  rw [size_whole_ofLists] at runs
  have faithful : (ofLists implicants targets).Faithful (ofLists implicants targets).reduce :=
    faithful_reduce consistent_ofLists
  constructor
  · exact runs
  constructor
  · obtain ⟨rounds, -, run⟩ := runs
    obtain ⟨rest, solves, -⟩ := faithful.affords _ (Selection.solves_ofLists coverable 0)
    refine settled_of_changes_eq_false consistent_ofLists orderly_reduce
      run.changes_eq_false fun target mem => ?_
    obtain ⟨index, inRest, covers⟩ := solves.covers target mem
    exact ⟨index, solves.inPlay index inRest, covers⟩
  · intro chosen inPlay meetsAll
    exact solves_whole_iff.mp
      (faithful.completes chosen ((solves_iff_meetsAll inPlay).mpr meetsAll))

/-- The six implicants of a ring for one output, and three implicants of another
output of which the first one makes the other two superfluous. -/
def cascadeImplicants : List Implicant :=
  [⟨[.zero, .dash, .one], 1⟩, ⟨[.zero, .one, .dash], 1⟩, ⟨[.dash, .one, .zero], 1⟩,
    ⟨[.one, .dash, .zero], 1⟩, ⟨[.one, .zero, .dash], 1⟩, ⟨[.dash, .zero, .one], 1⟩,
    ⟨[.one, .one, .dash], 2⟩, ⟨[.one, .dash, .zero], 2⟩, ⟨[.dash, .one, .one], 2⟩]

/-- The six rows of the ring, and two rows of the other output, each of which two
implicants cover. -/
def cascadeTargets : List Target :=
  [⟨[.zero, .zero, .one], 0⟩, ⟨[.zero, .one, .zero], 0⟩, ⟨[.zero, .one, .one], 0⟩,
    ⟨[.one, .zero, .zero], 0⟩, ⟨[.one, .zero, .one], 0⟩, ⟨[.one, .one, .zero], 0⟩,
    ⟨[.one, .one, .zero], 1⟩, ⟨[.one, .one, .one], 1⟩]

/-- An implicant that becomes essential in the second round only is selected, and
the ring is left. -/
theorem cascade_settled :
    (∀ target ∈ cascadeTargets, ∃ implicant ∈ cascadeImplicants,
      implicant.coversTarget target = true) ∧
      (ofLists cascadeImplicants cascadeTargets).reduce =
        ⟨[0, 1, 2, 3, 4, 5], [0, 1, 2, 3, 4, 5], [6]⟩ ∧
      (ofLists cascadeImplicants cascadeTargets).Settled
        ⟨[0, 1, 2, 3, 4, 5], [0, 1, 2, 3, 4, 5], [6]⟩ ∧
      CoversAll cascadeImplicants cascadeTargets {6, 0, 2, 4} := by
  have coverable : ∀ target ∈ cascadeTargets, ∃ implicant ∈ cascadeImplicants,
      implicant.coversTarget target = true := by
    decide
  have reduce_eq : (ofLists cascadeImplicants cascadeTargets).reduce =
      ⟨[0, 1, 2, 3, 4, 5], [0, 1, 2, 3, 4, 5], [6]⟩ := by
    decide +kernel
  have clauses_eq : (ofLists cascadeImplicants cascadeTargets).clauses
      ⟨[0, 1, 2, 3, 4, 5], [0, 1, 2, 3, 4, 5], [6]⟩ =
        [[0, 5], [1, 2], [0, 1], [3, 4], [4, 5], [2, 3]] := by
    decide +kernel
  obtain ⟨-, settled, completes⟩ := reduce_ofLists_settled coverable
  rw [reduce_eq] at settled completes
  rw [clauses_eq] at completes
  have coversAll := completes {0, 2, 4} (by decide) (by simp [Petrick.MeetsAll])
  exact ⟨coverable, reduce_eq, settled, coversAll⟩

end Switching.Chart
