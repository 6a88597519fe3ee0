import Switching.Proofs.Expr.WrittenText

/-!
# The height of parsed expressions

Evaluation, writing and lowering go down an expression to its leaves, so the
height of the expression is the depth of their recursion.  The nesting limit
bounds the number of parentheses and negations around a point of the text, and
with it the number of changes of connective on a path to a leaf.  It does not
bound the length of a chain `a + b + c + …` of one connective: the operators of a
chain nest nothing, but each of them puts everything before it one level down.

A chain here is a maximal run of one connective that groups to the left, and a
negation counts as a chain of one operator.
-/

namespace Switching

open Grammar

namespace Expr

/-! ## Chains -/

/-- The connective at the root of an expression. -/
def connective? : Expr → Option Connective
  | .constant _ => none
  | .var _ => none
  | .not _ => none
  | .binary op _ _ => some op

/-- The number of chains that are entered on the way into the left operand of
`op`: none if the operand goes on with the chain of `op`. -/
def entered (op : Connective) (operand : Expr) : Nat :=
  if operand.connective? = some op then 0 else 1

/-- The largest number of chains on a path from the root to a leaf. -/
def chainHeight : Expr → Nat
  | .constant _ => 0
  | .var _ => 0
  | .not operand => operand.chainHeight + 1
  | .binary op left right => max (left.chainHeight + left.entered op) (right.chainHeight + 1)

/-- The number of operators in the chain at the root. -/
def chainLength : Expr → Nat
  | .constant _ => 0
  | .var _ => 0
  | .not _ => 1
  | .binary op left _ => if left.connective? = some op then left.chainLength + 1 else 1

/-- The number of operators in the longest chain of an expression. -/
def longestChain : Expr → Nat
  | .constant _ => 0
  | .var _ => 0
  | .not operand => max 1 operand.longestChain
  | .binary op left right =>
      max (binary op left right).chainLength (max left.longestChain right.longestChain)

theorem entered_le_one (op : Connective) (operand : Expr) : operand.entered op ≤ 1 := by
  unfold entered
  split <;> decide

@[simp]
theorem entered_binary_self (op : Connective) (left right : Expr) :
    (binary op left right).entered op = 0 :=
  if_pos rfl

theorem chainLength_le_longestChain (expr : Expr) : expr.chainLength ≤ expr.longestChain := by
  cases expr with
  | constant value => exact Nat.le_refl _
  | var name => exact Nat.le_refl _
  | not operand => exact Nat.le_max_left _ _
  | binary op left right => exact Nat.le_max_left _ _

/-! ## Chains and height -/

theorem chainLength_le_height (expr : Expr) : expr.chainLength ≤ expr.height := by
  induction expr with
  | constant value => exact Nat.le_refl _
  | var name => exact Nat.le_refl _
  | not operand _ => exact Nat.le_add_left _ _
  | binary op left right ihLeft _ =>
      have left_le : left.height ≤ max left.height right.height := Nat.le_max_left _ _
      simp only [chainLength, height]
      split <;> omega

/-- Every operator of a chain puts the operators before it one level down. -/
theorem longestChain_le_height (expr : Expr) : expr.longestChain ≤ expr.height := by
  induction expr with
  | constant value => exact Nat.le_refl _
  | var name => exact Nat.le_refl _
  | not operand ih =>
      simp only [longestChain, height]
      omega
  | binary op left right ihLeft ihRight =>
      have root_le := (binary op left right).chainLength_le_height
      simp only [longestChain, height] at root_le ⊢
      omega

theorem chainLength_eq_zero {expr : Expr} (flat : expr.chainHeight = 0) :
    expr.chainLength = 0 := by
  cases expr with
  | constant value => rfl
  | var name => rfl
  | not operand => cases flat
  | binary op left right =>
      have pos : 0 < (binary op left right).chainHeight :=
        Nat.lt_of_lt_of_le (Nat.succ_pos _) (Nat.le_max_right _ _)
      omega

/-- If a path goes down the chain at the root and then through chains of at most
`bound` operators each, then all of its chains have at most `bound`. -/
theorem height_le_mul_of_le_add {expr : Expr} {bound : Nat}
    (le : expr.height ≤ expr.chainLength + (expr.chainHeight - 1) * bound)
    (short : expr.longestChain ≤ bound) : expr.height ≤ expr.chainHeight * bound := by
  have root_short : expr.chainLength ≤ bound :=
    Nat.le_trans expr.chainLength_le_longestChain short
  cases chains : expr.chainHeight with
  | zero =>
      rw [chains, chainLength_eq_zero chains] at le
      simpa using le
  | succ below =>
      rw [chains, Nat.add_sub_cancel] at le
      rw [Nat.succ_mul]
      omega

/-- A path goes down the chain at the root, and then through chains of at most
`bound` operators each. -/
theorem height_le_chainLength_add {expr : Expr} {bound : Nat}
    (short : expr.longestChain ≤ bound) :
    expr.height ≤ expr.chainLength + (expr.chainHeight - 1) * bound := by
  induction expr with
  | constant value => exact Nat.zero_le _
  | var name => exact Nat.zero_le _
  | not operand ih =>
      have operand_short : operand.longestChain ≤ bound :=
        Nat.le_trans (Nat.le_max_right _ _) short
      have operand_le := height_le_mul_of_le_add (ih operand_short) operand_short
      simp only [height, chainLength, chainHeight, Nat.add_sub_cancel]
      omega
  | binary op left right ihLeft ihRight =>
      obtain ⟨-, left_short, right_short⟩ :
          (binary op left right).chainLength ≤ bound ∧ left.longestChain ≤ bound ∧
            right.longestChain ≤ bound := by
        simpa only [longestChain, Nat.max_le] using short
      have right_le : right.height ≤ right.chainHeight * bound :=
        height_le_mul_of_le_add (ihRight right_short) right_short
      have right_below : right.chainHeight * bound ≤
          ((binary op left right).chainHeight - 1) * bound := by
        apply Nat.mul_le_mul_right
        simp only [chainHeight]
        omega
      by_cases continues : left.connective? = some op
      · -- The left operand is the rest of the chain at the root.
        have left_le := ihLeft left_short
        have left_below : (left.chainHeight - 1) * bound ≤
            ((binary op left right).chainHeight - 1) * bound := by
          apply Nat.mul_le_mul_right
          simp only [chainHeight]
          omega
        simp only [height, chainLength, if_pos continues]
        omega
      · have left_le : left.height ≤ left.chainHeight * bound :=
          height_le_mul_of_le_add (ihLeft left_short) left_short
        have left_below : left.chainHeight * bound ≤
            ((binary op left right).chainHeight - 1) * bound := by
          apply Nat.mul_le_mul_right
          simp only [chainHeight, entered, if_neg continues]
          omega
        simp only [height, chainLength, if_neg continues]
        omega

/-- An expression is no higher than its chains are many, on one path, and long. -/
theorem height_le_chainHeight_mul (expr : Expr) :
    expr.height ≤ expr.chainHeight * expr.longestChain :=
  height_le_mul_of_le_add (height_le_chainLength_add (Nat.le_refl _)) (Nat.le_refl _)

end Expr

/-! ## Chains of derived expressions -/

/-- What the nesting allows at a level of the grammar: on the way to the next
parenthesis or negation, one chain for each connective that may still stand. -/
def Grammar.ChainsWithin (depth : Nat) (expr : Expr) : Level → Prop
  | .or => expr.chainHeight + expr.entered .or ≤ 3 * depth + 3
  | .xor => expr.chainHeight + expr.entered .xor ≤ 3 * depth + 2
  | .and => expr.chainHeight + expr.entered .and ≤ 3 * depth + 1
  | .unary => expr.chainHeight ≤ 3 * depth
  | .atom => expr.chainHeight ≤ 3 * depth

/-- Every level of the grammar adds at most one chain. -/
theorem Grammar.Derives.chainsWithin {level : Level} {depth : Nat} {tokens : List Token}
    {expr : Expr} (derives : Derives level depth tokens expr) :
    ChainsWithin depth expr level := by
  induction derives with
  | identifier kind => exact Nat.zero_le _
  | constant kind => exact Nat.zero_le _
  | paren opens closes _ ih =>
      simp only [ChainsWithin] at ih ⊢
      omega
  | atom _ ih => exact ih
  | not kind _ ih =>
      simp only [ChainsWithin, Expr.chainHeight] at ih ⊢
      omega
  | @unary _ _ expr _ ih =>
      have := expr.entered_le_one .and
      simp only [ChainsWithin] at ih ⊢
      omega
  | @product _ _ expr _ ih =>
      have := expr.entered_le_one .xor
      simp only [ChainsWithin] at ih ⊢
      omega
  | @difference _ _ expr _ ih =>
      have := expr.entered_le_one .or
      simp only [ChainsWithin] at ih ⊢
      omega
  | and _ _ _ ihLeft ihRight | xor _ _ _ ihLeft ihRight | or _ _ _ ihLeft ihRight =>
      simp only [ChainsWithin, Expr.chainHeight, Expr.entered_binary_self] at ihLeft ihRight ⊢
      omega

/-! ## Long chains -/

/-- The chain `a + a + … + a` with the given number of operators. -/
def Expr.sumOf (name : String) : Nat → Expr
  | 0 => .var name
  | operators + 1 => .or (sumOf name operators) (.var name)

namespace Expr

variable {name : String}

theorem height_sumOf (name : String) (operators : Nat) :
    (sumOf name operators).height = operators := by
  induction operators with
  | zero => rfl
  | succ operators ih => simp [sumOf, Expr.or, height, ih]

/-- All operators of the sum are in one chain. -/
theorem chainLength_sumOf (name : String) (operators : Nat) :
    (sumOf name operators).chainLength = operators := by
  induction operators with
  | zero => rfl
  | succ operators ih =>
      cases operators with
      | zero => rfl
      | succ below =>
          have continues : (sumOf name (below + 1)).connective? = some .or := rfl
          rw [sumOf, Expr.or, chainLength, if_pos continues, ih]

theorem longestChain_sumOf (name : String) (operators : Nat) :
    (sumOf name operators).longestChain = operators := by
  apply Nat.le_antisymm
  · have longest_le := (sumOf name operators).longestChain_le_height
    rwa [height_sumOf] at longest_le
  · have length_le := (sumOf name operators).chainLength_le_longestChain
    rwa [chainLength_sumOf] at length_le

theorem hasNames_sumOf (isName : IsName name) (operators : Nat) :
    (sumOf name operators).HasNames := by
  induction operators with
  | zero =>
      intro other occurs
      rwa [List.mem_singleton.mp occurs]
  | succ operators ih =>
      apply hasNames_binary.mpr
      constructor
      · exact ih
      · intro other occurs
        rwa [List.mem_singleton.mp occurs]

/-- A sum that groups to the left is written without parentheses. -/
theorem writtenNesting_sumOf (name : String) (operators : Nat) :
    (sumOf name operators).writtenNesting Connective.or.precedence = 0 := by
  induction operators with
  | zero => rfl
  | succ operators ih =>
      rw [sumOf, Expr.or, writtenNesting_binary, ih]
      rfl

theorem parse_render_sumOf (isName : IsName name) (operators : Nat) :
    parse (sumOf name operators).render = .ok (sumOf name operators) := by
  have names := hasNames_sumOf isName operators
  apply parse_render_of_points_le names
  apply (forall_points_le_iff names).mpr
  calc
    (sumOf name operators).writtenNesting 0
      ≤ (sumOf name operators).writtenNesting Connective.or.precedence :=
        writtenNesting_mono _ (Nat.zero_le _)
    _ = 0 := writtenNesting_sumOf name operators
    _ ≤ maxNesting := Nat.zero_le _

/-- The expression `¬(a + a + … + a)・c` with the given number of operators in its
sum. -/
def negatedSumOf (operators : Nat) : Expr :=
  .and (.not (sumOf "a" operators)) (.var "c")

theorem height_negatedSumOf (operators : Nat) :
    (negatedSumOf operators).height = operators + 2 := by
  simp [negatedSumOf, Expr.and, height, height_sumOf]

theorem longestChain_negatedSumOf (operators : Nat) :
    (negatedSumOf (operators + 1)).longestChain = operators + 1 := by
  have entry : (negatedSumOf (operators + 1)).chainLength = 1 := rfl
  rw [negatedSumOf, Expr.and] at entry ⊢
  simp only [longestChain, entry, longestChain_sumOf]
  omega

theorem parse_render_negatedSumOf (operators : Nat) :
    parse (negatedSumOf operators).render = .ok (negatedSumOf operators) := by
  have names : (negatedSumOf operators).HasNames := by
    apply hasNames_binary.mpr
    exact ⟨hasNames_sumOf (by decide) operators, by decide⟩
  apply parse_render_of_points_le names
  apply (forall_points_le_iff names).mpr
  have sum_le : (sumOf "a" operators).writtenNesting negationPrecedence ≤ 0 + 1 :=
    writtenNesting_sumOf "a" operators ▸ writtenNesting_le_succ _ _ Connective.or.precedence
  simp only [negatedSumOf, Expr.and, writtenNesting, Nat.not_lt_zero, if_false, maxNesting]
  omega

end Expr

/-! ## Height and text -/

/-- The nesting limit bounds the number of chains on a path of a parsed
expression, and so the height of the expression by a multiple of the length of its
longest chain.  The height is never less than that length. -/
theorem height_parse_le {text : String} {expr : Expr} (parsed : parse text = .ok expr) :
    expr.chainHeight ≤ 3 * (maxNesting + 1) ∧
      expr.height ≤ 3 * (maxNesting + 1) * expr.longestChain ∧
      expr.longestChain ≤ expr.height := by
  rcases Parser.run_eq_ok_iff.mp parsed with ⟨tokens, -, derives⟩
  have chains_le : expr.chainHeight ≤ 3 * (maxNesting + 1) := by
    have within : expr.chainHeight + expr.entered .or ≤ 3 * maxNesting + 3 :=
      derives.chainsWithin
    omega
  have height_le : expr.height ≤ 3 * (maxNesting + 1) * expr.longestChain :=
    calc
      expr.height ≤ expr.chainHeight * expr.longestChain := expr.height_le_chainHeight_mul
      _ ≤ 3 * (maxNesting + 1) * expr.longestChain := Nat.mul_le_mul_right _ chains_le
  exact ⟨chains_le, height_le, expr.longestChain_le_height⟩

/-- The height of a negated sum with a thousand operators is more than the nesting
limit alone allows, but not more than it allows for chains of that length. -/
theorem negatedSumOf_height_le :
    parse (Expr.negatedSumOf 1000).render = .ok (Expr.negatedSumOf 1000) ∧
      (Expr.negatedSumOf 1000).height = 1002 ∧
      (Expr.negatedSumOf 1000).longestChain = 1000 ∧
      3 * (maxNesting + 1) < (Expr.negatedSumOf 1000).height ∧
      (Expr.negatedSumOf 1000).chainHeight ≤ 3 * (maxNesting + 1) ∧
      (Expr.negatedSumOf 1000).height ≤
        3 * (maxNesting + 1) * (Expr.negatedSumOf 1000).longestChain ∧
      (Expr.negatedSumOf 1000).longestChain ≤ (Expr.negatedSumOf 1000).height := by
  have parsed := Expr.parse_render_negatedSumOf 1000
  have height_eq := Expr.height_negatedSumOf 1000
  have longest_eq := Expr.longestChain_negatedSumOf 999
  exact ⟨parsed, height_eq, longest_eq, height_eq ▸ by decide, height_parse_le parsed⟩

/-- No number bounds the height of parsed expressions. -/
theorem not_exists_forall_height_parse_le :
    ¬ ∃ bound : Nat, ∀ (text : String) (expr : Expr), parse text = .ok expr →
      expr.height ≤ bound := by
  rintro ⟨bound, bounded⟩
  have isName : IsName "a" := ⟨'a', [], rfl, rfl, nofun⟩
  have parsed := Expr.parse_render_sumOf isName (bound + 1)
  have height_le := bounded _ _ parsed
  rw [Expr.height_sumOf] at height_le
  omega

end Switching
