import Switching.Circuit.Lowering
import Switching.Expr.Eval
import Switching.Expr.Token

/-!
# Structural keys

The key of an expression is written over its connectives, brackets and commas
and over its names.  As long as no name contains a comma or a closing bracket, a
key can be read back, and expressions of equal keys are equal up to the order of
the operands of their connectives.  Without this restriction different
expressions may have one key.  Sharing then reads an expression as the one that
it merges into: every subexpression is taken to be the first one, in the order
of lowering, that has the same key.
-/

namespace Switching

theorem Connective.apply_comm (op : Connective) (left right : Bool) :
    op.apply left right = op.apply right left := by
  cases op <;> cases left <;> cases right <;> rfl

/-- A name that cannot be confused with what follows it in a key. -/
def IsPlainName (name : String) : Prop :=
  ',' ∉ name.toList ∧ ')' ∉ name.toList

/-- The names of the expression language are plain. -/
theorem isPlainName_of_isName {name : String} (isName : IsName name) : IsPlainName name := by
  obtain ⟨first, rest, toList_eq, starts, continues⟩ := isName
  have absent : ∀ char : Char, startsName char = false → continuesName char = false →
      char ∉ name.toList := by
    intro char noStart noRest mem
    rw [toList_eq] at mem
    rcases List.mem_cons.mp mem with rfl | later
    · exact Bool.false_ne_true (noStart.symm.trans starts)
    · exact Bool.false_ne_true (noRest.symm.trans (continues char later))
  exact ⟨absent _ (by decide) (by decide), absent _ (by decide) (by decide)⟩

namespace Expr

/-! ## Keys -/

/-- The structural key of an expression. -/
def key : Expr → String
  | .constant value => Lowering.constantKey value
  | .var name => Lowering.variableKey name
  | .not operand => Lowering.negationKey operand.key
  | .binary op left right =>
      if left.key ≤ right.key then Lowering.connectiveKey op left.key right.key
      else Lowering.connectiveKey op right.key left.key

theorem toList_constantKey (value : Bool) : (Lowering.constantKey value).toList =
    'c' :: 'o' :: 'n' :: 's' :: 't' :: ':' ::
      if value then ['t', 'r', 'u', 'e'] else ['f', 'a', 'l', 's', 'e'] := by
  cases value <;> rfl

theorem toList_variableKey (name : String) :
    (Lowering.variableKey name).toList = 'v' :: 'a' :: 'r' :: ':' :: name.toList := by
  simp [Lowering.variableKey]

theorem toList_negationKey (operand : String) :
    (Lowering.negationKey operand).toList =
      'n' :: 'o' :: 't' :: '(' :: (operand.toList ++ [')']) := by
  simp [Lowering.negationKey]

theorem toList_connectiveKey (op : Connective) (first second : String) :
    (Lowering.connectiveKey op first second).toList =
      op.name.toList ++ '(' :: (first.toList ++ ',' :: (second.toList ++ [')'])) := by
  simp [Lowering.connectiveKey]

/-- A key is longer than the keys that it is made of. -/
theorem length_lt_negationKey (operand : String) :
    operand.length < (Lowering.negationKey operand).length := by
  rw [← String.length_toList, ← String.length_toList, toList_negationKey]
  simp
  omega

theorem length_lt_connectiveKey (op : Connective) (first second : String) :
    first.length < (Lowering.connectiveKey op first second).length ∧
      second.length < (Lowering.connectiveKey op first second).length := by
  rw [← String.length_toList, ← String.length_toList, ← String.length_toList,
    toList_connectiveKey]
  simp
  omega

/-- The key of a connective lists the keys of the operands in one of the two
orders. -/
theorem exists_key_binary (op : Connective) (left right : Expr) :
    ∃ first second, (first = left ∧ second = right ∨ first = right ∧ second = left) ∧
      (Expr.binary op left right).key = Lowering.connectiveKey op first.key second.key := by
  rw [key]
  split
  · exact ⟨left, right, .inl ⟨rfl, rfl⟩, rfl⟩
  · exact ⟨right, left, .inr ⟨rfl, rfl⟩, rfl⟩

/-- The immediate subexpressions. -/
def operands : Expr → List Expr
  | .constant _ => []
  | .var _ => []
  | .not operand => [operand]
  | .binary _ left right => [left, right]

theorem length_key_lt {expr operand : Expr} (mem : operand ∈ expr.operands) :
    operand.key.length < expr.key.length := by
  cases expr with
  | constant value => cases mem
  | var name => cases mem
  | not inner =>
      obtain rfl := List.mem_singleton.mp mem
      exact length_lt_negationKey operand.key
  | binary op left right =>
      obtain ⟨first, second, order, key_eq⟩ := exists_key_binary op left right
      have bounds := length_lt_connectiveKey op first.key second.key
      have among : operand = first ∨ operand = second := by
        simp only [operands, List.mem_cons, List.not_mem_nil, or_false] at mem
        rcases order with ⟨rfl, rfl⟩ | ⟨rfl, rfl⟩
        · exact mem
        · exact mem.symm
      rw [key_eq]
      rcases among with rfl | rfl
      · exact bounds.1
      · exact bounds.2

/-- A key of a variable is the key of no other expression. -/
theorem eq_var_of_key_eq {expr : Expr} {name : String}
    (same : expr.key = Lowering.variableKey name) : expr = .var name := by
  have chars := congrArg String.toList same
  rw [toList_variableKey] at chars
  cases expr with
  | constant value => simp [key, toList_constantKey] at chars
  | var other =>
      simp only [key, toList_variableKey, List.cons.injEq, true_and] at chars
      rw [String.toList_inj.mp chars]
  | not operand => simp [key, toList_negationKey] at chars
  | binary op left right =>
      obtain ⟨first, second, -, key_eq⟩ := exists_key_binary op left right
      rw [key_eq, toList_connectiveKey] at chars
      cases op <;> simp [Connective.name] at chars

/-! ## Reading keys back -/

/-- All names of an expression are plain. -/
def Plain (expr : Expr) : Prop :=
  ∀ name ∈ expr.occurrences, IsPlainName name

theorem Plain.of_mem_operands {expr operand : Expr} (plain : expr.Plain)
    (mem : operand ∈ expr.operands) : operand.Plain := by
  intro name occurs
  cases expr with
  | constant value => cases mem
  | var other => cases mem
  | not inner =>
      obtain rfl := List.mem_singleton.mp mem
      exact plain name occurs
  | binary op left right =>
      simp only [operands, List.mem_cons, List.not_mem_nil, or_false] at mem
      rcases mem with rfl | rfl
      · exact plain name (List.mem_append_left _ occurs)
      · exact plain name (List.mem_append_right _ occurs)

/-- Equality up to the order of the operands of connectives, at any depth. -/
inductive Commuted : Expr → Expr → Prop
  | constant (value : Bool) : Commuted (.constant value) (.constant value)
  | var (name : String) : Commuted (.var name) (.var name)
  | not {operand other : Expr} (same : Commuted operand other) :
      Commuted (.not operand) (.not other)
  | straight {op : Connective} {left right otherLeft otherRight : Expr}
      (first : Commuted left otherLeft) (second : Commuted right otherRight) :
      Commuted (.binary op left right) (.binary op otherLeft otherRight)
  | crossed {op : Connective} {left right otherLeft otherRight : Expr}
      (first : Commuted left otherRight) (second : Commuted right otherLeft) :
      Commuted (.binary op left right) (.binary op otherLeft otherRight)

/-- The order of operands does not matter for the value. -/
theorem Commuted.denote_eq {expr other : Expr} (same : expr.Commuted other)
    (valuation : String → Bool) : expr.denote valuation = other.denote valuation := by
  induction same with
  | constant value => rfl
  | var name => rfl
  | not _ ih => rw [denote, denote, ih]
  | straight _ _ first second => rw [denote, denote, first, second]
  | crossed _ _ first second => rw [denote, denote, first, second, Connective.apply_comm]

/-- What can follow a key within another one. -/
def FollowsKey (rest : List Char) : Prop :=
  ∀ char ∈ rest.head?, char = ',' ∨ char = ')'

theorem followsKey_comma (rest : List Char) : FollowsKey (',' :: rest) := by
  simp [FollowsKey]

theorem followsKey_bracket (rest : List Char) : FollowsKey (')' :: rest) := by
  simp [FollowsKey]

theorem eq_of_name_append {name other : String} (plain : IsPlainName name)
    (otherPlain : IsPlainName other) {rest otherRest : List Char} (follows : FollowsKey rest)
    (otherFollows : FollowsKey otherRest)
    (same : name.toList ++ rest = other.toList ++ otherRest) :
    name = other ∧ rest = otherRest := by
  have split : ∀ {name : String} {rest : List Char}, IsPlainName name → FollowsKey rest →
      (name.toList ++ rest).takeWhile (fun char => char ≠ ',' ∧ char ≠ ')') = name.toList := by
    intro name rest plain follows
    rw [List.takeWhile_append_of_pos]
    · cases rest with
      | nil => simp
      | cons char rest =>
          rcases follows char rfl with rfl | rfl <;> simp
    · intro char mem
      have notComma : char ≠ ',' := fun comma => plain.1 (comma ▸ mem)
      have notBracket : char ≠ ')' := fun bracket => plain.2 (bracket ▸ mem)
      simp [notComma, notBracket]
  have names := congrArg (List.takeWhile fun char => char ≠ ',' ∧ char ≠ ')') same
  rw [split plain follows, split otherPlain otherFollows] at names
  rw [names] at same
  exact ⟨String.toList_inj.mp names, List.append_cancel_left same⟩

/-- The first character of a key, which shows how the expression is made. -/
def initial : Expr → Char
  | .constant _ => 'c'
  | .var _ => 'v'
  | .not _ => 'n'
  | .binary .and _ _ => 'a'
  | .binary .or _ _ => 'o'
  | .binary .xor _ _ => 'x'

theorem exists_toList_key (expr : Expr) : ∃ chars, expr.key.toList = expr.initial :: chars := by
  cases expr with
  | constant value => exact ⟨_, toList_constantKey value⟩
  | var name => exact ⟨_, toList_variableKey name⟩
  | not operand => exact ⟨_, toList_negationKey operand.key⟩
  | binary op left right =>
      obtain ⟨first, second, -, key_eq⟩ := exists_key_binary op left right
      rw [key_eq, toList_connectiveKey]
      cases op <;> exact ⟨_, rfl⟩

theorem initial_eq_of_key_append {expr other : Expr} {rest otherRest : List Char}
    (same : expr.key.toList ++ rest = other.key.toList ++ otherRest) :
    expr.initial = other.initial := by
  obtain ⟨chars, chars_eq⟩ := exists_toList_key expr
  obtain ⟨otherChars, otherChars_eq⟩ := exists_toList_key other
  rw [chars_eq, otherChars_eq] at same
  exact (List.cons.inj same).1

/-- The key of an expression can be told from what follows it, and tells the
expression up to the order of operands. -/
def ReadsBack (expr : Expr) : Prop :=
  ∀ (other : Expr) (rest otherRest : List Char), other.Plain → FollowsKey rest →
    FollowsKey otherRest → expr.key.toList ++ rest = other.key.toList ++ otherRest →
      expr.Commuted other ∧ rest = otherRest

/-- Expressions whose operands are listed in some order commute if the listed
operands do. -/
theorem Commuted.ofOrders {op : Connective} {left right first second : Expr}
    {otherLeft otherRight otherFirst otherSecond : Expr}
    (order : first = left ∧ second = right ∨ first = right ∧ second = left)
    (otherOrder : otherFirst = otherLeft ∧ otherSecond = otherRight ∨
      otherFirst = otherRight ∧ otherSecond = otherLeft)
    (firstSame : first.Commuted otherFirst) (secondSame : second.Commuted otherSecond) :
    (Expr.binary op left right).Commuted (.binary op otherLeft otherRight) := by
  rcases order with ⟨rfl, rfl⟩ | ⟨rfl, rfl⟩
  · rcases otherOrder with ⟨rfl, rfl⟩ | ⟨rfl, rfl⟩
    · exact .straight firstSame secondSame
    · exact .crossed firstSame secondSame
  · rcases otherOrder with ⟨rfl, rfl⟩ | ⟨rfl, rfl⟩
    · exact .crossed secondSame firstSame
    · exact .straight secondSame firstSame

theorem ReadsBack.constant (value : Bool) : (Expr.constant value).ReadsBack := by
  intro other rest otherRest otherPlain follows otherFollows same
  have initial_eq := initial_eq_of_key_append same
  cases other with
  | constant otherValue =>
      rw [key, key, toList_constantKey, toList_constantKey] at same
      cases value <;> cases otherValue <;> simp at same
      · exact ⟨.constant _, same⟩
      · exact ⟨.constant _, same⟩
  | binary otherOp otherLeft otherRight => cases otherOp <;> simp [initial] at initial_eq
  | _ => simp [initial] at initial_eq

theorem ReadsBack.var {name : String} (plain : IsPlainName name) :
    (Expr.var name).ReadsBack := by
  intro other rest otherRest otherPlain follows otherFollows same
  have initial_eq := initial_eq_of_key_append same
  cases other with
  | var otherName =>
      simp only [key, toList_variableKey, List.cons_append, List.cons.injEq, true_and] at same
      obtain ⟨rfl, rest_eq⟩ := eq_of_name_append plain
        (otherPlain otherName List.mem_cons_self) follows otherFollows same
      exact ⟨.var name, rest_eq⟩
  | binary otherOp otherLeft otherRight => cases otherOp <;> simp [initial] at initial_eq
  | _ => simp [initial] at initial_eq

theorem ReadsBack.not {operand : Expr} (reads : operand.ReadsBack) :
    (Expr.not operand).ReadsBack := by
  intro other rest otherRest otherPlain follows otherFollows same
  have initial_eq := initial_eq_of_key_append same
  cases other with
  | not otherOperand =>
      simp only [key, toList_negationKey, List.cons_append, List.cons.injEq, true_and,
        List.append_assoc, List.nil_append] at same
      obtain ⟨operandSame, rest_eq⟩ := reads otherOperand _ _ otherPlain
        (followsKey_bracket rest) (followsKey_bracket otherRest) same
      exact ⟨.not operandSame, (List.cons.inj rest_eq).2⟩
  | binary otherOp otherLeft otherRight => cases otherOp <;> simp [initial] at initial_eq
  | _ => simp [initial] at initial_eq

theorem ReadsBack.binary (op : Connective) {left right : Expr} (readsLeft : left.ReadsBack)
    (readsRight : right.ReadsBack) : (Expr.binary op left right).ReadsBack := by
  intro other rest otherRest otherPlain follows otherFollows same
  have initial_eq := initial_eq_of_key_append same
  cases other with
  | binary otherOp otherLeft otherRight =>
      obtain rfl : op = otherOp := by
        cases op <;> cases otherOp <;> first | rfl | simp [initial] at initial_eq
      obtain ⟨first, second, order, key_eq⟩ := exists_key_binary op left right
      obtain ⟨otherFirst, otherSecond, otherOrder, otherKey_eq⟩ :=
        exists_key_binary op otherLeft otherRight
      simp only [key_eq, otherKey_eq, toList_connectiveKey, List.append_assoc, List.cons_append,
        List.nil_append, List.append_cancel_left_eq, List.cons.injEq, true_and] at same
      obtain ⟨readsFirst, readsSecond⟩ : first.ReadsBack ∧ second.ReadsBack := by
        rcases order with ⟨rfl, rfl⟩ | ⟨rfl, rfl⟩
        · exact ⟨readsLeft, readsRight⟩
        · exact ⟨readsRight, readsLeft⟩
      have operandsPlain : ∀ operand ∈ (Expr.binary op otherLeft otherRight).operands,
          operand.Plain := fun _ mem => otherPlain.of_mem_operands mem
      obtain ⟨otherFirstPlain, otherSecondPlain⟩ : otherFirst.Plain ∧ otherSecond.Plain := by
        rcases otherOrder with ⟨rfl, rfl⟩ | ⟨rfl, rfl⟩ <;>
          exact ⟨operandsPlain _ (by simp [operands]), operandsPlain _ (by simp [operands])⟩
      obtain ⟨firstSame, afterFirst⟩ := readsFirst otherFirst _ _ otherFirstPlain
        (followsKey_comma _) (followsKey_comma _) same
      obtain ⟨secondSame, afterSecond⟩ := readsSecond otherSecond _ _ otherSecondPlain
        (followsKey_bracket _) (followsKey_bracket _) (List.cons.inj afterFirst).2
      exact ⟨.ofOrders order otherOrder firstSame secondSame, (List.cons.inj afterSecond).2⟩
  | _ => cases op <;> simp [initial] at initial_eq

/-- Plain keys can be read back: their first characters tell how the
expressions are made. -/
theorem Plain.readsBack {expr : Expr} (plain : expr.Plain) : expr.ReadsBack := by
  induction expr with
  | constant value => exact .constant value
  | var name => exact .var (plain name List.mem_cons_self)
  | not operand ih => exact .not (ih plain)
  | binary op left right ihLeft ihRight =>
      have leftPlain : left.Plain := plain.of_mem_operands (by simp [operands])
      have rightPlain : right.Plain := plain.of_mem_operands (by simp [operands])
      exact .binary op (ihLeft leftPlain) (ihRight rightPlain)

/-- Plain expressions with equal keys are equal up to the order of operands. -/
theorem commuted_of_key_eq {expr other : Expr} (plain : expr.Plain) (otherPlain : other.Plain)
    (same : expr.key = other.key) : expr.Commuted other := by
  have followsNothing : FollowsKey [] := by simp [FollowsKey]
  exact (plain.readsBack other [] [] otherPlain followsNothing followsNothing
    (congrArg (·.toList ++ []) same)).1

/-- The key of a connective does not depend on the order of its operands. -/
theorem key_binary_comm (op : Connective) (left right : Expr) :
    (Expr.binary op left right).key = (Expr.binary op right left).key := by
  rw [key, key]
  split
  · rename_i le
    split
    · rename_i ge
      rw [String.le_antisymm le ge]
    · rfl
  · rename_i notLe
    rw [if_pos ((String.le_total _ _).resolve_left notLe)]

theorem Commuted.key_eq {expr other : Expr} (same : expr.Commuted other) :
    expr.key = other.key := by
  induction same with
  | constant value => rfl
  | var name => rfl
  | not _ ih => rw [key, key, ih]
  | straight _ _ first second => rw [key, key, first, second]
  | crossed _ _ first second => rw [key_binary_comm, key, key, first, second]

/-- The keys of plain expressions are equal exactly if the expressions are equal
up to the order of operands. -/
theorem Plain.key_eq_iff_commuted {expr other : Expr} (plain : expr.Plain)
    (otherPlain : other.Plain) : expr.key = other.key ↔ expr.Commuted other :=
  ⟨commuted_of_key_eq plain otherPlain, Commuted.key_eq⟩

theorem Commuted.refl (expr : Expr) : expr.Commuted expr := by
  induction expr with
  | constant value => exact .constant value
  | var name => exact .var name
  | not operand ih => exact .not ih
  | binary op left right ihLeft ihRight => exact .straight ihLeft ihRight

theorem Commuted.symm {expr other : Expr} (same : expr.Commuted other) : other.Commuted expr := by
  induction same with
  | constant value => exact .constant value
  | var name => exact .var name
  | not _ ih => exact .not ih
  | straight _ _ first second => exact .straight first second
  | crossed _ _ first second => exact .crossed second first

theorem Commuted.trans {expr middle other : Expr} (first : expr.Commuted middle)
    (second : middle.Commuted other) : expr.Commuted other := by
  induction first generalizing other with
  | constant value => exact second
  | var name => exact second
  | not _ ih =>
      cases second with
      | not same => exact .not (ih same)
  | straight _ _ left right =>
      cases second with
      | straight first second => exact .straight (left first) (right second)
      | crossed first second => exact .crossed (left first) (right second)
  | crossed _ _ left right =>
      cases second with
      | straight first second => exact .crossed (left second) (right first)
      | crossed first second => exact .straight (left second) (right first)

/-- Expressions, with those that are equal up to the order of operands taken as
equivalent. -/
def commutedSetoid : Setoid Expr :=
  ⟨Commuted, Commuted.refl, Commuted.symm, Commuted.trans⟩

/-! ## Merged expressions -/

/-- The subexpressions in the order in which they are lowered, operands
first. -/
def parts : Expr → List Expr
  | .constant value => [.constant value]
  | .var name => [.var name]
  | .not operand => operand.parts ++ [.not operand]
  | .binary op left right => left.parts ++ right.parts ++ [.binary op left right]

/-- A list of expressions that contains the operands of its members. -/
def Closed (exprs : List Expr) : Prop :=
  ∀ expr ∈ exprs, ∀ operand ∈ expr.operands, operand ∈ exprs

theorem mem_parts_self (expr : Expr) : expr ∈ expr.parts := by
  cases expr <;> simp [parts]

theorem Closed.concat {exprs : List Expr} (closed : Closed exprs) {expr : Expr}
    (operandsMem : ∀ operand ∈ expr.operands, operand ∈ exprs) : Closed (exprs ++ [expr]) := by
  intro other mem operand operandMem
  rcases List.mem_append.mp mem with mem | mem
  · exact List.mem_append_left _ (closed other mem operand operandMem)
  · obtain rfl := List.mem_singleton.mp mem
    exact List.mem_append_left _ (operandsMem operand operandMem)

/-- The parts of a plain expression are plain. -/
theorem Plain.of_mem_parts {expr part : Expr} (plain : expr.Plain) (mem : part ∈ expr.parts) :
    part.Plain := by
  induction expr with
  | constant value => exact List.mem_singleton.mp mem ▸ plain
  | var name => exact List.mem_singleton.mp mem ▸ plain
  | not operand ih =>
      rcases List.mem_append.mp mem with inOperand | self
      · exact ih (plain.of_mem_operands List.mem_cons_self) inOperand
      · exact List.mem_singleton.mp self ▸ plain
  | binary op left right ihLeft ihRight =>
      rcases List.mem_append.mp mem with inOperands | self
      · rcases List.mem_append.mp inOperands with inLeft | inRight
        · exact ihLeft (plain.of_mem_operands List.mem_cons_self) inLeft
        · exact ihRight
            (plain.of_mem_operands (List.mem_cons_of_mem _ List.mem_cons_self)) inRight
      · exact List.mem_singleton.mp self ▸ plain

/-- The first expression of a list that has the key of the given one. -/
def representative (exprs : List Expr) (expr : Expr) : Expr :=
  (exprs.find? fun other => other.key = expr.key).getD expr

theorem key_representative (exprs : List Expr) (expr : Expr) :
    (representative exprs expr).key = expr.key := by
  unfold representative
  cases found : exprs.find? fun other => other.key = expr.key with
  | none => rfl
  | some other => simpa using List.find?_some found

theorem representative_cases (exprs : List Expr) (expr : Expr) :
    representative exprs expr ∈ exprs ∨ representative exprs expr = expr := by
  unfold representative
  cases found : exprs.find? fun other => other.key = expr.key with
  | none => exact .inr rfl
  | some other => exact .inl (List.mem_of_find?_eq_some found)

/-- Where a key occurs, the key alone decides on the representative, whatever
follows in the list. -/
theorem representative_eq_of_key_eq {exprs : List Expr} {member expr : Expr}
    (mem : member ∈ exprs) (same : member.key = expr.key) (more : List Expr) :
    representative (exprs ++ more) expr = representative exprs member := by
  unfold representative
  rw [same, List.find?_append]
  cases found : exprs.find? fun other => other.key = expr.key with
  | none => exact absurd same (by simpa using List.find?_eq_none.mp found member mem)
  | some other => rfl

/-- An expression of a new key represents itself. -/
theorem representative_of_new {exprs : List Expr} {expr : Expr}
    (new : ∀ other ∈ exprs, other.key ≠ expr.key) (more : List Expr) :
    representative (exprs ++ expr :: more) expr = expr := by
  have notFound : (exprs.find? fun other => other.key = expr.key) = none :=
    List.find?_eq_none.mpr fun other mem => by simpa using new other mem
  simp [representative, List.find?_append, notFound]

/-- An expression of the same kind over other operands. -/
def mapOperands (change : Expr → Expr) : Expr → Expr
  | .constant value => .constant value
  | .var name => .var name
  | .not operand => .not (change operand)
  | .binary op left right => .binary op (change left) (change right)

theorem mapOperands_congr {first second : Expr → Expr} {expr : Expr}
    (same : ∀ operand ∈ expr.operands, first operand = second operand) :
    expr.mapOperands first = expr.mapOperands second := by
  cases expr with
  | constant value => rfl
  | var name => rfl
  | not operand => rw [mapOperands, mapOperands, same operand (by simp [operands])]
  | binary op left right =>
      rw [mapOperands, mapOperands, same left (by simp [operands]),
        same right (by simp [operands])]

theorem denote_mapOperands {change : Expr → Expr} {valuation : String → Bool} {expr : Expr}
    (same : ∀ operand ∈ expr.operands,
      (change operand).denote valuation = operand.denote valuation) :
    (expr.mapOperands change).denote valuation = expr.denote valuation := by
  cases expr with
  | constant value => rfl
  | var name => rfl
  | not operand => rw [mapOperands, denote, denote, same operand (by simp [operands])]
  | binary op left right =>
      rw [mapOperands, denote, denote, same left (by simp [operands]),
        same right (by simp [operands])]

/-- The expression that an expression merges into: every subexpression is the
first one of its key. -/
def merged (exprs : List Expr) (expr : Expr) : Expr :=
  match _same : representative exprs expr with
  | .constant value => .constant value
  | .var name => .var name
  | .not operand => .not (merged exprs operand)
  | .binary op left right => .binary op (merged exprs left) (merged exprs right)
termination_by expr.key.length
decreasing_by
  all_goals
    rw [← key_representative exprs expr, _same]
    exact length_key_lt (by simp [operands])

/-- The representative of an expression, with its operands merged. -/
theorem merged_eq (exprs : List Expr) (expr : Expr) :
    merged exprs expr = (representative exprs expr).mapOperands (merged exprs) := by
  rw [merged]
  split <;> rename_i shape <;> rw [shape] <;> rfl

theorem merged_var (exprs : List Expr) (name : String) : merged exprs (.var name) = .var name := by
  have same : representative exprs (.var name) = .var name :=
    eq_var_of_key_eq (key_representative exprs (.var name))
  rw [merged_eq, same, mapOperands]

/-- Expressions of one key merge into the same one. -/
theorem merged_eq_of_key_eq {exprs : List Expr} {member expr : Expr} (mem : member ∈ exprs)
    (same : member.key = expr.key) (more : List Expr) :
    merged (exprs ++ more) expr = merged (exprs ++ more) member := by
  rw [merged_eq, merged_eq (exprs ++ more) member, representative_eq_of_key_eq mem same,
    representative_eq_of_key_eq mem rfl]

/-- What follows in the list has no influence on a member of a closed list. -/
theorem Closed.merged_append {exprs : List Expr} (closed : Closed exprs) (more : List Expr)
    {expr : Expr} (mem : expr ∈ exprs) : merged (exprs ++ more) expr = merged exprs expr := by
  -- The operands of a representative have shorter keys and are members again.
  induction length_eq : expr.key.length using Nat.strongRecOn generalizing expr with
  | ind length ih =>
      rw [merged_eq, merged_eq, representative_eq_of_key_eq mem rfl]
      refine mapOperands_congr fun operand operandMem => ?_
      have representativeMem : representative exprs expr ∈ exprs := by
        rcases representative_cases exprs expr with among | self
        · exact among
        · exact self.symm ▸ mem
      have shorter := length_key_lt operandMem
      rw [key_representative, length_eq] at shorter
      exact ih _ shorter (closed _ representativeMem operand operandMem) rfl

/-- Plain expressions keep their values when they are merged. -/
theorem denote_merged_of_plain {exprs : List Expr} (plainExprs : ∀ expr ∈ exprs, expr.Plain)
    {expr : Expr} (plain : expr.Plain) (valuation : String → Bool) :
    (merged exprs expr).denote valuation = expr.denote valuation := by
  induction length_eq : expr.key.length using Nat.strongRecOn generalizing expr with
  | ind length ih =>
      have representativePlain : (representative exprs expr).Plain := by
        rcases representative_cases exprs expr with among | self
        · exact plainExprs _ among
        · exact self.symm ▸ plain
      have commuted := commuted_of_key_eq representativePlain plain (key_representative exprs expr)
      rw [merged_eq, ← commuted.denote_eq valuation]
      refine denote_mapOperands fun operand operandMem => ?_
      have shorter := length_key_lt operandMem
      rw [key_representative, length_eq] at shorter
      exact ih _ shorter (representativePlain.of_mem_operands operandMem) rfl

end Expr

end Switching
