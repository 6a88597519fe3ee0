import Switching.Circuit.Lowering
import Switching.Circuit.Tree
import Switching.Proofs.Circuit.Mapping
import Switching.Proofs.Expr.WrittenText

/-!
# Written trees compute what their texts say

A tree joins any number of operands without telling how they are grouped, and
leaves out the parentheses around operands of its own precedence, so the
expression that is read from its text need not have the shape of the tree.  All
groupings of a chain of one connective have the same values, though, which is
all that the text of a tree is to keep.
-/

namespace Switching

open Grammar

/-! ## Chains -/

theorem Connective.apply_assoc (op : Connective) (first second third : Bool) :
    op.apply (op.apply first second) third = op.apply first (op.apply second third) := by
  cases op <;> cases first <;> cases second <;> cases third <;> rfl

/-- The gate of a connective joins its first operand to the value of the others. -/
theorem Connective.apply_gateKind_cons (op : Connective) (value : Bool) (values : List Bool) :
    op.gateKind.apply (value :: values) = op.apply value (op.gateKind.apply values) := by
  cases op with
  | and => exact GateKind.apply_and_cons value values
  | or => exact GateKind.apply_or_cons value values
  | xor => exact GateKind.apply_xor_cons value values

theorem Connective.apply_gateKind_singleton (op : Connective) (value : Bool) :
    op.gateKind.apply [value] = value := by
  cases op <;> cases value <;> rfl

/-- The kind of gate that negates a connective. -/
def Connective.negatedKind : Connective → GateKind
  | .and => .nand
  | .or => .nor
  | .xor => .xnor

theorem Connective.apply_negatedKind (op : Connective) (values : List Bool) :
    op.negatedKind.apply values = !op.gateKind.apply values := by
  obtain ⟨nand_eq, nor_eq, xnor_eq⟩ := GateKind.apply_negated values
  cases op with
  | and => exact nand_eq
  | or => exact nor_eq
  | xor => exact xnor_eq

/-- A kind of gate is that of a connective, that of a negated connective, `buf`,
`not` or a constant. -/
theorem GateKind.kind_cases (kind : GateKind) :
    (∃ op : Connective, kind = op.gateKind ∨ kind = op.negatedKind) ∨
      kind = .buf ∨ kind = .not ∨ kind.isConstant = true := by
  cases kind with
  | and => exact .inl ⟨.and, .inl rfl⟩
  | or => exact .inl ⟨.or, .inl rfl⟩
  | xor => exact .inl ⟨.xor, .inl rfl⟩
  | nand => exact .inl ⟨.and, .inr rfl⟩
  | nor => exact .inl ⟨.or, .inr rfl⟩
  | xnor => exact .inl ⟨.xor, .inr rfl⟩
  | buf => exact .inr (.inl rfl)
  | not => exact .inr (.inr (.inl rfl))
  | vcc | gnd => exact .inr (.inr (.inr rfl))

namespace Grammar

variable {op : Connective} {nesting : Nat} {token : Token} {tokens front back : List Token}
  {expr left right : Expr}

/-- At the level of a connective there stands a tighter expression, or an
operation of the connective. -/
theorem Derives.operand_or_operation
    (derives : Derives (levelFor op.precedence) nesting tokens expr) :
    Derives (levelFor (op.precedence + 1)) nesting tokens expr ∨
      ∃ front token back left right, Parser.connective? token.kind = some op ∧
        Derives (levelFor op.precedence) nesting front left ∧
        Derives (levelFor (op.precedence + 1)) nesting back right ∧
        tokens = front ++ token :: back ∧ expr = .binary op left right := by
  cases op with
  | and =>
      cases derives with
      | unary derives => exact .inl derives
      | and kind derivesLeft derivesRight =>
          exact .inr ⟨_, _, _, _, _, by rw [kind]; rfl, derivesLeft, derivesRight, rfl, rfl⟩
  | or =>
      cases derives with
      | difference derives => exact .inl derives
      | or kind derivesLeft derivesRight =>
          exact .inr ⟨_, _, _, _, _, by rw [kind]; rfl, derivesLeft, derivesRight, rfl, rfl⟩
  | xor =>
      cases derives with
      | product derives => exact .inl derives
      | xor kind derivesLeft derivesRight =>
          exact .inr ⟨_, _, _, _, _, by rw [kind]; rfl, derivesLeft, derivesRight, rfl, rfl⟩

/-- Two chains of one connective are joined into one chain, in which the
operands are grouped anew. -/
theorem Derives.exists_chain (connects : Parser.connective? token.kind = some op)
    (derivesLeft : Derives (levelFor op.precedence) nesting front left)
    (derivesRight : Derives (levelFor op.precedence) nesting back right) :
    ∃ expr, Derives (levelFor op.precedence) nesting (front ++ token :: back) expr ∧
      expr.occurrences = left.occurrences ++ right.occurrences ∧
      ∀ valuation, expr.denote valuation =
        op.apply (left.denote valuation) (right.denote valuation) := by
  -- The right chain is a left operand and a tight one, so its left operand is a
  -- shorter chain; the tight one goes behind everything else.
  induction length_eq : back.length using Nat.strongRecOn generalizing back right with
  | ind length ih =>
      rcases derivesRight.operand_or_operation with
        tight | ⟨first, inner, last, leftOf, rightOf, innerConnects, derivesFirst, derivesLast,
          rfl, rfl⟩
      · exact ⟨_, .binary connects derivesLeft tight, rfl, fun _ => rfl⟩
      · have shorter : first.length < length := by
          rw [← length_eq, List.length_append, List.length_cons]
          omega
        obtain ⟨joined, derives, occurrences_eq, denote_eq⟩ :=
          ih first.length shorter derivesFirst rfl
        refine ⟨.binary op joined rightOf, ?_, ?_, fun valuation => ?_⟩
        · have regrouped := Derives.binary innerConnects derives derivesLast
          rwa [List.append_assoc, List.cons_append] at regrouped
        · rw [Expr.occurrences, Expr.occurrences, occurrences_eq, List.append_assoc]
        · rw [Expr.denote, Expr.denote, denote_eq, Connective.apply_assoc]

end Grammar

/-! ## Texts with values -/

/-- A text is read, wherever it stands, as an expression over some names with
the given values. -/
def Expresses (names : List String) (floor nesting : Nat) (text : String)
    (value : (String → Bool) → Bool) : Prop :=
  Tokenizes text fun tokens => ∃ expr, Derives (levelFor floor) nesting tokens expr ∧
    (∀ name ∈ expr.occurrences, name ∈ names) ∧
    ∀ valuation, expr.denote valuation = value valuation

namespace Expresses

variable {names : List String} {floor nesting : Nat} {text : String}
  {value : (String → Bool) → Bool}

theorem constant (floor : Nat) (value : Bool) :
    Expresses names floor 0 (constantText value) fun _ => value := by
  refine (Tokenizes.constant value).imp ?_
  rintro _ ⟨position, rfl⟩
  exact ⟨.constant value, (derives_constant value position).levelFor_of_unary floor, nofun,
    fun _ => rfl⟩

theorem input (floor : Nat) {name : String} (isName : IsName name) (mem : name ∈ names) :
    Expresses names floor 0 name fun valuation => valuation name := by
  refine (Tokenizes.name isName).imp ?_
  rintro _ ⟨position, rfl⟩
  have derives : Derives .atom 0 [⟨.identifier, name, position⟩] (.var name) := .identifier rfl
  exact ⟨.var name, derives.atom.levelFor_of_unary floor, List.forall_mem_singleton.mpr mem,
    fun _ => rfl⟩

theorem not (floor : Nat) (expresses : Expresses names 4 nesting text value) :
    Expresses names floor (nesting + 1) ("¬" ++ text) fun valuation => !value valuation := by
  refine (Tokenizes.not expresses).imp ?_
  rintro _ ⟨token, inner, kind, ⟨expr, derives, declared, denote_eq⟩, rfl⟩
  refine ⟨.not expr, (Derives.not kind derives).levelFor_of_unary floor, declared, ?_⟩
  intro valuation
  rw [Expr.denote, denote_eq]

theorem paren (floor : Nat) (expresses : Expresses names 0 nesting text value) :
    Expresses names floor (nesting + 1) (CircuitTree.parenthesize text) value := by
  refine (Tokenizes.paren expresses).imp ?_
  rintro _ ⟨opening, inner, closing, opens, closes, ⟨expr, derives, declared, denote_eq⟩, rfl⟩
  exact ⟨expr, (Derives.paren opens closes derives).atom.levelFor_of_unary floor, declared,
    denote_eq⟩

theorem loosen {higher : Nat} (expresses : Expresses names higher nesting text value)
    (le : floor ≤ higher) : Expresses names floor nesting text value := by
  refine Tokenizes.imp expresses ?_
  rintro tokens ⟨expr, derives, declared, denote_eq⟩
  exact ⟨expr, derives.loosen le, declared, denote_eq⟩

/-- Two texts that bind as tightly as a connective are joined by it. -/
theorem join {op : Connective} {separator other : String} {otherNesting : Nat}
    {otherValue : (String → Bool) → Bool} (spelledBy : op.SpelledBy separator)
    (expresses : Expresses names op.precedence nesting text value)
    (otherExpresses : Expresses names op.precedence otherNesting other otherValue) :
    Expresses names op.precedence (max nesting otherNesting) (text ++ separator ++ other)
      fun valuation => op.apply (value valuation) (otherValue valuation) := by
  refine (Tokenizes.binary spelledBy expresses otherExpresses).imp ?_
  rintro _ ⟨front, token, back, connects, ⟨left, derivesLeft, leftDeclared, left_eq⟩,
    ⟨right, derivesRight, rightDeclared, right_eq⟩, rfl⟩
  obtain ⟨expr, derives, occurrences_eq, denote_eq⟩ := Derives.exists_chain connects
    (derivesLeft.mono (Nat.le_max_left nesting otherNesting))
    (derivesRight.mono (Nat.le_max_right nesting otherNesting))
  refine ⟨expr, derives, ?_, fun valuation => ?_⟩
  · rw [occurrences_eq]
    exact List.forall_mem_append.mpr ⟨leftDeclared, rightDeclared⟩
  · rw [denote_eq, left_eq, right_eq]

end Expresses

namespace CircuitTree

/-! ## Trees -/

mutual

/-- The value of a tree, given those of the inputs. -/
def denote (valuation : String → Bool) : CircuitTree → Bool
  | .input name => valuation name
  | .constant value _ => value
  | .gate id children => id.kind.apply (denoteAll valuation children)

/-- The values of trees. -/
def denoteAll (valuation : String → Bool) : List CircuitTree → List Bool
  | [] => []
  | child :: rest => child.denote valuation :: denoteAll valuation rest

end

/-- The text of an operand, for a place that requires the precedence `floor`. -/
def operandText (floor : Nat) (child : CircuitTree) : String :=
  if child.precedence < floor then parenthesize child.render else child.render

theorem renderJoined_singleton (separator : String) (floor : Nat) (child : CircuitTree) :
    renderJoined separator floor [child] = operandText floor child := by
  rw [renderJoined, operandText]

theorem renderJoined_cons_cons (separator : String) (floor : Nat) (child next : CircuitTree)
    (others : List CircuitTree) :
    renderJoined separator floor (child :: next :: others) =
      operandText floor child ++ separator ++ renderJoined separator floor (next :: others) := by
  rw [renderJoined, operandText]

/-- The nesting of an operand, for a place that requires the precedence
`floor`. -/
def operandNesting (floor : Nat) (child : CircuitTree) : Nat :=
  if child.precedence < floor then child.writtenNesting + 1 else child.writtenNesting

theorem joinedNesting_cons (floor : Nat) (child : CircuitTree) (rest : List CircuitTree) :
    joinedNesting floor (child :: rest) =
      max (operandNesting floor child) (joinedNesting floor rest) := by
  rw [joinedNesting, operandNesting]

theorem joinedNesting_singleton (floor : Nat) (child : CircuitTree) :
    joinedNesting floor [child] = operandNesting floor child := by
  rw [joinedNesting_cons, joinedNesting, Nat.max_zero]

/-- A tree over some inputs, in which every gate has an admissible number of
operands. -/
inductive Fits (names : List String) : CircuitTree → Prop
  | input {name : String} (mem : name ∈ names) : Fits names (.input name)
  | constant {value : Bool} {id : GateId} : Fits names (.constant value id)
  | gate {id : GateId} {children : List CircuitTree}
      (accepted : id.kind.accepts children.length = true)
      (operands : ∀ child ∈ children, Fits names child) : Fits names (.gate id children)

/-! ## Nesting -/

/-- Characters that all stand in the same number of parentheses and
negations. -/
def flatPoints (nesting : Nat) (text : String) : List (Char × Nat) :=
  text.toList.map (·, nesting)

/-- Put points between parentheses. -/
def parenthesizePoints (nesting : Nat) (points : List (Char × Nat)) : List (Char × Nat) :=
  ('(', nesting) :: (points ++ [(')', nesting)])

/-- The points of a gate, given those of its joined operands. -/
def decoratePoints (kind : GateKind) (children : List CircuitTree) (nesting : Nat)
    (joined : List (Char × Nat)) : List (Char × Nat) :=
  match kind with
  | .and | .or | .xor | .buf => joined
  | .nand | .nor | .xnor => ('¬', nesting) :: parenthesizePoints (nesting + 1) joined
  | .not =>
      if isSingleAtom children then ('¬', nesting) :: joined
      else ('¬', nesting) :: parenthesizePoints (nesting + 1) joined
  | .vcc => flatPoints nesting (constantText true)
  | .gnd => flatPoints nesting (constantText false)

mutual

/-- The characters that `render` writes in the given number of parentheses and
negations, each with the number of those around it. -/
def pointsIn (nesting : Nat) : CircuitTree → List (Char × Nat)
  | .input name => flatPoints nesting name
  | .constant value _ => flatPoints nesting (constantText value)
  | .gate id children =>
      decoratePoints id.kind children nesting
        (joinedPoints (nesting + decorationNesting id.kind children) (joining id.kind).1
          (joining id.kind).2 children)

/-- The characters that `renderJoined` writes in the given number of parentheses
and negations, each with the number of those around it. -/
def joinedPoints (nesting : Nat) (separator : String) (floor : Nat) :
    List CircuitTree → List (Char × Nat)
  | [] => []
  | child :: rest =>
      let points :=
        if child.precedence < floor then parenthesizePoints nesting (child.pointsIn (nesting + 1))
        else child.pointsIn nesting
      match rest with
      | [] => points
      | next :: others =>
          points ++ flatPoints nesting separator ++
            joinedPoints nesting separator floor (next :: others)

end

/-- The characters of a written tree, each with the number of parentheses and
negations around it. -/
def points (tree : CircuitTree) : List (Char × Nat) :=
  tree.pointsIn 0

/-- The points of an operand, for a place that requires the precedence `floor`. -/
def operandPoints (nesting floor : Nat) (child : CircuitTree) : List (Char × Nat) :=
  if child.precedence < floor then parenthesizePoints nesting (child.pointsIn (nesting + 1))
  else child.pointsIn nesting

theorem joinedPoints_singleton (nesting : Nat) (separator : String) (floor : Nat)
    (child : CircuitTree) :
    joinedPoints nesting separator floor [child] = operandPoints nesting floor child := by
  rw [joinedPoints, operandPoints]

theorem joinedPoints_cons_cons (nesting : Nat) (separator : String) (floor : Nat)
    (child next : CircuitTree) (others : List CircuitTree) :
    joinedPoints nesting separator floor (child :: next :: others) =
      operandPoints nesting floor child ++ flatPoints nesting separator ++
        joinedPoints nesting separator floor (next :: others) := by
  rw [joinedPoints, operandPoints]

theorem map_fst_flatPoints (nesting : Nat) (text : String) :
    (flatPoints nesting text).map Prod.fst = text.toList := by
  simp [flatPoints, Function.comp_def]

theorem map_fst_parenthesizePoints {nesting : Nat} {points : List (Char × Nat)} {text : String}
    (points_eq : points.map Prod.fst = text.toList) :
    (parenthesizePoints nesting points).map Prod.fst = (parenthesize text).toList := by
  simp [parenthesizePoints, parenthesize, points_eq]

theorem map_fst_decoratePoints {kind : GateKind} {children : List CircuitTree} {nesting : Nat}
    {joined : List (Char × Nat)} {text : String}
    (points_eq : joined.map Prod.fst = text.toList) :
    (decoratePoints kind children nesting joined).map Prod.fst =
      (decorate kind children text).toList := by
  unfold decoratePoints decorate
  cases kind with
  | and | or | xor | buf => exact points_eq
  | nand | nor | xnor => simp [map_fst_parenthesizePoints points_eq]
  | not =>
      by_cases atom : isSingleAtom children = true <;>
        simp [atom, points_eq, map_fst_parenthesizePoints points_eq]
  | vcc | gnd => exact map_fst_flatPoints _ _

mutual

theorem map_fst_pointsIn : ∀ (tree : CircuitTree) (nesting : Nat),
    (tree.pointsIn nesting).map Prod.fst = tree.render.toList
  | .input name, nesting => by
      rw [pointsIn, map_fst_flatPoints, render]
  | .constant value _, nesting => by
      rw [pointsIn, map_fst_flatPoints, render]
  | .gate id children, nesting => by
      rw [pointsIn, render]
      exact map_fst_decoratePoints (map_fst_joinedPoints children _ _ _)

theorem map_fst_joinedPoints : ∀ (trees : List CircuitTree) (nesting : Nat) (separator : String)
    (floor : Nat), (joinedPoints nesting separator floor trees).map Prod.fst =
      (renderJoined separator floor trees).toList
  | [], nesting, separator, floor => rfl
  | child :: rest, nesting, separator, floor => by
      have operand : (operandPoints nesting floor child).map Prod.fst =
          (operandText floor child).toList := by
        unfold operandPoints operandText
        split
        · exact map_fst_parenthesizePoints (map_fst_pointsIn child (nesting + 1))
        · exact map_fst_pointsIn child nesting
      have others := map_fst_joinedPoints rest nesting separator floor
      cases rest with
      | nil => rw [joinedPoints_singleton, renderJoined_singleton, operand]
      | cons next rest =>
          rw [joinedPoints_cons_cons, renderJoined_cons_cons, List.map_append, List.map_append,
            operand, map_fst_flatPoints, others, String.toList_append, String.toList_append]

end

/-- The points are the characters of the text. -/
theorem map_fst_points (tree : CircuitTree) : tree.points.map Prod.fst = tree.render.toList :=
  map_fst_pointsIn tree 0

variable {names : List String} {tree child : CircuitTree} {children : List CircuitTree}
  {kind : GateKind} {floor nesting : Nat} {separator : String}

/-- All kinds of gate but the constants take operands. -/
theorem ne_nil_of_accepts (accepted : kind.accepts children.length = true)
    (varies : kind.isConstant = false) : children ≠ [] := by
  rintro rfl
  cases kind with
  | vcc | gnd => exact absurd varies (by decide)
  | _ => exact absurd accepted (by decide)

theorem eq_singleton_of_length {α : Type} {list : List α} (length_eq : (list.length == 1) = true) :
    ∃ only, list = [only] :=
  List.length_eq_one_iff.mp (beq_iff_eq.mp length_eq)

/-- A gate that is not a constant writes its joined operands. -/
theorem mem_decoratePoints (varies : kind.isConstant = false) {joined : List (Char × Nat)}
    {point : Char × Nat} (mem : point ∈ joined) :
    point ∈ decoratePoints kind children nesting joined := by
  unfold decoratePoints
  cases kind with
  | and | or | xor | buf => exact mem
  | nand | nor | xnor => simp [parenthesizePoints, mem]
  | not =>
      by_cases atom : isSingleAtom children = true <;> simp [atom, parenthesizePoints, mem]
  | vcc | gnd => exact absurd varies (by decide)

/-- A constant gate has no operands. -/
theorem eq_nil_of_accepts (accepted : kind.accepts children.length = true)
    (constant : kind.isConstant = true) : children = [] := by
  cases kind with
  | vcc | gnd => exact List.length_eq_zero_iff.mp (beq_iff_eq.mp accepted)
  | _ => exact absurd constant (by decide)

/-- A constant gate is written as its value. -/
theorem decorate_constant (constant : kind.isConstant = true) (joined : String) :
    decorate kind [] joined = constantText (kind.apply []) := by
  cases kind with
  | vcc | gnd => rfl
  | _ => exact absurd constant (by decide)

theorem decoratePoints_constant (constant : kind.isConstant = true) (nesting : Nat)
    (joined : List (Char × Nat)) :
    decoratePoints kind [] nesting joined = flatPoints nesting (constantText (kind.apply [])) := by
  cases kind with
  | vcc | gnd => rfl
  | _ => exact absurd constant (by decide)

theorem decorationNesting_constant (constant : kind.isConstant = true) :
    decorationNesting kind children = 0 := by
  cases kind with
  | vcc | gnd => rfl
  | _ => exact absurd constant (by decide)

/-- Some point of a nonempty text in flat points. -/
theorem exists_flatPoints {text : String} (nonempty : text.toList ≠ []) (nesting : Nat) :
    ∃ point ∈ flatPoints nesting text, point.2 = nesting := by
  obtain ⟨char, mem⟩ := List.exists_mem_of_ne_nil _ nonempty
  exact ⟨(char, nesting), List.mem_map_of_mem mem, rfl⟩

theorem exists_constantPoints (nesting : Nat) (value : Bool) :
    ∃ point ∈ flatPoints nesting (constantText value), point.2 = nesting :=
  exists_flatPoints (by cases value <;> decide) nesting

/-- If every child has a point as deep as its nesting, so have the joined
children. -/
theorem exists_joinedPoints (nonempty : children ≠ [])
    (each : ∀ child ∈ children, ∀ nesting, ∃ point ∈ child.pointsIn nesting,
      point.2 = nesting + child.writtenNesting) (nesting : Nat) (separator : String) (floor : Nat) :
    ∃ point ∈ joinedPoints nesting separator floor children,
      point.2 = nesting + joinedNesting floor children := by
  induction children with
  | nil => exact absurd rfl nonempty
  | cons child rest ih =>
      rw [List.forall_mem_cons] at each
      have operand : ∃ point ∈ operandPoints nesting floor child,
          point.2 = nesting + operandNesting floor child := by
        unfold operandPoints operandNesting
        split
        · obtain ⟨point, mem, deep⟩ := each.1 (nesting + 1)
          refine ⟨point, List.mem_cons_of_mem _ (List.mem_append_left _ mem), ?_⟩
          omega
        · exact each.1 nesting
      obtain ⟨point, mem, deep⟩ := operand
      rw [joinedNesting_cons]
      cases rest with
      | nil =>
          rw [joinedPoints_singleton]
          exact ⟨point, mem, by rw [deep, joinedNesting, Nat.max_zero]⟩
      | cons next rest =>
          rw [joinedPoints_cons_cons]
          obtain ⟨other, otherMem, otherDeep⟩ := ih (List.cons_ne_nil next rest) each.2
          rcases Nat.le_total (operandNesting floor child) (joinedNesting floor (next :: rest)) with
            le | le
          · exact ⟨other, List.mem_append_right _ otherMem, by rw [otherDeep, Nat.max_eq_right le]⟩
          · exact ⟨point, List.mem_append_left _ (List.mem_append_left _ mem),
              by rw [deep, Nat.max_eq_left le]⟩

/-- Some point of a tree stands in as many parentheses and negations as the
written nesting says. -/
theorem Fits.exists_pointsIn (named : ∀ name ∈ names, IsName name) (fits : tree.Fits names)
    (nesting : Nat) :
    ∃ point ∈ tree.pointsIn nesting, point.2 = nesting + tree.writtenNesting := by
  induction fits generalizing nesting with
  | @input name mem =>
      obtain ⟨first, rest, toList_eq, -⟩ := named name mem
      rw [pointsIn, writtenNesting]
      exact exists_flatPoints (toList_eq ▸ List.cons_ne_nil first rest) nesting
  | constant =>
      rw [pointsIn, writtenNesting]
      exact exists_constantPoints nesting _
  | @gate id children accepted _ ih =>
      rw [pointsIn, writtenNesting, ← Nat.add_assoc]
      cases varies : id.kind.isConstant with
      | false =>
          obtain ⟨point, mem, deep⟩ := exists_joinedPoints (ne_nil_of_accepts accepted varies) ih
            (nesting + decorationNesting id.kind children) (joining id.kind).1 (joining id.kind).2
          exact ⟨point, mem_decoratePoints varies mem, deep⟩
      | true =>
          obtain rfl := eq_nil_of_accepts accepted varies
          rw [decoratePoints_constant varies, decorationNesting_constant varies]
          exact exists_constantPoints nesting _

/-! ## Texts of trees -/

/-- A tree is expressed by its text. -/
def Expressed (names : List String) (tree : CircuitTree) : Prop :=
  Expresses names tree.precedence tree.writtenNesting tree.render tree.denote

/-- The gates of a connective and of its negation join their operands alike. -/
theorem spelledBy_joining {op : Connective} (joins : kind = op.gateKind ∨ kind = op.negatedKind) :
    op.SpelledBy (joining kind).1 ∧ (joining kind).2 = op.precedence := by
  rcases joins with rfl | rfl <;> cases op <;>
    exact ⟨Connective.spelledBy_spaced rfl rfl rfl, rfl⟩

theorem Expressed.operandText (expressed : child.Expressed names) (floor : Nat) :
    Expresses names floor (operandNesting floor child) (child.operandText floor) child.denote := by
  unfold operandNesting CircuitTree.operandText
  split
  · exact .paren floor (expressed.loosen (Nat.zero_le _))
  · rename_i tight
    exact expressed.loosen (Nat.le_of_not_lt tight)

/-- Joined operands are expressed by their text. -/
theorem expresses_renderJoined {op : Connective} (spelledBy : op.SpelledBy separator)
    (nonempty : children ≠ []) (each : ∀ child ∈ children, child.Expressed names) :
    Expresses names op.precedence (joinedNesting op.precedence children)
      (renderJoined separator op.precedence children)
      fun valuation => op.gateKind.apply (denoteAll valuation children) := by
  induction children with
  | nil => exact absurd rfl nonempty
  | cons child rest ih =>
      rw [List.forall_mem_cons] at each
      have operand := each.1.operandText op.precedence
      cases rest with
      | nil =>
          rw [renderJoined_singleton, joinedNesting_singleton]
          simpa only [denoteAll, Connective.apply_gateKind_singleton] using operand
      | cons next rest =>
          rw [renderJoined_cons_cons, joinedNesting_cons]
          have others := ih (List.cons_ne_nil next rest) each.2
          simpa only [denoteAll, Connective.apply_gateKind_cons] using operand.join spelledBy others

/-- A gate of a connective or of its negation. -/
theorem expressed_connective {op : Connective} {id : GateId}
    (joins : id.kind = op.gateKind ∨ id.kind = op.negatedKind)
    (accepted : id.kind.accepts children.length = true)
    (each : ∀ child ∈ children, child.Expressed names) : Expressed names (.gate id children) := by
  have varies : id.kind.isConstant = false := by
    rcases joins with kind_eq | kind_eq <;> rw [kind_eq] <;> cases op <;> rfl
  obtain ⟨spelledBy, floor_eq⟩ := spelledBy_joining joins
  have joined := expresses_renderJoined spelledBy (ne_nil_of_accepts accepted varies) each
  unfold Expressed
  simp only [render, writtenNesting, denote, floor_eq]
  obtain ⟨kind, serial⟩ := id
  dsimp only at joins joined ⊢
  rcases joins with rfl | rfl
  · have nesting_eq : decorationNesting op.gateKind children = 0 := by cases op <;> rfl
    rw [nesting_eq, Nat.zero_add]
    cases op <;> exact joined
  · have nesting_eq : decorationNesting op.negatedKind children = 2 := by cases op <;> rfl
    have negated := (joined.loosen (Nat.zero_le _)).paren 4 |>.not 4
    rw [nesting_eq, Nat.add_comm]
    simp only [Connective.apply_negatedKind]
    cases op <;> exact negated

theorem expressed_buf {id : GateId} (kind_eq : id.kind = .buf)
    (expressed : child.Expressed names) : Expressed names (.gate id [child]) := by
  have operand := expressed.operandText atomPrecedence
  unfold Expressed
  simp only [render, writtenNesting, denote, denoteAll, precedence, kind_eq, decorate,
    decorationNesting, joining, renderJoined_singleton, joinedNesting_singleton, Nat.zero_add,
    GateKind.apply_buf]
  exact operand

theorem precedence_of_isAtom (atom : child.isAtom = true) : child.precedence = atomPrecedence := by
  cases child with
  | gate id children => cases atom
  | input name | constant value id => rfl

theorem expressed_not {id : GateId} (kind_eq : id.kind = .not)
    (expressed : child.Expressed names) : Expressed names (.gate id [child]) := by
  have text_eq : child.operandText 0 = child.render := if_neg (Nat.not_lt_zero _)
  have nesting_eq : child.operandNesting 0 = child.writtenNesting := if_neg (Nat.not_lt_zero _)
  unfold Expressed
  simp only [render, writtenNesting, denote, denoteAll, precedence, kind_eq, decorate,
    decorationNesting, joining, renderJoined_singleton, joinedNesting_singleton, text_eq,
    nesting_eq, GateKind.apply_not]
  by_cases atom : isSingleAtom [child] = true
  · rw [if_pos atom, if_pos atom, Nat.add_comm]
    unfold Expressed at expressed
    have isAtom : child.isAtom = true := atom
    rw [precedence_of_isAtom isAtom] at expressed
    exact expressed.not atomPrecedence
  · rw [if_neg atom, if_neg atom, Nat.add_comm]
    exact ((expressed.loosen (Nat.zero_le _)).paren 4).not atomPrecedence

theorem expressed_constant {id : GateId} (constant : id.kind.isConstant = true) :
    Expressed names (.gate id []) := by
  unfold Expressed
  simp only [render, writtenNesting, denote, denoteAll, decorate_constant constant,
    decorationNesting_constant constant, joinedNesting]
  exact .constant _ _

/-- A tree over names of the expression language is expressed by its text. -/
theorem Fits.expressed (named : ∀ name ∈ names, IsName name) (fits : tree.Fits names) :
    tree.Expressed names := by
  induction fits with
  | input mem => exact .input _ (named _ mem) mem
  | constant => exact .constant _ _
  | @gate id children accepted _ each =>
      rcases id.kind.kind_cases with ⟨op, joins⟩ | kind_eq | kind_eq | constant
      · exact expressed_connective joins accepted each
      · rw [kind_eq] at accepted
        obtain ⟨child, rfl⟩ := eq_singleton_of_length accepted
        exact expressed_buf kind_eq (each child (List.mem_singleton_self child))
      · rw [kind_eq] at accepted
        obtain ⟨child, rfl⟩ := eq_singleton_of_length accepted
        exact expressed_not kind_eq (each child (List.mem_singleton_self child))
      · obtain rfl := eq_nil_of_accepts accepted constant
        exact expressed_constant constant

/-- The text of a tree is read as an expression with the values of the tree, if
no point of it is nested too deeply. -/
theorem Fits.exists_parse_render (named : ∀ name ∈ names, IsName name) (fits : tree.Fits names)
    (bounded : ∀ point ∈ tree.points, point.2 ≤ maxNesting) :
    ∃ expr, parse tree.render = .ok expr ∧ (∀ name ∈ expr.occurrences, name ∈ names) ∧
      ∀ valuation, expr.denote valuation = tree.denote valuation := by
  obtain ⟨point, mem, deep⟩ := fits.exists_pointsIn named 0
  have room : tree.writtenNesting ≤ maxNesting := by
    rw [← Nat.zero_add tree.writtenNesting, ← deep]
    exact bounded point mem
  obtain ⟨tokens, next, lexemes_eq, expr, derives, declared, denote_eq⟩ :=
    fits.expressed named 0 [] nofun
  rw [List.append_nil, lexemesFrom, List.append_nil] at lexemes_eq
  have read : Derives .or maxNesting tokens expr := (derives.loosen (Nat.zero_le _)).mono room
  exact ⟨expr, (parse_eq_ok_iff_derives tree.render expr).mpr ⟨tokens, lexemes_eq, read⟩, declared,
    denote_eq⟩

end CircuitTree

end Switching
