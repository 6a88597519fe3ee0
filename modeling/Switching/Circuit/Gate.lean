import Switching.Text.Blank

/-!
# Gates

The kinds of gate that a circuit may contain, with their names, their
admissible numbers of operands and the Boolean functions they compute.
-/

namespace Switching

/-- The kinds of gate, in the order in which they are listed. -/
inductive GateKind
  | and
  | or
  | not
  | nand
  | nor
  | xor
  | xnor
  | buf
  | vcc
  | gnd
  deriving DecidableEq, Repr, Inhabited

namespace GateKind

/-- Every kind of gate once, in listing order. -/
def all : List GateKind :=
  [.and, .or, .not, .nand, .nor, .xor, .xnor, .buf, .vcc, .gnd]

/-- No kind of gate is missing from `all`. -/
theorem mem_all (kind : GateKind) : kind ∈ all := by
  cases kind <;> decide

/-- The lower-case name of a kind of gate. -/
def name : GateKind → String
  | .and => "and"
  | .or => "or"
  | .not => "not"
  | .nand => "nand"
  | .nor => "nor"
  | .xor => "xor"
  | .xnor => "xnor"
  | .buf => "buf"
  | .vcc => "vcc"
  | .gnd => "gnd"

/-- The two constants. -/
def isConstant : GateKind → Bool
  | .vcc => true
  | .gnd => true
  | _ => false

/-- Whether a gate of this kind can have the given number of operands:
constants take none, `not` and `buf` take one, all others two or more. -/
def accepts : GateKind → Nat → Bool
  | .vcc, arity => arity == 0
  | .gnd, arity => arity == 0
  | .not, arity => arity == 1
  | .buf, arity => arity == 1
  | _, arity => 2 ≤ arity

/-- The output of a gate for the given operand values, determined by how many
of them are true.  Over more than two operands `xor` is odd parity and `xnor`
even parity. -/
def apply (kind : GateKind) (values : List Bool) : Bool :=
  let ones := values.countP id
  match kind with
  | .and => ones == values.length
  | .nand => ones != values.length
  | .or => 0 < ones
  | .buf => 0 < ones
  | .nor => ones == 0
  | .not => ones == 0
  | .xor => ones % 2 == 1
  | .xnor => ones % 2 == 0
  | .vcc => true
  | .gnd => false

@[simp]
theorem apply_not (value : Bool) : GateKind.not.apply [value] = !value := by
  cases value <;> rfl

@[simp]
theorem apply_buf (value : Bool) : GateKind.buf.apply [value] = value := by
  cases value <;> rfl

@[simp]
theorem apply_and (left right : Bool) : GateKind.and.apply [left, right] = (left && right) := by
  cases left <;> cases right <;> rfl

@[simp]
theorem apply_or (left right : Bool) : GateKind.or.apply [left, right] = (left || right) := by
  cases left <;> cases right <;> rfl

@[simp]
theorem apply_xor (left right : Bool) : GateKind.xor.apply [left, right] = (left != right) := by
  cases left <;> cases right <;> rfl

/-- A gate that is named as a negation negates. -/
theorem apply_negated (values : List Bool) :
    GateKind.nand.apply values = !GateKind.and.apply values ∧
      GateKind.nor.apply values = !GateKind.or.apply values ∧
      GateKind.xnor.apply values = !GateKind.xor.apply values := by
  refine ⟨rfl, ?_, ?_⟩
  · cases ones : values.countP id <;> simp [apply, ones]
  · rcases Nat.mod_two_eq_zero_or_one (values.countP id) with parity | parity <;>
      simp [apply, parity]

/-- The kind of gate with the given name, in any mixture of cases and with
blanks around it. -/
def ofName? (text : String) : Option GateKind :=
  let wanted := String.ofList ((Text.trim text.toList).map Char.toLower)
  all.find? (·.name == wanted)

end GateKind

end Switching
