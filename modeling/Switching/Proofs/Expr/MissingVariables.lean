import Mathlib.Data.List.Basic
import Mathlib.Data.List.Find
import Switching.Proofs.Expr.Names
import Switching.Proofs.Expr.Values

/-!
# Missing variables

The variables of an expression are listed by a walk that skips what is listed
already, while the evaluation looks up every occurrence and stops at the first one
without a value.  Both go through the expression in the same order, and an
occurrence that the walk skips has been looked up before.  So an expression is
evaluated exactly if all its variables have values, and otherwise the first of
them without a value is reported.
-/

namespace Switching

/-! ## Names in the order of their first occurrences -/

/-- Append a name to a list of names, unless it is listed. -/
def appendName (names : List String) (name : String) : List String :=
  if name ∈ names then names else names ++ [name]

theorem mem_appendName {names : List String} {name other : String} :
    other ∈ appendName names name ↔ other ∈ names ∨ other = name := by
  unfold appendName
  split
  · rename_i listed
    exact ⟨.inl, fun mem => mem.elim id fun same => same ▸ listed⟩
  · rw [List.mem_append, List.mem_singleton]

theorem prefix_appendName (names : List String) (name : String) :
    names <+: appendName names name := by
  unfold appendName
  split
  · exact List.prefix_refl names
  · exact List.prefix_append names [name]

/-- Erasing repetitions keeps a last name if it is new. -/
theorem eraseDups_concat (names : List String) (name : String) :
    (names ++ [name]).eraseDups = appendName names.eraseDups name := by
  rw [List.eraseDups_append, appendName]
  have alone : [name].eraseDups = [name] := rfl
  by_cases listed : name ∈ names
  · simp [List.removeAll, listed]
  · simp [List.removeAll, listed, alone]

/-- Some names are those that occur in a list, in the order of their first
occurrences. -/
structure FirstOccurrences (occurrences names : List String) : Prop where
  mem_iff : ∀ name, name ∈ names ↔ name ∈ occurrences
  ordered : names.Pairwise fun earlier later =>
    occurrences.idxOf earlier < occurrences.idxOf later

namespace FirstOccurrences

theorem nil : FirstOccurrences [] [] :=
  ⟨fun _ => Iff.rfl, .nil⟩

/-- One more occurrence is listed last, unless it is a repetition. -/
theorem append {occurrences names : List String} (first : FirstOccurrences occurrences names)
    (name : String) : FirstOccurrences (occurrences ++ [name]) (appendName names name) := by
  have kept : names.Pairwise fun earlier later =>
      (occurrences ++ [name]).idxOf earlier < (occurrences ++ [name]).idxOf later := by
    refine first.ordered.imp_of_mem fun earlierMem laterMem less => ?_
    rw [first.mem_iff] at earlierMem laterMem
    rwa [List.idxOf_append_of_mem earlierMem, List.idxOf_append_of_mem laterMem]
  constructor
  · intro other
    rw [mem_appendName, first.mem_iff, List.mem_append, List.mem_singleton]
  · unfold appendName
    split
    · exact kept
    · rename_i fresh
      rw [first.mem_iff] at fresh
      refine List.pairwise_append.mpr ⟨kept, List.pairwise_singleton _ _, ?_⟩
      intro earlier mem later last
      obtain rfl := List.mem_singleton.mp last
      rw [first.mem_iff] at mem
      rw [List.idxOf_append_of_mem mem, List.idxOf_append_of_notMem fresh]
      exact Nat.lt_add_right _ (List.idxOf_lt_length_of_mem mem)

end FirstOccurrences

namespace Expr

/-- Walk over an expression from left to right and append every variable that is
not listed yet. -/
def gatherVars (names : List String) : Expr → List String
  | .constant _ => names
  | .var name => appendName names name
  | .not operand => operand.gatherVars names
  | .binary _ left right => right.gatherVars (left.gatherVars names)

theorem prefix_gatherVars (expr : Expr) (names : List String) :
    names <+: expr.gatherVars names := by
  induction expr generalizing names with
  | constant value => exact List.prefix_refl names
  | var name => exact prefix_appendName names name
  | not operand ih => exact ih names
  | binary op left right ihLeft ihRight => exact (ihLeft names).trans (ihRight _)

theorem gatherVars_eraseDups (expr : Expr) (names : List String) :
    expr.gatherVars names.eraseDups = (names ++ expr.occurrences).eraseDups := by
  induction expr generalizing names with
  | constant value => rw [occurrences, List.append_nil, gatherVars]
  | var name => exact (eraseDups_concat names name).symm
  | not operand ih => exact ih names
  | binary op left right ihLeft ihRight =>
      rw [gatherVars, ihLeft, ihRight, occurrences, List.append_assoc]

/-- The walk that starts with no names lists the variables. -/
theorem gatherVars_nil (expr : Expr) : expr.gatherVars [] = expr.vars :=
  gatherVars_eraseDups expr []

theorem firstOccurrences_gatherVars {expr : Expr} {earlier names : List String}
    (first : FirstOccurrences earlier names) :
    FirstOccurrences (earlier ++ expr.occurrences) (expr.gatherVars names) := by
  induction expr generalizing earlier names with
  | constant value =>
      rw [occurrences, List.append_nil]
      exact first
  | var name => exact first.append name
  | not operand ih => exact ih first
  | binary op left right ihLeft ihRight =>
      rw [occurrences, ← List.append_assoc]
      exact ihRight (ihLeft first)

/-- The variables are listed in the order of their first occurrences. -/
theorem firstOccurrences_vars (expr : Expr) : FirstOccurrences expr.occurrences expr.vars :=
  gatherVars_nil expr ▸ firstOccurrences_gatherVars .nil

end Expr

/-! ## Names without a value -/

namespace Assignment

variable {assignment other : Assignment} {names longer : List String} {name : String}
  {value result : Bool} {error : EvalError}

/-- The first of some names that has no value. -/
def firstMissing? (assignment : Assignment) (names : List String) : Option String :=
  names.find? fun name => (assignment.value? name).isNone

theorem firstMissing?_eq_none_iff :
    assignment.firstMissing? names = none ↔ assignment.Assigns names := by
  simp only [firstMissing?, List.find?_eq_none, Assigns, Option.isNone_iff_eq_none,
    Option.isSome_iff_ne_none, ne_eq]

theorem firstMissing?_extend (begins : names <+: longer)
    (missing : assignment.firstMissing? names = some name) :
    assignment.firstMissing? longer = some name :=
  begins.find?_eq_some missing

/-- After names with values, the next name is the first one without, if it has none. -/
theorem firstMissing?_appendName (assigned : assignment.firstMissing? names = none) :
    assignment.firstMissing? (appendName names name) =
      if (assignment.value? name).isNone then some name else none := by
  unfold appendName
  split
  · rename_i listed
    have here := firstMissing?_eq_none_iff.mp assigned name listed
    rw [← Option.not_isNone, Bool.not_eq_true'] at here
    rw [assigned, here, if_neg Bool.false_ne_true]
  · rw [firstMissing?, List.find?_append, ← firstMissing?, assigned, Option.none_or,
      List.find?_singleton]

theorem firstMissing?_congr
    (agree : ∀ name ∈ names, other.value? name = assignment.value? name) :
    other.firstMissing? names = assignment.firstMissing? names :=
  List.find?_congr fun name mem => by rw [agree name mem]

/-- What comes of reading some names for a value: the value, or the error that the
first of the names without one is not defined. -/
def reading (assignment : Assignment) (names : List String) (value : Bool) :
    Except EvalError Bool :=
  match assignment.firstMissing? names with
  | none => .ok value
  | some name => .error (.undefinedVariable name)

theorem reading_eq_ok (assigned : assignment.firstMissing? names = none) :
    assignment.reading names value = .ok value := by
  rw [reading, assigned]

theorem reading_eq_error (missing : assignment.firstMissing? names = some name) :
    assignment.reading names value = .error (.undefinedVariable name) := by
  rw [reading, missing]

theorem reading_eq_ok_iff :
    assignment.reading names value = .ok result ↔
      assignment.Assigns names ∧ result = value := by
  rw [← firstMissing?_eq_none_iff]
  cases missing : assignment.firstMissing? names with
  | none => simp [reading_eq_ok missing, eq_comm]
  | some name => simp [reading_eq_error missing]

theorem reading_eq_error_iff :
    assignment.reading names value = .error error ↔
      ∃ name, assignment.firstMissing? names = some name ∧ error = .undefinedVariable name := by
  cases missing : assignment.firstMissing? names with
  | none => simp [reading_eq_ok missing]
  | some name => simp [reading_eq_error missing, eq_comm]

/-- Reading some names and then more is reading all of them: a name that is missing
among the first ones is reported before the others are read. -/
theorem reading_bind {next : Bool → Except EvalError Bool} (begins : names <+: longer)
    (rest : assignment.firstMissing? names = none →
      next value = assignment.reading longer result) :
    (assignment.reading names value >>= next) = assignment.reading longer result := by
  cases missing : assignment.firstMissing? names with
  | none =>
      rw [reading_eq_ok missing]
      exact rest missing
  | some name =>
      rw [reading_eq_error missing, reading_eq_error (firstMissing?_extend begins missing)]
      rfl

end Assignment

/-! ## Evaluation -/

namespace Expr

open Assignment

/-- Once the names listed so far have values, evaluating an expression reads the
names in the order in which the walk lists them. -/
theorem evaluate_eq_reading_gatherVars {assignment : Assignment} {expr : Expr}
    {names : List String} (assigned : assignment.firstMissing? names = none) :
    expr.evaluate assignment =
      assignment.reading (expr.gatherVars names) (expr.denote assignment.valuation) := by
  -- The left operand lists its names before the right one, and the right one is
  -- evaluated only where all of these have values.
  induction expr generalizing names with
  | constant value => exact (reading_eq_ok assigned).symm
  | var name =>
      rw [evaluate, Assignment.value, gatherVars, reading, firstMissing?_appendName assigned,
        denote, valuation]
      cases assignment.value? name with
      | none => rfl
      | some value => rfl
  | not operand ih =>
      rw [evaluate, ih assigned]
      exact reading_bind (List.prefix_refl _) fun operandAssigned =>
        (reading_eq_ok operandAssigned).symm
  | binary op left right ihLeft ihRight =>
      rw [evaluate, ihLeft assigned]
      refine reading_bind (prefix_gatherVars right _) fun leftAssigned => ?_
      rw [ihRight leftAssigned]
      exact reading_bind (List.prefix_refl _) fun rightAssigned =>
        (reading_eq_ok rightAssigned).symm

/-- Evaluating an expression reads its variables. -/
theorem evaluate_eq_reading (expr : Expr) (assignment : Assignment) :
    expr.evaluate assignment = assignment.reading expr.vars (expr.denote assignment.valuation) :=
  gatherVars_nil expr ▸ evaluate_eq_reading_gatherVars rfl

theorem evaluate_congr {expr : Expr} {assignment other : Assignment}
    (agree : ∀ name ∈ expr.vars, other.value? name = assignment.value? name) :
    expr.evaluate other = expr.evaluate assignment := by
  have denote_eq : expr.denote other.valuation = expr.denote assignment.valuation := by
    refine denote_congr fun name mem => ?_
    rw [valuation, agree name (mem_vars.mpr mem), valuation]
  rw [evaluate_eq_reading, evaluate_eq_reading, reading, reading, firstMissing?_congr agree,
    denote_eq]

/-- An expression is evaluated exactly if all its variables have values, and then to
what it denotes.  Otherwise the error is that the first of its variables without a
value is not defined, whether or not what it denotes depends on that variable; the
variables are in the order of their first occurrences.  Assignments that agree on
the variables have the same outcome. -/
theorem evaluate_exact (expr : Expr) (assignment : Assignment) :
    ((∃ value, expr.evaluate assignment = .ok value) ↔ assignment.Assigns expr.vars) ∧
      (∀ value, expr.evaluate assignment = .ok value →
        value = expr.denote assignment.valuation) ∧
      (∀ error, expr.evaluate assignment = .error error ↔
        ∃ name, assignment.firstMissing? expr.vars = some name ∧
          error = .undefinedVariable name) ∧
      FirstOccurrences expr.occurrences expr.vars ∧
      ∀ other : Assignment, (∀ name ∈ expr.vars, other.value? name = assignment.value? name) →
        expr.evaluate other = expr.evaluate assignment := by
  have value_iff (value : Bool) : expr.evaluate assignment = .ok value ↔
      assignment.Assigns expr.vars ∧ value = expr.denote assignment.valuation := by
    rw [evaluate_eq_reading, reading_eq_ok_iff]
  refine ⟨⟨?_, ?_⟩, ?_, ?_, firstOccurrences_vars expr, fun _ => evaluate_congr⟩
  · rintro ⟨value, evaluated⟩
    exact ((value_iff value).mp evaluated).1
  · intro assigned
    exact ⟨_, (value_iff _).mpr ⟨assigned, rfl⟩⟩
  · intro value evaluated
    exact ((value_iff value).mp evaluated).2
  · intro error
    rw [evaluate_eq_reading, reading_eq_error_iff]

/-- A contradiction in which a variable is repeated. -/
def contradiction : Expr :=
  .and (.xor (.var "A") (.var "A")) (.or (.not (.var "C")) (.xor (.var "B") (.var "A")))

/-- A missing variable of a contradiction is reported, the one that occurs first;
a name that is not a variable changes nothing. -/
theorem contradiction_evaluate_exact :
    contradiction.vars = ["A", "C", "B"] ∧
      (∀ valuation, contradiction.denote valuation = false) ∧
      contradiction.evaluate (.ofList [("A", true)]) = .error (.undefinedVariable "C") ∧
      (∀ name ∈ contradiction.vars, (Assignment.ofList [("D", true), ("A", true)]).value? name =
        (Assignment.ofList [("A", true)]).value? name) ∧
      contradiction.evaluate (.ofList [("D", true), ("A", true)]) =
        contradiction.evaluate (.ofList [("A", true)]) ∧
      (Assignment.ofList [("C", false), ("B", true), ("A", true)]).Assigns contradiction.vars ∧
      ∃ value, contradiction.evaluate (.ofList [("C", false), ("B", true), ("A", true)]) =
        .ok value := by
  have vars_eq : contradiction.vars = ["A", "C", "B"] := by decide
  have agree : ∀ name ∈ contradiction.vars,
      (Assignment.ofList [("D", true), ("A", true)]).value? name =
        (Assignment.ofList [("A", true)]).value? name := by
    rw [vars_eq]
    decide
  have assigned :
      (Assignment.ofList [("C", false), ("B", true), ("A", true)]).Assigns contradiction.vars := by
    rw [vars_eq, Assigns]
    decide
  have missing : (Assignment.ofList [("A", true)]).firstMissing? contradiction.vars = some "C" := by
    rw [vars_eq]
    rfl
  obtain ⟨-, -, error_iff, -, same⟩ := evaluate_exact contradiction (.ofList [("A", true)])
  refine ⟨vars_eq, fun valuation => ?_, (error_iff _).mpr ⟨"C", missing, rfl⟩, agree,
    same _ agree, assigned, (evaluate_exact contradiction _).1.mpr assigned⟩
  simp [contradiction, Expr.and, Expr.xor, denote, Connective.apply]

end Expr

end Switching
