import Switching.Proofs.Expr.Derivations
import Switching.Proofs.Expr.Lexemes
import Switching.Proofs.Expr.Names

/-!
# Names in parsed expressions

The variables of a derived expression are identifiers among its tokens, and the
identifiers of a text are names.  So the variables of a parsed expression are
names of the expression language.
-/

namespace Switching

/-- The variables of a derived expression are names if the identifiers are. -/
theorem Grammar.Derives.hasNames {level : Level} {nesting : Nat} {tokens : List Token}
    {expr : Expr} (derives : Derives level nesting tokens expr)
    (named : ∀ token ∈ tokens, (Lexeme.token token).IsNamed) : expr.HasNames := by
  induction derives with
  | @identifier _ token kind =>
      intro name occurs
      rw [List.mem_singleton.mp occurs]
      exact named token List.mem_cons_self kind
  | constant kind => exact nofun
  | paren opens closes _ ih =>
      rw [List.forall_mem_cons, List.forall_mem_append] at named
      exact ih named.2.1
  | not kind _ ih => exact ih (List.forall_mem_cons.mp named).2
  | and kind _ _ ihLeft ihRight | xor kind _ _ ihLeft ihRight | or kind _ _ ihLeft ihRight =>
      rw [List.forall_mem_append, List.forall_mem_cons] at named
      exact Expr.hasNames_binary.mpr ⟨ihLeft named.1, ihRight named.2.2⟩
  | atom _ ih | unary _ ih | product _ ih | difference _ ih => exact ih named

/-- The variables of a parsed expression are names. -/
theorem hasNames_of_parse {text : String} {expr : Expr} (parsed : parse text = .ok expr) :
    expr.HasNames := by
  obtain ⟨tokens, lexemes_eq, derives⟩ := Parser.run_eq_ok_iff.mp parsed
  apply derives.hasNames
  intro token mem
  have occurs : Lexeme.token token ∈ lexemes text := lexemes_eq ▸ List.mem_map_of_mem mem
  exact isNamed_of_mem_lexemesFrom 0 text.toList occurs

end Switching
