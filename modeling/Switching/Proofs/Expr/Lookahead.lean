import Mathlib.Data.Nat.Find
import Switching.Proofs.Expr.Tiling

/-!
# Looking ahead

A reader of tokens can be asked for the next lexeme and for a look at it.  Looking
at a token leaves it where it is, but a stray character is passed over by whichever
call meets it.  So looking ahead makes no difference to the answers as long as no
stray character is met by a look before the next lexeme is asked for.
-/

namespace Switching.Lexer

variable {lexer rest : Lexer} {call : Call} {calls : List Call} {lexeme : Lexeme} {char : Char}
  {position : Nat}

/-! ## Answers to some of the calls -/

/-- The answers to those calls of a sequence that, with their answers, pass a test. -/
def answersWhere (test : Call → Lexeme → Bool) (lexer : Lexer) (calls : List Call) : List Lexeme :=
  ((calls.zip (lexer.answers calls)).filter fun asked => test asked.1 asked.2).map Prod.snd

/-- The answers to the calls for the next lexeme. -/
def nextAnswers (lexer : Lexer) (calls : List Call) : List Lexeme :=
  lexer.answersWhere (fun call _ => call = .next) calls

/-- A call takes a lexeme, unless it looks at a token. -/
def Call.takes : Call → Lexeme → Bool
  | .next, _ => true
  | .peek, .token _ => false
  | .peek, .stray _ _ => true

/-- Looks make no difference to the lexemes that are asked for, and each of them
shows what the next call for a lexeme gives. -/
structure Transparent (lexer : Lexer) (calls : List Call) : Prop where
  next_eq : lexer.nextAnswers calls = lexer.answers (calls.filter (· = .next))
  peek_eq : ∀ i j : Nat, i < j → calls[i]? = some Call.peek → calls[j]? = some Call.next →
    (∀ k : Nat, i < k → k < j → calls[k]? = some Call.peek) →
    (lexer.answers calls)[i]? = (lexer.answers calls)[j]?

theorem answers_cons (lexer : Lexer) (call : Call) (calls : List Call) :
    lexer.answers (call :: calls) =
      (lexer.answer call).1 :: (lexer.answer call).2.answers calls :=
  rfl

theorem answersWhere_cons (test : Call → Lexeme → Bool) (lexer : Lexer) (call : Call)
    (calls : List Call) :
    lexer.answersWhere test (call :: calls) =
      if test call (lexer.answer call).1 then
        (lexer.answer call).1 :: (lexer.answer call).2.answersWhere test calls
      else (lexer.answer call).2.answersWhere test calls := by
  rw [answersWhere, answers_cons, List.zip_cons_cons, List.filter_cons]
  split <;> rfl

/-! ## One call -/

/-- A call that takes the next lexeme, or the end of the text for good. -/
theorem answer_of_takes (takes : call.takes (lexer.answer call).1 = true) :
    lexer.answer call = lexer.next := by
  obtain ⟨_ | ⟨_ | _, pending⟩, finish⟩ := lexer <;> cases call <;> first | rfl | cases takes

/-- A look at a token leaves the reader as it is. -/
theorem answer_of_not_takes (leaves : call.takes (lexer.answer call).1 = false) :
    call = .peek ∧ (lexer.answer call).2 = lexer ∧
      ∃ token, (lexer.answer call).1 = .token token := by
  obtain ⟨_ | ⟨_ | _, pending⟩, finish⟩ := lexer <;> cases call <;>
    first | exact ⟨rfl, rfl, _, rfl⟩ | cases leaves

/-- The next lexeme is the first one that is left; the end of the text stays. -/
theorem next_cases (lexer : Lexer) :
    lexer.drain = lexer.next.1 :: lexer.next.2.drain ∨
      lexer.next = (.token lexer.ending, lexer) := by
  obtain ⟨_ | ⟨first, pending⟩, finish⟩ := lexer
  · exact .inr rfl
  · exact .inl rfl

/-! ## Stray characters -/

/-- The lexemes to come and the end of the text stand at ascending positions. -/
def Ordered (lexer : Lexer) : Prop :=
  lexer.drain.Pairwise fun first second => first.position < second.position

theorem ordered_ofText (text : String) : (ofText text).Ordered := by
  obtain ⟨spans, tiles⟩ := exists_tiles_lexemes text
  refine List.pairwise_append.mpr ⟨tiles.pairwise_position, List.pairwise_singleton _ _, ?_⟩
  intro lexeme mem last lastMem
  obtain rfl := List.mem_singleton.mp lastMem
  have position_lt : lexeme.position < text.utf8ByteSize :=
    tiles.forall_mem (fun _ _ occupies => occupies.position_lt) lexeme mem
  rwa [← text.ofList_toList, ← Text.utf8Length_eq_utf8ByteSize] at position_lt

/-- What is left after a call was there before. -/
theorem drain_answer_suffix (lexer : Lexer) (call : Call) :
    (lexer.answer call).2.drain <:+ lexer.drain := by
  cases takes : call.takes (lexer.answer call).1 with
  | true =>
      rw [answer_of_takes takes]
      rcases lexer.next_cases with drain_eq | ended
      · exact drain_eq ▸ List.suffix_cons _ _
      · exact ended ▸ List.suffix_rfl
  | false =>
      obtain ⟨-, kept, -⟩ := answer_of_not_takes takes
      exact kept.symm ▸ List.suffix_rfl

theorem Ordered.answer (ordered : lexer.Ordered) (call : Call) :
    (lexer.answer call).2.Ordered :=
  ordered.sublist (lexer.drain_answer_suffix call).sublist

theorem answer_mem_drain (lexer : Lexer) (call : Call) :
    (lexer.answer call).1 ∈ lexer.drain := by
  obtain ⟨_ | ⟨_ | _, pending⟩, finish⟩ := lexer <;> cases call <;> exact List.mem_cons_self

/-- All answers are lexemes to come or the end of the text. -/
theorem mem_drain_of_mem_answers (mem : lexeme ∈ lexer.answers calls) : lexeme ∈ lexer.drain := by
  induction calls generalizing lexer with
  | nil => cases mem
  | cons call calls ih =>
      rcases List.mem_cons.mp mem with rfl | later
      · exact lexer.answer_mem_drain call
      · exact (lexer.drain_answer_suffix call).subset (ih later)

/-- The call that meets a stray character takes it. -/
theorem drain_of_answer_stray (stray : (lexer.answer call).1 = .stray char position) :
    lexer.drain = .stray char position :: (lexer.answer call).2.drain := by
  have takes : call.takes (lexer.answer call).1 = true := by
    cases call <;> simp [stray, Call.takes]
  rw [answer_of_takes takes] at stray ⊢
  rcases lexer.next_cases with drain_eq | ended
  · rw [drain_eq, stray]
  · rw [ended] at stray
    cases stray

/-- A stray character is reported once. -/
theorem answers_ne_of_stray (ordered : lexer.Ordered) {i j : Nat} (lt : i < j)
    (stray : (lexer.answers calls)[i]? = some (.stray char position)) :
    (lexer.answers calls)[j]? ≠ some (.stray char position) := by
  induction calls generalizing lexer i j with
  | nil => cases stray
  | cons call calls ih =>
      obtain ⟨j, rfl⟩ : ∃ k, j = k + 1 := ⟨j - 1, by omega⟩
      rw [answers_cons] at stray ⊢
      rw [List.getElem?_cons_succ]
      cases i with
      | zero =>
          rw [List.getElem?_cons_zero, Option.some.injEq] at stray
          intro again
          have later := mem_drain_of_mem_answers (List.mem_of_getElem? again)
          rw [Ordered, drain_of_answer_stray stray] at ordered
          exact Nat.lt_irrefl _ ((List.pairwise_cons.mp ordered).1 _ later)
      | succ i => exact ih (ordered.answer call) (Nat.lt_of_succ_lt_succ lt) stray

/-! ## Looks -/

/-- No look meets a stray character before the next lexeme is asked for. -/
def Careful (lexer : Lexer) (calls : List Call) : Prop :=
  ∀ i j : Nat, i < j → calls[i]? = some Call.peek → calls[j]? = some Call.next →
    ∀ char position, (lexer.answers calls)[i]? ≠ some (Lexeme.stray char position)

theorem Careful.tail (careful : lexer.Careful (call :: calls)) :
    (lexer.answer call).2.Careful calls := by
  intro i j lt peek next char position
  exact careful (i + 1) (j + 1) (Nat.succ_lt_succ lt) peek next char position

/-- A look that has seen a token has the same answer as the next call for a
lexeme. -/
theorem answers_of_peek_token {token : Token} {j : Nat} (peek : lexer.peek = (.token token, lexer))
    (next : calls[j]? = some Call.next) (between : ∀ k : Nat, k < j → calls[k]? = some Call.peek) :
    (lexer.answers calls)[j]? = some (.token token) := by
  induction calls generalizing j with
  | nil => cases next
  | cons call calls ih =>
      rw [answers_cons]
      cases j with
      | zero =>
          obtain rfl := Option.some.inj next
          obtain ⟨_ | ⟨_ | _, pending⟩, finish⟩ := lexer <;> cases peek <;> rfl
      | succ j =>
          obtain rfl := Option.some.inj (between 0 (Nat.succ_pos j))
          have stays : (lexer.answer .peek).2 = lexer := congrArg Prod.snd peek
          rw [List.getElem?_cons_succ, stays]
          exact ih next fun k lt => between (k + 1) (Nat.succ_lt_succ lt)

/-- A look that takes what it meets has met a stray character. -/
theorem exists_stray_of_takes (takes : Call.peek.takes lexeme = true) :
    ∃ char position, lexeme = .stray char position := by
  cases lexeme with
  | token => cases takes
  | stray char position => exact ⟨char, position, rfl⟩

theorem nextAnswers_eq_nil (noNext : Call.next ∉ calls) : lexer.nextAnswers calls = [] := by
  refine List.map_eq_nil_iff.mpr (List.filter_eq_nil_iff.mpr fun asked mem isNext => noNext ?_)
  exact of_decide_eq_true isNext ▸ (List.of_mem_zip mem).1

/-- Behind a look that has met a stray character no lexeme is asked for. -/
theorem Careful.next_notMem (careful : lexer.Careful (.peek :: calls))
    (stray : (lexer.answer .peek).1 = .stray char position) : Call.next ∉ calls := by
  intro mem
  obtain ⟨j, next⟩ := List.mem_iff_getElem?.mp mem
  exact careful 0 (j + 1) (Nat.succ_pos j) rfl next char position (congrArg some stray)

/-- Careful looks can be left out. -/
theorem Careful.nextAnswers_eq (careful : lexer.Careful calls) :
    lexer.nextAnswers calls = lexer.answers (calls.filter (· = .next)) := by
  induction calls generalizing lexer with
  | nil => rfl
  | cons call calls ih =>
      have later := ih careful.tail
      rw [nextAnswers] at later ⊢
      rw [answersWhere_cons]
      cases call with
      | next =>
          rw [List.filter_cons_of_pos (by rfl), answers_cons, if_pos (by rfl), later]
      | peek =>
          rw [List.filter_cons_of_neg (by decide), if_neg (by decide), ← nextAnswers]
          cases takes : Call.peek.takes (lexer.answer .peek).1 with
          | true =>
              obtain ⟨char, position, stray⟩ := exists_stray_of_takes takes
              have noNext := careful.next_notMem stray
              rw [nextAnswers_eq_nil noNext, List.filter_eq_nil_iff.mpr]
              · rfl
              · intro call mem isNext
                exact noNext (of_decide_eq_true isNext ▸ mem)
          | false =>
              have stays := (answer_of_not_takes takes).2.1
              rw [stays] at later ⊢
              exact later

/-- A careful look shows what the next call for a lexeme gives. -/
theorem Careful.peek_eq (careful : lexer.Careful calls) {i j : Nat} (lt : i < j)
    (peek : calls[i]? = some Call.peek) (next : calls[j]? = some Call.next)
    (between : ∀ k : Nat, i < k → k < j → calls[k]? = some Call.peek) :
    (lexer.answers calls)[i]? = (lexer.answers calls)[j]? := by
  induction calls generalizing lexer i j with
  | nil => cases peek
  | cons call calls ih =>
      obtain ⟨j, rfl⟩ : ∃ k, j = k + 1 := ⟨j - 1, by omega⟩
      rw [List.getElem?_cons_succ] at next
      rw [answers_cons, List.getElem?_cons_succ]
      cases i with
      | zero =>
          obtain rfl := Option.some.inj peek
          cases takes : Call.peek.takes (lexer.answer .peek).1 with
          | true =>
              obtain ⟨char, position, stray⟩ := exists_stray_of_takes takes
              exact absurd (List.mem_of_getElem? next) (careful.next_notMem stray)
          | false =>
              obtain ⟨-, stays, token, answer_eq⟩ := answer_of_not_takes takes
              have peek_eq : lexer.peek = (.token token, lexer) := Prod.ext answer_eq stays
              rw [stays, List.getElem?_cons_zero, answer_eq]
              refine (answers_of_peek_token peek_eq next fun k below => ?_).symm
              exact between (k + 1) (Nat.succ_pos k) (Nat.succ_lt_succ below)
      | succ i =>
          refine ih careful.tail (Nat.lt_of_succ_lt_succ lt) peek next fun k above below => ?_
          exact between (k + 1) (Nat.succ_lt_succ above) (Nat.succ_lt_succ below)

/-- Exactly careful looks make no difference. -/
theorem transparent_iff_careful (ordered : lexer.Ordered) :
    lexer.Transparent calls ↔ lexer.Careful calls := by
  constructor
  · intro transparent i j lt peek next char position stray
    have some_next : ∃ k, i < k ∧ calls[k]? = some Call.next := ⟨j, lt, next⟩
    obtain ⟨first_lt, first_next⟩ := Nat.find_spec some_next
    refine answers_ne_of_stray ordered first_lt stray ?_
    rw [← transparent.peek_eq i (Nat.find some_next) first_lt peek first_next, stray]
    intro k above below
    obtain ⟨bound, -⟩ := List.getElem?_eq_some_iff.mp first_next
    have k_lt : k < calls.length := Nat.lt_trans below bound
    have call_eq : calls[k]? = some calls[k] := List.getElem?_eq_getElem k_lt
    cases found : calls[k] with
    | peek => rw [call_eq, found]
    | next => exact absurd ⟨above, call_eq.trans (congrArg some found)⟩ (Nat.find_min some_next below)
  · exact fun careful => ⟨careful.nextAnswers_eq, fun i j => careful.peek_eq⟩

/-- Every sequence of calls is careful exactly if no stray character is to come. -/
theorem forall_careful_iff (lexer : Lexer) :
    (∀ calls, lexer.Careful calls) ↔ ∀ char position, .stray char position ∉ lexer.pending := by
  obtain ⟨pending, finish⟩ := lexer
  constructor
  · intro careful char position mem
    induction pending with
    | nil => cases mem
    | cons first pending ih =>
        rcases List.mem_cons.mp mem with rfl | later
        · exact careful [.peek, .next] 0 1 Nat.zero_lt_one rfl rfl char position rfl
        · exact ih (fun calls => (careful (.next :: calls)).tail) later
  · intro none calls i j lt peek next char position stray
    rcases List.mem_append.mp (mem_drain_of_mem_answers (List.mem_of_getElem? stray)) with
      mem | isEnding
    · exact none char position mem
    · cases List.mem_singleton.mp isEnding

/-- The answers to the calls that take a lexeme are those to as many calls for the
next lexeme. -/
theorem answersWhere_takes (lexer : Lexer) (calls : List Call) :
    lexer.answersWhere Call.takes calls =
      lexer.answers (.replicate (lexer.answersWhere Call.takes calls).length .next) := by
  induction calls generalizing lexer with
  | nil => rfl
  | cons call calls ih =>
      have later := ih (lexer.answer call).2
      rw [answersWhere_cons]
      split
      · rename_i takes
        have taken := answer_of_takes takes
        rw [taken] at later ⊢
        rw [List.length_cons, List.replicate_succ, answers_cons]
        exact congrArg _ later
      · rename_i leaves
        have stays := (answer_of_not_takes (Bool.eq_false_iff.mpr leaves)).2.1
        rw [stays] at later ⊢
        exact later

/-- Looks make no difference exactly if none of them meets a stray character before
the next lexeme is asked for, and for all sequences of calls exactly if the text has
no stray character.  Whatever the calls are, those that take a lexeme go through the
lexemes of the text one by one. -/
theorem transparent_ofText_iff (text : String) :
    (∀ calls, (ofText text).Transparent calls ↔ (ofText text).Careful calls) ∧
    ((∀ calls, (ofText text).Transparent calls) ↔
      ∀ char position, .stray char position ∉ lexemes text) ∧
    ∀ calls, (ofText text).answersWhere Call.takes calls =
      (ofText text).answers
        (.replicate ((ofText text).answersWhere Call.takes calls).length .next) := by
  have careful_iff calls : (ofText text).Transparent calls ↔ (ofText text).Careful calls :=
    transparent_iff_careful (ordered_ofText text)
  refine ⟨careful_iff, ?_, (ofText text).answersWhere_takes⟩
  rw [forall_congr' careful_iff]
  exact (ofText text).forall_careful_iff

/-- In `$1` a look passes over the first character, so that the call behind it gives the
second one. -/
theorem strayText_not_transparent : ¬ (ofText "$1").Transparent [.peek, .next] := by
  have lexemes_eq : lexemes "$1" = [.stray '$' 0, .token ⟨.constant, "1", 1⟩] := by
    change lexemesFrom 0 ['$', '1'] = _
    rw [lexemesFrom_sole (by decide) (by decide), lexemesFrom_symbol rfl, lexemesFrom]
    rfl
  have lexer_eq : ofText "$1" = ⟨[.stray '$' 0, .token ⟨.constant, "1", 1⟩], 2⟩ := by
    rw [ofText, lexemes_eq]
    rfl
  intro transparent
  have next_eq := transparent.next_eq
  rw [lexer_eq] at next_eq
  revert next_eq
  decide

end Switching.Lexer
