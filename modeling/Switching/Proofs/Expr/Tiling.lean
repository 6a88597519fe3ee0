import Mathlib.Data.List.Forall2
import Switching.Proofs.Expr.Cuts

/-!
# Texts tiled by their lexemes

The lexemes of a text are read from disjoint stretches of it, in ascending order.
Every stretch starts at the position of its lexeme, and what stands outside of the
stretches is blank.  Asking a reader for one lexeme after the other gives exactly
these lexemes, no more than the text has characters, and the end of the text from
then on.
-/

namespace Switching

variable {text front slice back : String} {chars : List Char} {char : Char} {lexeme : Lexeme}
  {found : List Lexeme}

/-! ## Stretches of a text -/

/-- A stretch of a text, given by the byte offsets at which it starts and stops. -/
structure Span where
  start : Nat
  stop : Nat
  deriving DecidableEq, Repr

/-- The texts from which a lexeme can be read. -/
inductive Lexeme.Spelled : Lexeme → String → Prop
  | name {name : String} {position : Nat} (isName : IsName name) :
      Spelled (.token ⟨.identifier, name, position⟩) name
  | symbol {char : Char} {kind : TokenKind} {text : String} {position : Nat}
      (symbol : TokenKind.ofSymbol? char = some (kind, text)) :
      Spelled (.token ⟨kind, text, position⟩) (String.singleton char)
  | stray {char : Char} {position : Nat} (notBlank : Text.isBlank char = false)
      (noToken : TokenKind.ofFirst? char = none) :
      Spelled (.stray char position) (String.singleton char)

/-- The text of a token is the one from which it is read, except that constants are
written with ASCII digits. -/
def Lexeme.Carries : Lexeme → String → Prop
  | .token read, slice =>
      read.text = slice ∨
        read.kind = .constant ∧ (slice = "０" ∧ read.text = "0" ∨ slice = "１" ∧ read.text = "1")
  | .stray char _, slice => slice = String.singleton char

/-- A lexeme is read from a stretch of a text, which starts and stops between
characters, and a name is read as far as it goes. -/
structure Lexeme.Occupies (text : String) (lexeme : Lexeme) (span : Span) : Prop where
  start_eq : span.start = lexeme.position
  start_lt : span.start < span.stop
  read : ∃ front slice back, text = front ++ slice ++ back ∧
    span.start = front.utf8ByteSize ∧ span.stop = (front ++ slice).utf8ByteSize ∧
    lexeme.Spelled slice ∧ lexeme.Carries slice ∧
    (lexeme.kind? = some .identifier → EndsName back.toList)

/-- A character of a text stands in one of the stretches or is blank. -/
def BlankOutside (text : String) (spans : List Span) : Prop :=
  ∀ front char back, text = front ++ String.singleton char ++ back →
    Text.isBlank char = true ∨
      ∃ span ∈ spans, span.start ≤ front.utf8ByteSize ∧ front.utf8ByteSize < span.stop

namespace Lexeme

theorem Spelled.carries (spelled : lexeme.Spelled slice) : lexeme.Carries slice := by
  cases spelled with
  | name isName => exact .inl rfl
  | symbol symbol =>
      unfold TokenKind.ofSymbol? at symbol
      split at symbol <;> cases symbol <;> simp [Carries]
  | stray => rfl

/-- No lexeme is read from nothing. -/
theorem Spelled.utf8ByteSize_pos (spelled : lexeme.Spelled slice) : 0 < slice.utf8ByteSize := by
  cases spelled with
  | name isName =>
      obtain ⟨first, rest, toList_eq, -, -⟩ := isName
      have := first.utf8Size_pos
      rw [← slice.ofList_toList, ← Text.utf8Length_eq_utf8ByteSize, toList_eq, Text.utf8Length_cons]
      omega
  | symbol => simpa using Char.utf8Size_pos _
  | stray => simpa using Char.utf8Size_pos _

/-- What is read from a text is not its end. -/
theorem Spelled.kind?_ne_ending (spelled : lexeme.Spelled slice) : lexeme.kind? ≠ some .ending := by
  cases spelled with
  | name => simp [kind?]
  | symbol symbol =>
      unfold TokenKind.ofSymbol? at symbol
      split at symbol <;> cases symbol <;> simp [kind?]
  | stray => simp [kind?]

theorem Occupies.kind?_ne_ending {span : Span} (occupies : lexeme.Occupies text span) :
    lexeme.kind? ≠ some .ending := by
  obtain ⟨front, slice, back, -, -, -, spelled, -, -⟩ := occupies.read
  exact spelled.kind?_ne_ending

/-- A lexeme starts in front of the end of the text. -/
theorem Occupies.position_lt {span : Span} (occupies : lexeme.Occupies text span) :
    lexeme.position < text.utf8ByteSize := by
  obtain ⟨front, slice, back, text_eq, -, stop_eq, -⟩ := occupies.read
  have starts := occupies.start_lt
  rw [occupies.start_eq, stop_eq] at starts
  rw [text_eq, String.utf8ByteSize_append]
  omega

/-- A character that is neither blank nor the start of a name is read alone. -/
theorem spelled_ofSole (notBlank : Text.isBlank char = false) (notStart : startsName char = false)
    (position : Nat) :
    (ofSole char position).Spelled (String.singleton char) ∧
      (ofSole char position).position = position ∧
      (ofSole char position).kind? ≠ some .identifier := by
  unfold ofSole
  split
  · rename_i kind text symbol
    exact ⟨.symbol symbol, rfl, by simpa [kind?] using kind_ne_identifier_of_ofSymbol? symbol⟩
  · rename_i noSymbol
    have noToken : TokenKind.ofFirst? char = none := by simp [TokenKind.ofFirst?, notStart, noSymbol]
    exact ⟨.stray notBlank noToken, rfl, by simp [kind?]⟩

end Lexeme

/-! ## Tilings -/

/-- Two characters of a text stand at the same place if one does not start before
the other or behind it. -/
theorem eq_of_append_singleton_eq {other : Char} {before after : String}
    (text_eq : front ++ String.singleton char ++ back = before ++ String.singleton other ++ after)
    (le : front.utf8ByteSize ≤ before.utf8ByteSize)
    (lt : before.utf8ByteSize < (front ++ String.singleton char).utf8ByteSize) : other = char := by
  have toList_eq : front.toList ++ char :: back.toList = before.toList ++ other :: after.toList := by
    simpa using congrArg String.toList text_eq
  have size (text : String) : text.utf8ByteSize = Text.utf8Length text.toList := by
    rw [Text.utf8Length_eq_utf8ByteSize, String.ofList_toList]
  rw [size, size] at le
  rw [size, size, String.toList_append, String.toList_singleton, Text.utf8Length_append,
    Text.utf8Length_cons, Text.utf8Length_nil] at lt
  rcases List.append_eq_append_iff.mp toList_eq with ⟨between, before_eq, rest_eq⟩ |
    ⟨between, front_eq, rest_eq⟩
  · cases between with
    | nil => exact (List.cons.inj rest_eq).1.symm
    | cons first between =>
        obtain rfl := (List.cons.inj rest_eq).1
        rw [before_eq, Text.utf8Length_append, Text.utf8Length_cons] at lt
        omega
  · cases between with
    | nil => exact (List.cons.inj rest_eq).1
    | cons first between =>
        have := first.utf8Size_pos
        rw [front_eq, Text.utf8Length_append, Text.utf8Length_cons] at le
        omega

/-- The stretches of the lexemes behind the part of a text that has been read. -/
structure Tiles (text front : String) (found : List Lexeme) (spans : List Span) : Prop where
  occupied : List.Forall₂ (Lexeme.Occupies text) found spans
  ascending : spans.Pairwise fun first second => first.stop ≤ second.start
  behind : ∀ span ∈ spans, front.utf8ByteSize ≤ span.start
  outside : ∀ before char after, text = before ++ String.singleton char ++ after →
    front.utf8ByteSize ≤ before.utf8ByteSize → Text.isBlank char = true ∨
      ∃ span ∈ spans, span.start ≤ before.utf8ByteSize ∧ before.utf8ByteSize < span.stop

namespace Tiles

variable {spans : List Span}

/-- Nothing stands behind the end of a text. -/
theorem nil (text : String) : Tiles text text [] [] where
  occupied := .nil
  ascending := .nil
  behind := nofun
  outside before char after text_eq le := by
    have := char.utf8Size_pos
    have size := congrArg String.utf8ByteSize text_eq
    simp only [String.utf8ByteSize_append, String.utf8ByteSize_singleton] at size
    omega

/-- A blank belongs to no lexeme. -/
theorem blank (isBlank : Text.isBlank char = true)
    (text_eq : text = front ++ String.singleton char ++ back)
    (tiles : Tiles text (front ++ String.singleton char) found spans) :
    Tiles text front found spans where
  occupied := tiles.occupied
  ascending := tiles.ascending
  behind span mem := by
    have := tiles.behind span mem
    rw [String.utf8ByteSize_append] at this
    omega
  outside before other after other_eq le := by
    by_cases passed : (front ++ String.singleton char).utf8ByteSize ≤ before.utf8ByteSize
    · exact tiles.outside before other after other_eq passed
    · obtain rfl := eq_of_append_singleton_eq (text_eq.symm.trans other_eq) le (by omega)
      exact .inl isBlank

/-- A lexeme that is read from the next characters. -/
theorem cons (text_eq : text = front ++ slice ++ back) (spelled : lexeme.Spelled slice)
    (position_eq : lexeme.position = front.utf8ByteSize)
    (ends : lexeme.kind? = some .identifier → EndsName back.toList)
    (tiles : Tiles text (front ++ slice) found spans) :
    Tiles text front (lexeme :: found)
      (⟨front.utf8ByteSize, (front ++ slice).utf8ByteSize⟩ :: spans) := by
  have grows : front.utf8ByteSize < (front ++ slice).utf8ByteSize := by
    have := spelled.utf8ByteSize_pos
    rw [String.utf8ByteSize_append]
    omega
  constructor
  case occupied =>
    refine .cons ⟨position_eq.symm, grows, ?_⟩ tiles.occupied
    exact ⟨front, slice, back, text_eq, rfl, rfl, spelled, spelled.carries, ends⟩
  case ascending => exact .cons tiles.behind tiles.ascending
  case behind =>
    intro span mem
    rcases List.mem_cons.mp mem with rfl | later
    · exact Nat.le_refl _
    · exact Nat.le_trans (Nat.le_of_lt grows) (tiles.behind span later)
  case outside =>
    intro before char after char_eq le
    by_cases passed : (front ++ slice).utf8ByteSize ≤ before.utf8ByteSize
    · refine (tiles.outside before char after char_eq passed).imp_right ?_
      exact fun ⟨span, mem, inside⟩ => ⟨span, List.mem_cons_of_mem _ mem, inside⟩
    · exact .inr ⟨_, List.mem_cons_self, le, Nat.lt_of_not_le passed⟩

/-- What holds of every lexeme that is read from a stretch holds of all of them. -/
theorem forall_mem {p : Lexeme → Prop} (tiles : Tiles text front found spans)
    (holds : ∀ lexeme span, lexeme.Occupies text span → p lexeme) : ∀ lexeme ∈ found, p lexeme :=
  ((List.forall₂_and_left found spans).mp
    (tiles.occupied.imp fun lexeme span occupies => ⟨holds lexeme span occupies, occupies⟩)).1

/-- The lexemes start at ascending positions. -/
theorem pairwise_position (tiles : Tiles text front found spans) :
    found.Pairwise fun first second => first.position < second.position := by
  have starts_eq : spans.map Span.start = found.map Lexeme.position := by
    rw [← List.forall₂_eq_eq_eq, List.forall₂_map_left_iff, List.forall₂_map_right_iff]
    exact tiles.occupied.flip.imp fun span lexeme occupies => occupies.start_eq
  have grows : ∀ span ∈ spans, span.start < span.stop :=
    ((List.forall₂_and_left spans found).mp
      (tiles.occupied.flip.imp fun span lexeme occupies => ⟨occupies.start_lt, occupies⟩)).1
  have starts : (spans.map Span.start).Pairwise (· < ·) :=
    List.pairwise_map.mpr (tiles.ascending.imp_of_mem fun mem _ le =>
      Nat.lt_of_lt_of_le (grows _ mem) le)
  rw [starts_eq] at starts
  exact List.pairwise_map.mp starts

end Tiles

/-- The lexemes of the rest of a text tile the rest. -/
theorem exists_tiles_lexemesFrom {offset : Nat}
    (text_eq : text = front ++ String.ofList chars) (offset_eq : offset = front.utf8ByteSize) :
    ∃ spans, Tiles text front (lexemesFrom offset chars) spans := by
  fun_induction lexemesFrom offset chars generalizing front with
  | case1 offset =>
      obtain rfl : text = front := by simpa using text_eq
      exact ⟨[], .nil text⟩
  | case2 offset first rest blank ih =>
      rw [String.ofList_cons, ← String.append_assoc] at text_eq
      obtain ⟨spans, tiles⟩ := ih text_eq (by simp [offset_eq])
      exact ⟨spans, .blank blank text_eq tiles⟩
  | case3 offset first rest notBlank starts name =>
      rename_i ih
      have chars_eq : String.ofList (first :: rest) =
          String.ofList name ++ String.ofList (rest.dropWhile continuesName) := by
        rw [← String.ofList_append, List.cons_append, List.takeWhile_append_dropWhile]
      rw [chars_eq, ← String.append_assoc] at text_eq
      have size_eq : offset + Text.utf8Length name = (front ++ String.ofList name).utf8ByteSize := by
        rw [String.utf8ByteSize_append, offset_eq, Text.utf8Length_eq_utf8ByteSize]
      obtain ⟨spans, tiles⟩ := ih text_eq size_eq
      refine ⟨_, .cons text_eq (.name (isName_takeWhile starts rest)) offset_eq ?_ tiles⟩
      intro _
      rw [String.toList_ofList]
      exact endsName_dropWhile rest
  | case4 offset first rest notBlank notStart read =>
      rename_i ih
      have notBlank : Text.isBlank first = false := Bool.eq_false_iff.mpr notBlank
      have notStart : startsName first = false := Bool.eq_false_iff.mpr notStart
      rw [String.ofList_cons, ← String.append_assoc] at text_eq
      obtain ⟨spans, tiles⟩ := ih text_eq (by simp [offset_eq])
      obtain ⟨spelled, position_eq, notName⟩ := Lexeme.spelled_ofSole notBlank notStart offset
      exact ⟨_, .cons text_eq spelled (position_eq.trans offset_eq) (absurd · notName) tiles⟩

/-- The lexemes of a text are read from disjoint stretches of it, and outside of these
the text is blank. -/
theorem exists_tiles_lexemes (text : String) : ∃ spans, Tiles text "" (lexemes text) spans :=
  exists_tiles_lexemesFrom (by simp) (by simp)

/-! ## Reading lexemes one at a time -/

/-- Reading goes through the lexemes of a text and stays at its end. -/
theorem Lexer.answers_replicate_next (lexer : Lexer) (more : Nat) :
    lexer.answers (.replicate (lexer.pending.length + more) .next) =
      lexer.pending ++ .replicate more (.token lexer.ending) := by
  obtain ⟨pending, finish⟩ := lexer
  induction pending with
  | nil =>
      rw [List.length_nil, Nat.zero_add, List.nil_append]
      induction more with
      | zero => rfl
      | succ more ih => exact congrArg _ ih
  | cons first rest ih =>
      rw [List.length_cons, Nat.add_right_comm, List.replicate_succ, answers]
      exact congrArg _ ih

/-- A text has no more lexemes than characters. -/
theorem length_lexemesFrom_le (offset : Nat) (chars : List Char) :
    (lexemesFrom offset chars).length ≤ chars.length := by
  fun_induction lexemesFrom offset chars with
  | case1 => exact Nat.le_refl 0
  | case2 offset first rest blank ih => exact Nat.le_succ_of_le ih
  | case3 offset first rest notBlank starts name ih =>
      have shorter := (List.dropWhile_sublist continuesName (l := rest)).length_le
      exact Nat.succ_le_succ (Nat.le_trans ih shorter)
  | case4 offset first rest notBlank notStart read ih => exact Nat.succ_le_succ ih

/-- Reading a text gives lexemes that tile it, not more than it has characters, and
the end of the text from then on. -/
theorem lexemes_tile (text : String) :
    (lexemes text).length ≤ text.length ∧
    (∀ lexeme ∈ lexemes text, lexeme.kind? ≠ some .ending) ∧
    (∀ more, (Lexer.ofText text).answers (.replicate ((lexemes text).length + more) .next) =
      lexemes text ++ .replicate more (.token ⟨.ending, "", text.utf8ByteSize⟩)) ∧
    ∃ spans : List Span, List.Forall₂ (Lexeme.Occupies text) (lexemes text) spans ∧
      spans.Pairwise (fun first second => first.stop ≤ second.start) ∧
      BlankOutside text spans := by
  obtain ⟨spans, tiles⟩ := exists_tiles_lexemes text
  refine ⟨?_, ?_, ?_, spans, tiles.occupied, tiles.ascending, ?_⟩
  · exact length_lexemesFrom_le 0 text.toList
  · exact tiles.forall_mem fun lexeme span occupies => occupies.kind?_ne_ending
  · intro more
    have size_eq : Text.utf8Length text.toList = text.utf8ByteSize := by
      rw [Text.utf8Length_eq_utf8ByteSize, String.ofList_toList]
    rw [← size_eq]
    exact (Lexer.ofText text).answers_replicate_next more
  · exact fun before char after text_eq => tiles.outside before char after text_eq (Nat.zero_le _)

end Switching
