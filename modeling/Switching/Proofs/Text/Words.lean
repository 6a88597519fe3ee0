import Mathlib.Data.List.Basic
import Switching.Text.Blank
import Switching.Text.Decimal

/-!
# Words and lines of texts

Cutting a text undoes joining it: words that are joined by blanks are the words
of the joined text, and lines that each end in a line feed are its lines.  A
small number is read back from its digits.
-/

namespace Switching.Text

/-- A word is not empty and has no blank in it. -/
def IsWord (word : String) : Prop :=
  word ≠ "" ∧ ∀ c ∈ word.toList, isBlank c = false

theorem isWord_iff {word : String} :
    IsWord word ↔ word ≠ "" ∧ word.toList.all (!isBlank ·) = true := by
  simp [IsWord]

instance : DecidablePred IsWord := fun _ =>
  decidable_of_iff _ isWord_iff.symm

variable {separates : Char → Bool} {chars front rest : List Char} {separator : Char}
  {word : String} {list : List String}

theorem IsWord.toList_ne_nil (isWord : IsWord word) : word.toList ≠ [] :=
  fun empty => isWord.1 (String.toList_eq_nil_iff.mp empty)

theorem IsWord.append {other : String} (isWord : IsWord word) (isOther : IsWord other) :
    IsWord (word ++ other) := by
  refine ⟨fun empty => isWord.1 (String.append_eq_empty_iff.mp empty).1, ?_⟩
  rw [String.toList_append]
  exact List.forall_mem_append.mpr ⟨isWord.2, isOther.2⟩

/-! ## Pieces -/

/-- The first piece reaches up to the first separator. -/
theorem pieces_append_cons (plain : ∀ c ∈ front, separates c = false)
    (separated : separates separator = true) :
    pieces separates (front ++ separator :: rest) = front :: pieces separates rest := by
  induction front with
  | nil => rw [List.nil_append, pieces, if_pos separated]
  | cons c front ih =>
      rw [List.forall_mem_cons] at plain
      rw [List.cons_append, pieces, if_neg (by simp [plain.1]), ih plain.2]
      rfl

theorem pieces_eq_singleton (plain : ∀ c ∈ chars, separates c = false) :
    pieces separates chars = [chars] := by
  induction chars with
  | nil => rfl
  | cons c rest ih =>
      rw [List.forall_mem_cons] at plain
      rw [pieces, if_neg (by simp [plain.1]), ih plain.2]
      rfl

/-- No piece has a separator in it. -/
theorem forall_mem_pieces :
    ∀ piece ∈ pieces separates chars, ∀ c ∈ piece, separates c = false := by
  induction chars with
  | nil => simp [pieces]
  | cons c rest ih =>
      rw [pieces]
      split
      · exact List.forall_mem_cons.mpr ⟨by simp, ih⟩
      · rename_i plain
        rw [Bool.not_eq_true] at plain
        cases pieces_eq : pieces separates rest with
        | nil => exact List.forall_mem_singleton.mpr (List.forall_mem_singleton.mpr plain)
        | cons piece more =>
            rw [pieces_eq, List.forall_mem_cons] at ih
            exact List.forall_mem_cons.mpr ⟨List.forall_mem_cons.mpr ⟨plain, ih.1⟩, ih.2⟩

/-- Lines that each end in a line feed, with nothing behind the last one. -/
theorem lines_toList_join (plain : ∀ line ∈ list, '\n' ∉ line.toList) :
    lines (String.join (list.map (· ++ "\n"))).toList = list.map String.toList ++ [[]] := by
  induction list with
  | nil => rfl
  | cons line rest ih =>
      rw [List.forall_mem_cons] at plain
      have chars_eq : (String.join ((line :: rest).map (· ++ "\n"))).toList =
          line.toList ++ '\n' :: (String.join (rest.map (· ++ "\n"))).toList := by
        simp [String.toList_join]
      have plainLine : ∀ c ∈ line.toList, (c == '\n') = false := fun c mem =>
        beq_false_of_ne (ne_of_mem_of_not_mem mem plain.1)
      rw [lines] at ih ⊢
      rw [chars_eq, pieces_append_cons plainLine (beq_self_eq_true _), ih plain.2]
      rfl

/-! ## Words -/

/-- What a text is cut into are words. -/
theorem isWord_of_mem_words (mem : word ∈ words chars) : IsWord word := by
  simp only [words, List.mem_map, List.mem_filter] at mem
  obtain ⟨piece, ⟨piece_mem, nonempty⟩, rfl⟩ := mem
  refine ⟨?_, ?_⟩
  · intro empty
    rw [String.ofList_eq_empty_iff] at empty
    simp [empty] at nonempty
  · rw [String.toList_ofList]
    exact forall_mem_pieces piece piece_mem

theorem toList_intercalate_cons_cons (word next : String) (list : List String) :
    (" ".intercalate (word :: next :: list)).toList =
      word.toList ++ ' ' :: (" ".intercalate (next :: list)).toList := by
  rw [String.intercalate_cons_cons]
  simp

/-- The words of joined words. -/
theorem words_intercalate (areWords : ∀ word ∈ list, IsWord word) :
    words (" ".intercalate list).toList = list := by
  have pieces_eq : (pieces isBlank (" ".intercalate list).toList).filter (!·.isEmpty) =
      list.map String.toList := by
    induction list with
    | nil => rfl
    | cons word rest ih =>
        rw [List.forall_mem_cons] at areWords
        obtain ⟨isWord, areWords⟩ := areWords
        cases rest with
        | nil =>
            rw [String.intercalate_singleton, pieces_eq_singleton isWord.2]
            simp [isWord.toList_ne_nil]
        | cons next rest =>
            rw [toList_intercalate_cons_cons, pieces_append_cons isWord.2 (by decide),
              List.filter_cons, if_pos (by simpa using isWord.toList_ne_nil), ih areWords]
            rfl
  rw [words, pieces_eq, List.map_map]
  simp [Function.comp_def]

/-- Joined words have only their own characters and blanks between them. -/
theorem not_mem_intercalate {c : Char} (areWords : ∀ word ∈ list, IsWord word)
    (blank : isBlank c = true) (other : c ≠ ' ') : c ∉ (" ".intercalate list).toList := by
  induction list with
  | nil => simp
  | cons word rest ih =>
      rw [List.forall_mem_cons] at areWords
      obtain ⟨isWord, areWords⟩ := areWords
      have notMem : c ∉ word.toList := fun mem => by
        have := isWord.2 c mem
        rw [blank] at this
        cases this
      cases rest with
      | nil => rwa [String.intercalate_singleton]
      | cons next rest =>
          rw [toList_intercalate_cons_cons, List.mem_append, List.mem_cons]
          exact not_or.mpr ⟨notMem, not_or.mpr ⟨other, ih areWords⟩⟩

/-! ## Stripping -/

theorem dropWhile_isBlank_eq_self (first : ∀ c ∈ chars.head?, isBlank c = false) :
    chars.dropWhile isBlank = chars := by
  cases chars with
  | nil => rfl
  | cons c rest => exact List.dropWhile_cons_of_neg (by simp [first c rfl])

/-- There is nothing to strip from a text without blanks at its ends. -/
theorem trim_eq_self (first : ∀ c ∈ chars.head?, isBlank c = false)
    (last : ∀ c ∈ chars.getLast?, isBlank c = false) : trim chars = chars := by
  rw [← List.head?_reverse] at last
  rw [trim, dropWhile_isBlank_eq_self first, dropWhile_isBlank_eq_self last, List.reverse_reverse]

/-- Stripping takes only blanks away. -/
theorem filter_trim {keeps : Char → Bool} (drops : ∀ c, isBlank c = true → keeps c = false)
    (chars : List Char) : (trim chars).filter keeps = chars.filter keeps := by
  have filter_dropWhile : ∀ chars : List Char,
      (chars.dropWhile isBlank).filter keeps = chars.filter keeps := by
    intro chars
    induction chars with
    | nil => rfl
    | cons c rest ih =>
        by_cases blank : isBlank c = true
        · rw [List.dropWhile_cons_of_pos blank, ih,
            List.filter_cons_of_neg (by simp [drops c blank])]
        · rw [List.dropWhile_cons_of_neg blank]
  rw [trim, List.filter_reverse, filter_dropWhile, List.filter_reverse, filter_dropWhile,
    List.reverse_reverse]

theorem mem_of_mem_trim {c : Char} (mem : c ∈ trim chars) : c ∈ chars := by
  rw [trim, List.mem_reverse] at mem
  have mem := (List.dropWhile_sublist isBlank).subset mem
  rw [List.mem_reverse] at mem
  exact (List.dropWhile_sublist isBlank).subset mem

/-- What is left of a text ends in a character that is not blank. -/
theorem exists_mem_trim (nonempty : trim chars ≠ []) : ∃ c ∈ trim chars, isBlank c = false := by
  rw [trim, ne_eq, List.reverse_eq_nil_iff] at nonempty
  refine ⟨_, ?_, List.head_dropWhile_not isBlank nonempty⟩
  rw [trim, List.mem_reverse]
  exact List.head_mem nonempty

/-- Joined words have no blanks at their ends. -/
theorem ends_intercalate (areWords : ∀ word ∈ list, IsWord word) :
    (∀ c ∈ (" ".intercalate list).toList.head?, isBlank c = false) ∧
      ∀ c ∈ (" ".intercalate list).toList.getLast?, isBlank c = false := by
  induction list with
  | nil => simp
  | cons word rest ih =>
      rw [List.forall_mem_cons] at areWords
      obtain ⟨isWord, areWords⟩ := areWords
      have first : ∀ c ∈ word.toList.head?, isBlank c = false :=
        fun c mem => isWord.2 c (List.mem_of_mem_head? mem)
      have last : ∀ c ∈ word.toList.getLast?, isBlank c = false :=
        fun c mem => isWord.2 c (List.mem_of_mem_getLast? mem)
      cases rest with
      | nil =>
          rw [String.intercalate_singleton]
          exact ⟨first, last⟩
      | cons next rest =>
          have nonempty : (" ".intercalate (next :: rest)).toList ≠ [] := by
            have := (areWords next List.mem_cons_self).toList_ne_nil
            cases rest <;> simp [this]
          rw [toList_intercalate_cons_cons, List.head?_append_of_ne_nil _ isWord.toList_ne_nil,
            List.append_cons, List.getLast?_append_of_ne_nil _ nonempty]
          exact ⟨first, (ih areWords).2⟩

/-- There is nothing to strip from joined words. -/
theorem trim_intercalate (areWords : ∀ word ∈ list, IsWord word) :
    trim (" ".intercalate list).toList = (" ".intercalate list).toList :=
  trim_eq_self (ends_intercalate areWords).1 (ends_intercalate areWords).2

/-! ## Numbers -/

variable {number : Nat}

theorem isDigit_of_mem_toString {c : Char} (mem : c ∈ (toString number).toList) :
    c.isDigit = true :=
  Nat.isDigit_of_mem_toDigits (by decide) (by decide) (Nat.toList_repr ▸ mem)

theorem isBlank_of_isDigit {c : Char} (digit : c.isDigit = true) : isBlank c = false := by
  rw [Char.isDigit_iff_toNat] at digit
  change 0x30 ≤ c.toNat ∧ c.toNat ≤ 0x39 at digit
  simp only [isBlank, blankCodePoints, List.contains_eq_mem, decide_eq_false_iff_not, List.mem_cons,
    List.not_mem_nil, or_false, not_or]
  omega

/-- The digits of a number are a word. -/
theorem isWord_toString (number : Nat) : IsWord (toString number) := by
  refine ⟨fun empty => ?_, fun c mem => isBlank_of_isDigit (isDigit_of_mem_toString mem)⟩
  have nil_eq := String.toList_eq_nil_iff.mpr empty
  exact Nat.toDigits_ne_nil (Nat.toList_repr.symm.trans nil_eq)

/-- Different numbers have different digits. -/
theorem toString_injective : Function.Injective (toString : Nat → String) := by
  intro first second same
  have digits_eq : Nat.toDigits 10 first = Nat.toDigits 10 second :=
    Nat.toList_repr.symm.trans ((congrArg String.toList same).trans Nat.toList_repr)
  have value_eq := congrArg (Nat.ofDigitChars 10 · 0) digits_eq
  rwa [Nat.ofDigitChars_toDigits (by decide) (by decide),
    Nat.ofDigitChars_toDigits (by decide) (by decide)] at value_eq

theorem digitsValue?_eq {digits : List Char} (areDigits : ∀ c ∈ digits, c.isDigit = true) :
    digitsValue? digits = some (Nat.ofDigitChars 10 digits 0) := by
  rw [digitsValue?]
  generalize 0 = value
  induction digits generalizing value with
  | nil => rfl
  | cons digit rest ih =>
      rw [List.forall_mem_cons] at areDigits
      rw [List.foldlM_cons, if_pos areDigits.1, Nat.ofDigitChars_cons]
      exact ih areDigits.2 _

/-- A number below the limit is read back from its digits. -/
theorem size?_toString (fits : number < sizeLimit) : size? (toString number) = some number := by
  have chars_eq : (toString number).toList = Nat.toDigits 10 number := Nat.toList_repr
  have areDigits : ∀ c ∈ Nat.toDigits 10 number, c.isDigit = true :=
    fun c => Nat.isDigit_of_mem_toDigits (by decide) (by decide)
  have value_eq : digitsValue? (Nat.toDigits 10 number) = some number := by
    rw [digitsValue?_eq areDigits, Nat.ofDigitChars_toDigits (by decide) (by decide)]
  rw [size?, chars_eq]
  split
  · -- A sign is not a digit.
    rename_i rest same
    cases areDigits '+' (by rw [same]; exact List.mem_cons_self)
  · rw [if_neg (by simp [Nat.toDigits_ne_nil]), value_eq,
      Option.filter_some_pos (by simpa using fits)]

end Switching.Text
