import InfixCalculator.Proofs.Reading

namespace InfixCalculator

/-! Where lexemes end.

A numeral is as long as it can be, so it ends before any character that is neither a digit nor a point.
Text is cut at such a character without regard to what stands before it (`Lexeme.cut_append`), so what
an operand is read as does not depend on what follows (`ReadAs`). -/

/-- Digits, with a point among them or after them or before them or without one. -/
inductive IsNumeral : List Char → Prop where
  | whole {digits : List Char} (nonempty : digits ≠ [])
      (all : ∀ c ∈ digits, Decimal.isDigit c = true) : IsNumeral digits
  | pointed {whole fraction : List Char} (nonempty : whole ++ fraction ≠ [])
      (all : ∀ c ∈ whole ++ fraction, Decimal.isDigit c = true) :
      IsNumeral (whole ++ '.' :: fraction)

theorem IsNumeral.ne_nil {text : List Char} (numeral : IsNumeral text) : text ≠ [] := by
  cases numeral with
  | whole nonempty all => exact nonempty
  | pointed nonempty all => simp

theorem IsNumeral.digit {c : Char} (isDigit : Decimal.isDigit c = true) : IsNumeral [c] :=
  .whole (List.cons_ne_nil c []) (List.forall_mem_singleton.mpr isDigit)

theorem isDigit_iff {c : Char} :
    Decimal.isDigit c = true ↔ c ∈ ['0', '1', '2', '3', '4', '5', '6', '7', '8', '9'] := by
  have range : Decimal.isDigit c = true ↔ 48 ≤ c.toNat ∧ c.toNat ≤ 57 := by
    rw [Decimal.isDigit, Bool.and_eq_true, decide_eq_true_eq, decide_eq_true_eq]
    rfl
  simp only [range, List.mem_cons, List.not_mem_nil, or_false, ← Char.toNat_inj, Char.reduceToNat]
  omega

theorem isBlank_of_isDigit {c : Char} (digit : Decimal.isDigit c = true) :
    Text.isBlank c = false := by
  simp only [isDigit_iff, List.mem_cons, List.not_mem_nil, or_false] at digit
  rcases digit with rfl | rfl | rfl | rfl | rfl | rfl | rfl | rfl | rfl | rfl <;> rfl

theorem IsNumeral.isDigit_or_point {text : List Char} (numeral : IsNumeral text) {c : Char}
    (member : c ∈ text) : Decimal.isDigit c = true ∨ c = '.' := by
  cases numeral with
  | whole nonempty all => exact .inl (all c member)
  | pointed nonempty all =>
      rcases List.mem_append.mp member with whole | (_ | ⟨_, fraction⟩)
      · exact .inl (all c (List.mem_append_left _ whole))
      · exact .inr rfl
      · exact .inl (all c (List.mem_append_right _ fraction))

theorem IsNumeral.visible_eq {text : List Char} (numeral : IsNumeral text) :
    Text.visible text = text := by
  refine Text.visible_of_all fun c member => ?_
  rcases numeral.isDigit_or_point member with digit | rfl
  · exact isBlank_of_isDigit digit
  · decide

/-- Nothing at the beginning of the text goes on with a numeral. -/
def EndsNumeral (text : List Char) : Prop := ∀ c ∈ text.head?, Decimal.isDigit c = false ∧ c ≠ '.'

@[simp] theorem endsNumeral_nil : EndsNumeral [] := by simp [EndsNumeral]

@[simp] theorem endsNumeral_cons {c : Char} {rest : List Char} :
    EndsNumeral (c :: rest) ↔ Decimal.isDigit c = false ∧ c ≠ '.' := by simp [EndsNumeral]

theorem takeWhile_isDigit_append (text : List Char) {rest : List Char} (ends : EndsNumeral rest) :
    (text ++ rest).takeWhile Decimal.isDigit = text.takeWhile Decimal.isDigit := by
  induction text with
  | nil =>
      cases rest with
      | nil => rfl
      | cons c rest => simp [(endsNumeral_cons.mp ends).1]
  | cons c text ih => simp only [List.cons_append, List.takeWhile_cons, ih]

namespace Lexeme

theorem leadingNumeral_whole {text : List Char}
    (after : (text.drop (text.takeWhile Decimal.isDigit).length).head? ≠ some '.') :
    leadingNumeral text = text.takeWhile Decimal.isDigit := by
  unfold leadingNumeral
  dsimp only
  split
  · next rest point => exact absurd (by rw [point]; rfl) after
  · rfl

theorem leadingNumeral_pointed {text rest : List Char}
    (after : text.drop (text.takeWhile Decimal.isDigit).length = '.' :: rest) :
    leadingNumeral text =
      if text.takeWhile Decimal.isDigit = [] ∧ rest.takeWhile Decimal.isDigit = [] then []
      else text.takeWhile Decimal.isDigit ++ '.' :: rest.takeWhile Decimal.isDigit := by
  simp only [leadingNumeral, after]

theorem leadingNumeral_append (text : List Char) {rest : List Char} (ends : EndsNumeral rest) :
    leadingNumeral (text ++ rest) = leadingNumeral text := by
  have whole := takeWhile_isDigit_append text ends
  have after : (text ++ rest).drop ((text ++ rest).takeWhile Decimal.isDigit).length =
      text.drop (text.takeWhile Decimal.isDigit).length ++ rest := by
    rw [whole, List.drop_append_of_le_length (List.takeWhile_prefix Decimal.isDigit).length_le]
  by_cases point : (text.drop (text.takeWhile Decimal.isDigit).length).head? = some '.'
  · obtain ⟨tail, tailEq⟩ := List.head?_eq_some_iff.mp point
    rw [tailEq, List.cons_append] at after
    rw [leadingNumeral_pointed after, leadingNumeral_pointed tailEq, whole,
      takeWhile_isDigit_append tail ends]
  · rw [leadingNumeral_whole point, leadingNumeral_whole, whole]
    rw [after]
    intro found
    cases remaining : text.drop (text.takeWhile Decimal.isDigit).length with
    | nil =>
        rw [remaining, List.nil_append] at found
        exact (ends _ found).2 rfl
    | cons c more =>
        rw [remaining] at found point
        exact point found

theorem leadingNumeral_of_isNumeral {text : List Char} (numeral : IsNumeral text) :
    leadingNumeral text = text := by
  have taken {digits : List Char} (all : ∀ c ∈ digits, Decimal.isDigit c = true) :
      digits.takeWhile Decimal.isDigit = digits := by
    simpa using @List.takeWhile_append_of_pos _ _ _ [] all
  cases numeral with
  | whole nonempty all => rw [leadingNumeral_whole (by simp [taken all]), taken all]
  | @pointed whole fraction nonempty all =>
      have wholeTaken : (whole ++ '.' :: fraction).takeWhile Decimal.isDigit = whole := by
        rw [List.takeWhile_append_of_pos fun c member => all c (List.mem_append_left _ member),
          List.takeWhile_cons_of_neg (by decide), List.append_nil]
      rw [@leadingNumeral_pointed _ fraction (by rw [wholeTaken, List.drop_left]), wholeTaken,
        taken fun c member => all c (List.mem_append_right _ member), if_neg]
      rintro ⟨rfl, rfl⟩
      exact nonempty rfl

theorem isNumeral_leadingNumeral {text : List Char} (found : leadingNumeral text ≠ []) :
    IsNumeral (leadingNumeral text) := by
  have digits (text : List Char) : ∀ c ∈ text.takeWhile Decimal.isDigit, Decimal.isDigit c = true :=
    fun c member => (List.all_eq_true.mp List.all_takeWhile) c member
  unfold leadingNumeral at found ⊢
  dsimp only at found ⊢
  split at found
  · next tail after =>
      split at found
      · contradiction
      · next nonempty =>
          rw [if_neg nonempty]
          refine .pointed ?_ ?_
          · rw [Ne, List.append_eq_nil_iff]
            exact nonempty
          · intro c member
            rcases List.mem_append.mp member with member | member
            · exact digits text c member
            · exact digits tail c member
  · exact .whole found (digits text)

theorem cut_cons {c : Char} {rest : List Char} (ends : EndsNumeral (c :: rest)) :
    cut (c :: rest) = ofChar c :: cut rest := by
  have none : leadingNumeral (c :: rest) = [] := leadingNumeral_append [] ends
  rw [cut, none]

theorem cut_numeral_append {text rest : List Char} (numeral : IsNumeral text)
    (ends : EndsNumeral rest) : cut (text ++ rest) = .numeral text :: cut rest := by
  have leading : leadingNumeral (text ++ rest) = text := by
    rw [leadingNumeral_append text ends, leadingNumeral_of_isNumeral numeral]
  cases text with
  | nil => exact absurd rfl numeral.ne_nil
  | cons first more =>
      rw [List.cons_append] at leading ⊢
      rw [cut, leading]
      simp

theorem cut_append (text : List Char) {rest : List Char} (ends : EndsNumeral rest) :
    cut (text ++ rest) = cut text ++ cut rest := by
  fun_induction cut text with
  | case1 => rfl
  | case2 first more none ih =>
      have still := leadingNumeral_append (first :: more) ends
      rw [none, List.cons_append] at still
      rw [List.cons_append, cut, still, ih, List.cons_append]
  | case3 first more digit tail numeral ih =>
      have still := leadingNumeral_append (first :: more) ends
      obtain ⟨_, whole⟩ := leadingNumeral_prefix (first :: more)
      have within : tail.length ≤ more.length := by
        have length := congrArg List.length whole
        rw [numeral] at length
        simp only [List.length_append, List.length_cons] at length
        omega
      rw [numeral, List.cons_append] at still
      rw [List.cons_append, cut, still]
      simp only [List.drop_append_of_le_length within, ih, List.cons_append]

/-- What is spelled as a numeral is one. -/
def Valid : Lexeme → Prop
  | .numeral spelling => IsNumeral spelling
  | .constant | .minus | .openParen | .closeParen | .symbol _ | .stray _ => True

theorem valid_ofChar (c : Char) : (ofChar c).Valid := by
  unfold ofChar
  repeat' split
  all_goals trivial

theorem valid_cut (text : List Char) : ∀ lexeme ∈ cut text, lexeme.Valid := by
  fun_induction cut text with
  | case1 => simp
  | case2 first rest none ih => exact List.forall_mem_cons.mpr ⟨valid_ofChar first, ih⟩
  | case3 first rest digit more numeral ih =>
      refine List.forall_mem_cons.mpr ⟨?_, ih⟩
      rw [Valid, ← numeral]
      exact isNumeral_leadingNumeral (by rw [numeral]; simp)

theorem ofChar_symbol (operation : Operator) : ofChar operation.symbol =
    if operation = .binary .subtract then .minus else .symbol operation.symbol := by
  cases operation with
  | function named => cases named <;> rfl
  | binary sign => cases sign <;> rfl
  | factorial => rfl

end Lexeme

theorem endsNumeral_symbol (operation : Operator) (rest : List Char) :
    EndsNumeral (operation.symbol :: rest) := by
  rw [endsNumeral_cons]
  cases operation with
  | function named => cases named <;> decide
  | binary sign => cases sign <;> decide
  | factorial => decide

theorem Reads.char {table : OperatorTable} {c : Char} {token : Token} {afterOperand : Bool}
    {rest : List Char} {more : List Token} (ends : EndsNumeral [c])
    (resolved : Reading.resolve table 0 (Lexeme.ofChar c) = .ok token)
    (plain : Lexeme.ofChar c ≠ .minus)
    (reads : Reads table token.completesOperand (Lexeme.cut rest) more) :
    Reads table afterOperand (Lexeme.cut (c :: rest)) (token :: more) := by
  rw [Lexeme.cut_cons (endsNumeral_cons.mpr (endsNumeral_cons.mp ends))]
  exact .token resolved (fun minus => absurd minus plain) reads

/-- An operator is read where it stands behind its operand; a minus needs no entry for that. -/
theorem Reads.operator {table : OperatorTable} (operation : Operator) {afterOperand : Bool}
    {rest : List Char} {more : List Token}
    (known : operation ≠ .binary .subtract → (table.entry? operation).isSome = true)
    (subtracts : operation = .binary .subtract → afterOperand = true)
    (reads : Reads table (Token.operator operation).completesOperand (Lexeme.cut rest) more) :
    Reads table afterOperand (Lexeme.cut (operation.symbol :: rest))
      (.operator operation :: more) := by
  rw [Lexeme.cut_cons (endsNumeral_symbol operation rest), Lexeme.ofChar_symbol]
  by_cases minus : operation = .binary .subtract
  · subst minus
    exact .token rfl (fun _ => subtracts rfl) reads
  · obtain ⟨entry, found⟩ := Option.isSome_iff_exists.mp (known minus)
    rw [if_neg minus]
    refine .token ?_ nofun reads
    simp only [Reading.resolve, OperatorTable.lookup?_symbol_eq, found,
      OperatorTable.entry?_operator found]

/-- A text that is read as an operand with these tokens, whatever comes behind the operand. -/
def ReadAs (table : OperatorTable) (text : List Char) (tokens : List Token) : Prop :=
  ∀ rest more, EndsNumeral rest → Reads table true (Lexeme.cut rest) more →
    Reads table false (Lexeme.cut (text ++ rest)) (tokens ++ more)

namespace ReadAs

variable {table : OperatorTable} {s : List Char} {first : List Token}

theorem group (inner : ReadAs table s first) :
    ReadAs table ('(' :: s ++ [')']) (.openParen :: first ++ [.closeParen]) := by
  intro rest more ends reads
  simp only [List.append_assoc, List.cons_append, List.nil_append]
  refine .char (endsNumeral_cons.mpr (by decide)) rfl (by decide)
    (inner _ _ (endsNumeral_cons.mpr (by decide)) ?_)
  exact .char (endsNumeral_cons.mpr (by decide)) rfl (by decide) reads

theorem number (numeral : IsNumeral s) : ReadAs table s [.number (Numeral.read s)] := by
  intro rest more ends reads
  rw [Lexeme.cut_numeral_append numeral ends]
  exact .token rfl (fun minus => absurd minus (by simp)) reads

theorem negative (numeral : IsNumeral s) : ReadAs table ('-' :: s) [.number (-Numeral.read s)] := by
  intro rest more ends reads
  rw [List.cons_append, Lexeme.cut_cons (endsNumeral_cons.mpr (by decide)),
    Lexeme.cut_numeral_append numeral ends]
  exact .signed rfl rfl reads

theorem signed (minus : Bool) (numeral : IsNumeral s) :
    ReadAs table ((if minus then ['-'] else []) ++ s)
      [.number (if minus then -Numeral.read s else Numeral.read s)] := by
  cases minus with
  | false => exact number numeral
  | true => exact negative numeral

theorem constant : ReadAs table ['p'] [.constant] := by
  intro rest more ends reads
  exact .char (endsNumeral_cons.mpr (by decide)) rfl (by decide) reads

theorem negativeConstant : ReadAs table ['-', 'p'] [.number (-circleConstant)] := by
  intro rest more ends reads
  rw [List.cons_append, List.singleton_append, Lexeme.cut_cons (endsNumeral_cons.mpr (by decide)),
    Lexeme.cut_cons (endsNumeral_cons.mpr (by decide))]
  exact .signed rfl rfl reads

end ReadAs
end InfixCalculator
