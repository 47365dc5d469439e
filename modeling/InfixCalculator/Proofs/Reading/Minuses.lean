import InfixCalculator.Binary64.Bits
import InfixCalculator.Proofs.ReadBack
import InfixCalculator.Proofs.Reading.Breaches

namespace InfixCalculator

/-! What becomes of the minuses of a text.

Each is a subtraction or the sign of a number, and none is lost or made up. A subtraction stands right
behind an operand and a number with a sign does not, so the tokens tell which minus was which
(`Token.read_minuses`). -/

variable {table : OperatorTable}

namespace Lexeme

/-- A lexeme is a numeral, or a single character that is taken for what it is. -/
theorem numeral_or_ofChar_of_mem_cut {text : List Char} {lexeme : Lexeme} (member : lexeme ∈ cut text) :
    (∃ s, lexeme = .numeral s) ∨ ∃ c, lexeme = ofChar c := by
  fun_induction cut text with
  | case1 => cases member
  | case2 first rest none ih =>
      rcases List.mem_cons.mp member with rfl | member
      · exact .inr ⟨first, rfl⟩
      · exact ih member
  | case3 first rest digit more numeral ih =>
      rcases List.mem_cons.mp member with rfl | member
      · exact .inl ⟨_, rfl⟩
      · exact ih member

theorem ofChar_eq_minus_iff {c : Char} : ofChar c = .minus ↔ c = '-' := by
  unfold ofChar
  repeat' split
  all_goals simp_all

/-- A minus is never taken for a symbol. -/
theorem symbol_minus_not_mem_cut (text : List Char) : .symbol '-' ∉ cut text := by
  intro member
  rcases numeral_or_ofChar_of_mem_cut member with ⟨s, same⟩ | ⟨c, same⟩
  · cases same
  · have spelled : ['-'] = [c] := (congrArg spelling same).trans (spelling_ofChar c)
    rw [← List.singleton_inj.mp spelled] at same
    cases same

theorem count_minus_spelling {text : List Char} {lexeme : Lexeme} (member : lexeme ∈ cut text) :
    lexeme.spelling.count '-' = if lexeme = .minus then 1 else 0 := by
  have valid := valid_cut text lexeme member
  rcases numeral_or_ofChar_of_mem_cut member with ⟨s, rfl⟩ | ⟨c, rfl⟩
  · refine List.count_eq_zero.mpr fun minus => ?_
    rcases IsNumeral.isDigit_or_point valid minus with digit | point
    · cases digit
    · cases point
  · rw [spelling_ofChar, List.count_singleton]
    simp only [ofChar_eq_minus_iff, beq_iff_eq]

/-- The minuses of a text are its minus lexemes. -/
theorem count_minus_cut (text : List Char) : (cut text).count .minus = text.count '-' := by
  have spelled := fun lexeme => @count_minus_spelling text lexeme
  conv => rhs; rw [← spelling_cut text]
  generalize cut text = lexemes at spelled
  induction lexemes with
  | nil => rfl
  | cons first rest ih =>
      obtain ⟨here, more⟩ := List.forall_mem_cons.mp spelled
      rw [List.flatMap_cons, List.count_append, List.count_cons, here, ih more, Nat.add_comm]
      simp only [beq_iff_eq]

end Lexeme

theorem Text.count_visible {c : Char} (shown : isBlank c = false) (text : List Char) :
    (visible text).count c = text.count c := by
  refine List.count_filter ?_
  rw [shown, Bool.not_false]

namespace Token

/-- A number with the sign bit set, which negative zero has as well. -/
def isSigned : Token → Bool
  | .number value => Binary64.isNegative value
  | .constant | .operator _ | .openParen | .closeParen => false

/-- Whether an operand ends with the tokens before a place; where there are none, `afterOperand` says it. -/
def behindOperand (afterOperand : Bool) (before : List Token) : Bool :=
  (before.getLast?.map completesOperand).getD afterOperand

theorem behindOperand_cons (afterOperand : Bool) (first : Token) (rest : List Token) :
    behindOperand afterOperand (first :: rest) = behindOperand first.completesOperand rest := by
  rw [behindOperand, behindOperand, List.getLast?_cons]
  cases rest.getLast? <;> rfl

/-- A subtraction is behind an operand, and a number with a sign is not. -/
def MinusFits (token : Token) (afterOperand : Bool) : Prop :=
  (token = .operator (.binary .subtract) → afterOperand = true) ∧
    (token.isSigned = true → afterOperand = false)

end Token

namespace Reading

variable {lexeme : Lexeme} {token number : Token} {position : Nat}

theorem eq_subtract_iff_of_resolve (plain : lexeme ≠ .symbol '-')
    (resolved : resolve table position lexeme = .ok token) :
    token = .operator (.binary .subtract) ↔ lexeme = .minus := by
  cases lexeme with
  | numeral | constant | minus | openParen | closeParen =>
      cases resolved
      simp
  | symbol character =>
      obtain ⟨entry, found, rfl⟩ := resolve_symbol_eq_ok resolved
      refine iff_of_false (fun same => plain ?_) nofun
      rw [← OperatorTable.lookup?_symbol found, OperatorEntry.symbol, Token.operator.inj same]
      rfl
  | stray character => exact absurd resolved resolve_stray_ne_ok

theorem isSigned_of_resolve (resolved : resolve table position lexeme = .ok token) :
    token.isSigned = false := by
  cases lexeme with
  | numeral spelling =>
      cases resolved
      exact Numeral.isNegative_read spelling
  | constant | minus | openParen | closeParen =>
      cases resolved
      rfl
  | symbol character =>
      obtain ⟨entry, found, rfl⟩ := resolve_symbol_eq_ok resolved
      rfl
  | stray character => exact absurd resolved resolve_stray_ne_ok

theorem isSigned_of_negated (resolved : resolve table position lexeme = .ok token)
    (negated : token.negated? = some number) :
    number.isSigned = true ∧ number ≠ .operator (.binary .subtract) ∧ lexeme ≠ .minus := by
  cases lexeme with
  | numeral spelling =>
      cases resolved
      cases negated
      refine ⟨?_, nofun, nofun⟩
      rw [Token.isSigned, Binary64.isNegative_neg (Numeral.isNaN_read spelling),
        Numeral.isNegative_read, Bool.not_false]
  | constant =>
      cases resolved
      cases negated
      have signed : Binary64.isNegative (-circleConstant) = true := by decide +kernel
      exact ⟨signed, Token.noConfusion, Lexeme.noConfusion⟩
  | minus | openParen | closeParen =>
      cases resolved
      cases negated
  | symbol character =>
      obtain ⟨entry, found, rfl⟩ := resolve_symbol_eq_ok resolved
      cases negated
  | stray character => exact absurd resolved resolve_stray_ne_ok

end Reading

/-- What a reading makes of the minuses among its lexemes, where `afterOperand` says whether an operand
ends before the first. -/
structure MinusesKept (afterOperand : Bool) (lexemes : List Lexeme) (tokens : List Token) : Prop where
  count : lexemes.count .minus =
    tokens.count (.operator (.binary .subtract)) + tokens.countP Token.isSigned
  length : lexemes.length = tokens.length + tokens.countP Token.isSigned
  fit : ∀ before token after, tokens = before ++ token :: after →
    token.MinusFits (Token.behindOperand afterOperand before)

namespace MinusesKept

variable {afterOperand : Bool} {lexeme : Lexeme} {lexemes : List Lexeme} {first number : Token}
  {tokens : List Token}

theorem nil (afterOperand : Bool) : MinusesKept afterOperand [] [] :=
  ⟨rfl, rfl, fun before token after split => by simp at split⟩

theorem fit_cons (kept : MinusesKept first.completesOperand lexemes tokens)
    (fits : first.MinusFits afterOperand) {before after : List Token} {token : Token}
    (split : first :: tokens = before ++ token :: after) :
    token.MinusFits (Token.behindOperand afterOperand before) := by
  cases before with
  | nil =>
      obtain ⟨rfl, _⟩ := List.cons.inj split
      exact fits
  | cons head rest =>
      obtain ⟨rfl, more⟩ := List.cons.inj split
      rw [Token.behindOperand_cons]
      exact kept.fit rest token after more

theorem word (kept : MinusesKept first.completesOperand lexemes tokens)
    (subtracts : first = .operator (.binary .subtract) ↔ lexeme = .minus)
    (behind : lexeme = .minus → afterOperand = true) (unsigned : first.isSigned = false) :
    MinusesKept afterOperand (lexeme :: lexemes) (first :: tokens) := by
  constructor
  · rw [List.count_cons, List.count_cons, List.countP_cons, kept.count, unsigned]
    simp only [beq_iff_eq, subtracts, Bool.false_eq_true, if_false]
    omega
  · rw [List.length_cons, List.length_cons, List.countP_cons, kept.length, unsigned]
    simp only [Bool.false_eq_true, if_false]
    omega
  · intro before token after split
    exact kept.fit_cons ⟨fun same => behind (subtracts.mp same), by simp [unsigned]⟩ split

theorem signed (kept : MinusesKept number.completesOperand lexemes tokens)
    (isSigned : number.isSigned = true) (other : number ≠ .operator (.binary .subtract))
    (plain : lexeme ≠ .minus) :
    MinusesKept false (.minus :: lexeme :: lexemes) (number :: tokens) := by
  constructor
  · rw [List.count_cons_self, List.count_cons_of_ne plain, List.count_cons_of_ne other,
      List.countP_cons_of_pos isSigned, kept.count]
    omega
  · rw [List.length_cons, List.length_cons, List.length_cons, List.countP_cons_of_pos isSigned,
      kept.length]
    omega
  · intro before token after split
    exact kept.fit_cons ⟨fun same => absurd same other, fun _ => rfl⟩ split

end MinusesKept

theorem Reads.minusesKept {afterOperand : Bool} {lexemes : List Lexeme} {tokens : List Token}
    (reads : Reads table afterOperand lexemes tokens) (plain : .symbol '-' ∉ lexemes) :
    MinusesKept afterOperand lexemes tokens := by
  induction reads with
  | done => exact .nil _
  | token resolved subtracts more ih =>
      obtain ⟨here, plain⟩ := List.ne_and_not_mem_of_not_mem_cons plain
      exact (ih plain).word (Reading.eq_subtract_iff_of_resolve here.symm resolved) subtracts
        (Reading.isSigned_of_resolve resolved)
  | signed resolved negated more ih =>
      obtain ⟨isSigned, other, noMinus⟩ := Reading.isSigned_of_negated resolved negated
      have kept := ih fun member => plain (List.mem_cons_of_mem _ (List.mem_cons_of_mem _ member))
      rw [← Token.completesOperand_negated negated] at kept
      exact kept.signed isSigned other noMinus

namespace Token

/-- The minuses of a text that is read are its subtractions and the signs of its numbers. A subtraction
has an operand right before it, a number with a sign has none, and each sign makes one token with its
number. -/
theorem read_minuses {text : List Char} {tokens : List Token} (made : read table text = .ok tokens) :
    text.count '-' = tokens.count (.operator (.binary .subtract)) + tokens.countP isSigned ∧
      (∀ before after, tokens = before ++ .operator (.binary .subtract) :: after →
        ∃ latest ∈ before.getLast?, latest.completesOperand = true) ∧
      (∀ before number after, tokens = before ++ number :: after → number.isSigned = true →
        ∀ latest ∈ before.getLast?, latest.completesOperand = false) ∧
      (Lexeme.ofText text).length = tokens.length + tokens.countP isSigned := by
  have reads := read_eq_ok_iff.mp made
  have kept := reads.minusesKept (Lexeme.symbol_minus_not_mem_cut _)
  refine ⟨?_, ?_, ?_, ?_⟩
  · rw [← kept.count, Lexeme.count_minus_cut, Text.count_visible (by decide)]
  · intro before after split
    have behind := (kept.fit before _ after split).1 rfl
    rw [behindOperand] at behind
    cases latest : before.getLast? with
    | none => simp [latest] at behind
    | some token => exact ⟨token, rfl, by simpa [latest] using behind⟩
  · intro before number after split signed latest found
    have free := (kept.fit before number after split).2 signed
    rw [behindOperand, Option.mem_def.mp found] at free
    exact free
  · rw [← kept.length, ← Lexeme.map_fst_ofText, List.length_map]

/-- `-1 - -p`, with two signs and a subtraction. -/
theorem read_minuses_three :
    let tokens : List Token := [.number (-1), .operator (.binary .subtract), .number (-circleConstant)]
    read .standard "-1 - -p".toList = .ok tokens ∧
      "-1 - -p".toList.count '-' =
        tokens.count (.operator (.binary .subtract)) + tokens.countP isSigned ∧
      (Lexeme.ofText "-1 - -p".toList).length = tokens.length + tokens.countP isSigned := by
  intro tokens
  have made : read .standard "-1 - -p".toList = .ok tokens := by decide +kernel
  obtain ⟨count, _, _, length⟩ := read_minuses made
  exact ⟨made, count, length⟩

end Token
end InfixCalculator
