import InfixCalculator.Proofs.Lexing
import Mathlib.Tactic.SplitIfs

namespace InfixCalculator

/-! The lexemes of a text by what they are, and where they stand.

`LongestMatch` says by rules how characters are cut: a numeral goes as far as one can, and a character
with which none begins is a lexeme by itself, of the kind that `Single` says. `Placed` adds the offsets, which count the blanks as well.
The lexemes of a text are those that these rules give, and no others are (`Lexeme.placed_ofText`,
`Lexeme.Placed.unique`). -/

/-- The mark of a character is its place in the text, and the marks before it are those of the characters
before that place. -/
theorem Text.marks_eq_append {text : List Char} {c : Char} {offset : Nat}
    {earlier later : List (Char × Nat)} (split : marks text = earlier ++ (c, offset) :: later) :
    text[offset]? = some c ∧ visible (text.take offset) = earlier.map Prod.fst := by
  obtain ⟨first, second, whole, rfl, shown⟩ := List.filter_eq_append_iff.mp split
  obtain ⟨blanks, last, rfl, blank, _, _⟩ := List.filter_eq_cons_iff.mp shown
  rw [← List.append_assoc] at whole
  obtain ⟨before, after, rfl, front, back⟩ := List.zipIdx_eq_append_iff.mp whole
  obtain ⟨_, rest, rfl, same, _⟩ := List.zipIdx_eq_cons_iff.mp back.symm
  rw [Prod.mk.injEq, Nat.zero_add] at same
  obtain ⟨rfl, rfl⟩ := same
  have nothing : blanks.filter (fun item => !isBlank item.1) = [] := by
    simpa [List.filter_eq_nil_iff] using blank
  have marked : marks before = first.filter fun item => !isBlank item.1 := by
    rw [marks, ← front, List.filter_append, nothing, List.append_nil]
  refine ⟨by simp, ?_⟩
  rw [List.take_left, ← map_fst_marks, marked]

/-- A character that is not blank is seen by what stands behind it only. -/
theorem Text.length_visible_take_lt {text : List Char} {first second : Nat} {c : Char}
    (here : text[first]? = some c) (shown : isBlank c = false) (less : first < second) :
    (visible (text.take first)).length < (visible (text.take second)).length := by
  have counted : visible (text.take (first + 1)) = visible (text.take first) ++ [c] := by
    rw [List.take_add_one, here, visible_append]
    simp [visible, shown]
  have more : visible (text.take (first + 1)) <+: visible (text.take second) :=
    (List.take_prefix_take_left less).filter _
  have length := more.length_le
  rw [counted, List.length_append, List.length_singleton] at length
  exact length

/-- So the visible characters in front of its place tell that place. -/
theorem Text.place_unique {text : List Char} {first second : Nat} {c : Char}
    (here : text[first]? = some c) (there : text[second]? = some c) (shown : isBlank c = false)
    (front : visible (text.take first) = visible (text.take second)) : first = second := by
  rcases Nat.lt_trichotomy first second with less | same | greater
  · exact absurd (congrArg List.length front) (Nat.ne_of_lt (length_visible_take_lt here shown less))
  · exact same
  · exact absurd (congrArg List.length front)
      (Nat.ne_of_gt (length_visible_take_lt there shown greater))

namespace Lexeme

/-- What a character is by itself. -/
inductive Single : Char → Lexeme → Prop where
  | constant : Single 'p' .constant
  | minus : Single '-' .minus
  | openParen : Single '(' .openParen
  | closeParen : Single ')' .closeParen
  | stray {c : Char} (kind : c = '.' ∨ Text.isBlank c = true) : Single c (.stray c)
  | symbol {c : Char} (other : c ∉ ['p', '-', '(', ')', '.']) (shown : Text.isBlank c = false) :
      Single c (.symbol c)

/-- Characters with their lexemes. -/
inductive LongestMatch : List Char → List Lexeme → Prop where
  | done : LongestMatch [] []
  | numeral {s rest : List Char} {lexemes : List Lexeme} (numeral : IsNumeral s)
      (longest : ∀ other, IsNumeral other → other <+: s ++ rest → other.length ≤ s.length)
      (more : LongestMatch rest lexemes) : LongestMatch (s ++ rest) (.numeral s :: lexemes)
  | character {c : Char} {lexeme : Lexeme} {rest : List Char} {lexemes : List Lexeme}
      (none : ∀ other, IsNumeral other → ¬other <+: c :: rest) (single : Single c lexeme)
      (more : LongestMatch rest lexemes) : LongestMatch (c :: rest) (lexeme :: lexemes)

theorem single_ofChar (c : Char) : Single c (ofChar c) := by
  unfold ofChar
  split_ifs with constant minus openParen closeParen stray
  · exact constant ▸ .constant
  · exact minus ▸ .minus
  · exact openParen ▸ .openParen
  · exact closeParen ▸ .closeParen
  · exact .stray stray
  · rw [not_or, Bool.not_eq_true] at stray
    exact .symbol (by simp [constant, minus, openParen, closeParen, stray.1]) stray.2

theorem Single.spelling_eq {c : Char} {lexeme : Lexeme} (single : Single c lexeme) :
    lexeme.spelling = [c] := by
  cases single <;> rfl

theorem Single.unique {c : Char} {lexeme other : Lexeme} (single : Single c lexeme)
    (single' : Single c other) : lexeme = other := by
  have apart {kind : Char} (stray : kind = '.' ∨ Text.isBlank kind = true) :
      kind ∉ ['p', '-', '(', ')'] := by
    rcases stray with rfl | blank
    · decide
    · intro member
      simp only [List.mem_cons, List.not_mem_nil, or_false] at member
      rcases member with rfl | rfl | rfl | rfl <;> cases blank
  cases single with
  | constant | minus | openParen | closeParen =>
      cases single' with
      | stray kind => exact absurd (apart kind) (by decide)
      | symbol other => exact absurd other (by decide)
      | _ => rfl
  | stray kind =>
      cases single' with
      | stray => rfl
      | symbol other shown => simp_all
      | constant | minus | openParen | closeParen => exact absurd (apart kind) (by decide)
  | symbol other shown =>
      cases single' with
      | symbol => rfl
      | stray kind => simp_all
      | constant | minus | openParen | closeParen => exact absurd other (by decide)

theorem length_takeWhile_le_leadingNumeral (text : List Char) :
    (text.takeWhile Decimal.isDigit).length ≤ (leadingNumeral text).length := by
  by_cases point : (text.drop (text.takeWhile Decimal.isDigit).length).head? = some '.'
  · obtain ⟨rest, after⟩ := List.head?_eq_some_iff.mp point
    rw [leadingNumeral_pointed after]
    split
    · next empty => simp [empty.1]
    · simp
  · exact Nat.le_of_eq (congrArg List.length (leadingNumeral_whole point).symm)

/-- No numeral at the beginning of a text is longer than the leading one. -/
theorem length_le_leadingNumeral {s text : List Char} (numeral : IsNumeral s) (begins : s <+: text) :
    s.length ≤ (leadingNumeral text).length := by
  obtain ⟨rest, rfl⟩ := begins
  cases numeral with
  | whole nonempty all =>
      refine Nat.le_trans ?_ (length_takeWhile_le_leadingNumeral (s ++ rest))
      rw [List.takeWhile_append_of_pos all, List.length_append]
      exact Nat.le_add_right _ _
  | @pointed whole fraction nonempty all =>
      have digits : ∀ c ∈ whole, Decimal.isDigit c = true :=
        fun c member => all c (List.mem_append_left _ member)
      have decimals : ∀ c ∈ fraction, Decimal.isDigit c = true :=
        fun c member => all c (List.mem_append_right _ member)
      have taken : (whole ++ '.' :: fraction ++ rest).takeWhile Decimal.isDigit = whole := by
        rw [List.append_assoc, List.takeWhile_append_of_pos digits, List.cons_append,
          List.takeWhile_cons_of_neg (by decide), List.append_nil]
      have after : (whole ++ '.' :: fraction ++ rest).drop
          ((whole ++ '.' :: fraction ++ rest).takeWhile Decimal.isDigit).length =
            '.' :: (fraction ++ rest) := by
        rw [taken, List.append_assoc, List.drop_left, List.cons_append]
      rw [leadingNumeral_pointed after, taken, List.takeWhile_append_of_pos decimals, if_neg]
      · simp
      · rintro ⟨rfl, empty⟩
        exact nonempty (List.append_eq_nil_iff.mp empty).1

theorem not_prefix_of_leadingNumeral_nil {s text : List Char} (none : leadingNumeral text = [])
    (numeral : IsNumeral s) : ¬s <+: text := by
  intro begins
  have length := length_le_leadingNumeral numeral begins
  rw [none, List.length_nil, Nat.le_zero, List.length_eq_zero_iff] at length
  exact numeral.ne_nil length

theorem longestMatch_cut (text : List Char) : LongestMatch text (cut text) := by
  fun_induction cut text with
  | case1 => exact .done
  | case2 first rest none ih =>
      exact .character (fun other numeral => not_prefix_of_leadingNumeral_nil none numeral)
        (single_ofChar first) ih
  | case3 first rest digit more numeral ih =>
      obtain ⟨tail, joined⟩ := leadingNumeral_prefix (first :: rest)
      have isNumeral := @isNumeral_leadingNumeral (first :: rest) (by simp [numeral])
      have longest := fun other => @length_le_leadingNumeral other (first :: rest)
      rw [numeral] at joined isNumeral longest
      rw [List.cons_append, List.cons.injEq] at joined
      obtain ⟨rfl, rfl⟩ := joined
      rw [List.drop_left] at ih ⊢
      exact .numeral isNumeral longest ih

/-- There is only one way to cut characters by the longest match. -/
theorem LongestMatch.unique {text : List Char} {lexemes others : List Lexeme}
    (cut : LongestMatch text lexemes) (cut' : LongestMatch text others) : lexemes = others := by
  induction cut generalizing others with
  | done =>
      generalize empty : ([] : List Char) = text at cut'
      cases cut' with
      | done => rfl
      | numeral numeral => exact absurd (List.append_eq_nil_iff.mp empty.symm).1 numeral.ne_nil
      | character => cases empty
  | @numeral s rest lexemes numeral longest more ih =>
      generalize whole : s ++ rest = text at cut'
      cases cut' with
      | done => exact absurd (List.append_eq_nil_iff.mp whole).1 numeral.ne_nil
      | @numeral s' rest' lexemes' numeral' longest' more' =>
          have least := longest s' numeral' ⟨rest', whole.symm⟩
          have most := longest' s numeral ⟨rest, whole⟩
          obtain ⟨rfl, rfl⟩ := List.append_inj whole (Nat.le_antisymm most least)
          rw [ih more']
      | character none more' => exact absurd ⟨rest, whole⟩ (none s numeral)
  | @character c lexeme rest lexemes none single more ih =>
      generalize whole : c :: rest = text at cut' none
      cases cut' with
      | done => cases whole
      | numeral numeral => exact absurd ⟨_, rfl⟩ (none _ numeral)
      | character _ single' more' =>
          cases whole
          rw [ih more', single.unique single']

/-- Each lexeme with the offset of its first character, where the characters of a text that are not
blank are cut by the longest match. -/
structure Placed (text : List Char) (items : List (Lexeme × Nat)) : Prop where
  cut : LongestMatch (Text.visible text) (items.map Prod.fst)
  offset : ∀ before lexeme offset after, items = before ++ (lexeme, offset) :: after →
    text[offset]? = lexeme.spelling.head? ∧
      Text.visible (text.take offset) = before.flatMap fun item => item.1.spelling

theorem mark_eq_append {marks : List (Char × Nat)} {lexemes : List Lexeme}
    (spelled : marks.map Prod.fst = lexemes.flatMap spelling)
    (nonempty : ∀ lexeme ∈ lexemes, lexeme.spelling ≠ []) {before after : List (Lexeme × Nat)}
    {lexeme : Lexeme} {offset : Nat}
    (split : mark (marks.map Prod.snd) lexemes = before ++ (lexeme, offset) :: after) :
    ∃ earlier c later, marks = earlier ++ (c, offset) :: later ∧
      earlier.map Prod.fst = (before.flatMap fun item => item.1.spelling) ∧
      lexeme.spelling.head? = some c := by
  induction lexemes generalizing marks before with
  | nil => simp [mark] at split
  | cons first rest ih =>
      obtain ⟨filled, nonempty⟩ := List.forall_mem_cons.mp nonempty
      have front : (marks.take first.spelling.length).map Prod.fst = first.spelling := by
        rw [List.map_take, spelled, List.flatMap_cons, List.take_left]
      have back : (marks.drop first.spelling.length).map Prod.fst = rest.flatMap spelling := by
        rw [List.map_drop, spelled, List.flatMap_cons, List.drop_left]
      rw [mark] at split
      cases before with
      | nil =>
          obtain ⟨same, _⟩ := List.cons.inj split
          cases same
          cases marks with
          | nil => exact absurd (by simpa using front.symm) filled
          | cons item later =>
              refine ⟨[], item.1, later, rfl, rfl, ?_⟩
              rw [← front, List.head?_map, List.head?_take, if_neg]
              · rfl
              · exact fun empty => filled (List.length_eq_zero_iff.mp empty)
      | cons item before =>
          obtain ⟨rfl, splitRest⟩ := List.cons.inj split
          rw [← List.map_drop] at splitRest
          obtain ⟨earlier, c, later, dropped, spelledBefore, head⟩ := ih back nonempty splitRest
          refine ⟨marks.take first.spelling.length ++ earlier, c, later, ?_, ?_, head⟩
          · rw [List.append_assoc, ← dropped, List.take_append_drop]
          · rw [List.map_append, front, spelledBefore, List.flatMap_cons]

theorem spelling_ne_nil {lexeme : Lexeme} (valid : lexeme.Valid) : lexeme.spelling ≠ [] := by
  cases lexeme with
  | numeral s => exact IsNumeral.ne_nil valid
  | constant | minus | openParen | closeParen | symbol | stray => exact List.cons_ne_nil _ _

/-- The lexemes of a text are cut by the longest match and stand where their offsets say. -/
theorem placed_ofText (text : List Char) : Placed text (ofText text) := by
  constructor
  · rw [map_fst_ofText]
    exact longestMatch_cut _
  · intro before lexeme offset after split
    have spelled : (Text.marks text).map Prod.fst =
        (cut ((Text.marks text).map Prod.fst)).flatMap spelling := (spelling_cut _).symm
    have nonempty : ∀ lexeme ∈ cut ((Text.marks text).map Prod.fst), lexeme.spelling ≠ [] :=
      fun lexeme member => spelling_ne_nil (valid_cut _ lexeme member)
    obtain ⟨earlier, c, later, whole, spelledBefore, head⟩ := mark_eq_append spelled nonempty split
    obtain ⟨here, front⟩ := Text.marks_eq_append whole
    rw [here, head, front, spelledBefore]
    exact ⟨rfl, rfl⟩

theorem Placed.eq_cut {text : List Char} {items : List (Lexeme × Nat)} (placed : Placed text items) :
    items.map Prod.fst = Lexeme.cut (Text.visible text) :=
  placed.cut.unique (longestMatch_cut _)

/-- The place of a lexeme follows from the lexemes up to it. -/
theorem Placed.offset_unique {text : List Char} {before before' after after' : List (Lexeme × Nat)}
    {lexeme : Lexeme} {offset offset' : Nat}
    (placed : Placed text (before ++ (lexeme, offset) :: after))
    (placed' : Placed text (before' ++ (lexeme, offset') :: after'))
    (front : before.map Prod.fst = before'.map Prod.fst) : offset = offset' := by
  obtain ⟨here, earlier⟩ := placed.offset _ _ _ _ rfl
  obtain ⟨there, earlier'⟩ := placed'.offset _ _ _ _ rfl
  have member : lexeme ∈ Lexeme.cut (Text.visible text) := by
    rw [← placed.eq_cut]
    simp
  obtain ⟨c, rest, spelled⟩ := List.exists_cons_of_ne_nil (spelling_ne_nil (valid_cut _ _ member))
  rw [spelled, List.head?_cons] at here there
  have visible : c ∈ Text.visible text := by
    rw [← spelling_cut (Text.visible text)]
    exact List.mem_flatMap_of_mem member (spelled ▸ List.mem_cons_self)
  have shown := Text.isBlank_of_mem_visible visible
  refine Text.place_unique here there shown ?_
  rw [earlier, earlier', ← List.flatMap_map, front, List.flatMap_map]

/-- The lexemes are the only ones that are so cut and placed. -/
theorem Placed.unique {text : List Char} {items others : List (Lexeme × Nat)}
    (placed : Placed text items) (placed' : Placed text others) : items = others := by
  have lexemes : items.map Prod.fst = others.map Prod.fst := placed.eq_cut.trans placed'.eq_cut.symm
  refine List.ext_getElem (by simpa using congrArg List.length lexemes) fun index less less' => ?_
  have front : (items.take index).map Prod.fst = (others.take index).map Prod.fst := by
    rw [List.map_take, List.map_take, lexemes]
  have same : (items.drop index).map Prod.fst = (others.drop index).map Prod.fst := by
    rw [List.map_drop, List.map_drop, lexemes]
  rw [← List.take_append_drop index items, List.drop_eq_getElem_cons less] at placed
  rw [← List.take_append_drop index others, List.drop_eq_getElem_cons less'] at placed'
  rw [List.drop_eq_getElem_cons less, List.drop_eq_getElem_cons less'] at same
  generalize items[index] = item at placed same
  generalize others[index] = other at placed' same
  obtain ⟨lexeme, offset⟩ := item
  obtain ⟨lexeme', offset'⟩ := other
  obtain rfl : lexeme = lexeme' := (List.cons.inj same).1
  rw [placed.offset_unique placed' front]

theorem ofChar_eq_stray {c character : Char} (stray : ofChar c = .stray character) :
    c = character ∧ (c = '.' ∨ Text.isBlank c = true) := by
  unfold ofChar at stray
  repeat' split at stray
  all_goals simp_all

/-- The only stray lexeme of characters that are not blank is a point. -/
theorem eq_point_of_stray {text : List Char} {c : Char}
    (member : .stray c ∈ cut (Text.visible text)) : c = '.' := by
  have spelled : c ∈ Text.visible text := by
    rw [← spelling_cut (Text.visible text)]
    exact List.mem_flatMap_of_mem member (List.mem_singleton.mpr rfl)
  have shown := Text.isBlank_of_mem_visible spelled
  have stray {text : List Char} (member : .stray c ∈ cut text) :
      c = '.' ∨ Text.isBlank c = true := by
    fun_induction cut text with
    | case1 => cases member
    | case2 first rest none ih =>
        rcases List.mem_cons.mp member with same | member
        · obtain ⟨rfl, kind⟩ := ofChar_eq_stray same.symm
          exact kind
        · exact ih member
    | case3 first rest digit more numeral ih =>
        rcases List.mem_cons.mp member with same | member
        · cases same
        · exact ih member
  exact (stray member).resolve_right (by simp [shown])

end Lexeme
end InfixCalculator
