import InfixCalculator.Proofs.Reading.Breaches
import Mathlib.Data.String.Basic

namespace InfixCalculator

/-! How lexemes cover a text.

The spans of the lexemes of a text follow one another from its first byte to its last. Each lies between
two characters, and its lexeme is the longest numeral at its start, or a single character if there is
none (`Lexeme.spans_tile`). Blanks are part of the text here. -/

/-- The value of a numeral, if the characters are one: digits, with one at least, around at most one
point. -/
def Numeral.read? (spelling : List Char) : Option Float :=
  let whole := spelling.takeWhile Decimal.isDigit
  match spelling.drop whole.length with
  | [] => if whole.isEmpty then none else some (Binary64.nearest (Nat.ofDigitChars 10 whole 0) 1)
  | '.' :: fraction =>
      if fraction.all Decimal.isDigit && !(whole ++ fraction).isEmpty then
        some (Binary64.nearest (Nat.ofDigitChars 10 (whole ++ fraction) 0) (Nat.pow 10 fraction.length))
      else none
  | _ => none

theorem IsNumeral.read?_eq {s : List Char} (numeral : IsNumeral s) :
    Numeral.read? s = some (Numeral.read s) := by
  have plain {c : Char} (digit : Decimal.isDigit c = true) : (c != '.') = true := by
    rw [bne_iff_ne]
    rintro rfl
    cases digit
  cases numeral with
  | whole nonempty all =>
      have digits : s.takeWhile Decimal.isDigit = s := by
        simpa using @List.takeWhile_append_of_pos _ _ _ [] all
      have before : s.takeWhile (· != '.') = s := by
        simpa using @List.takeWhile_append_of_pos _ (· != '.') s [] fun c member => plain (all c member)
      have after : s.drop (s.length + 1) = [] := List.drop_of_length_le (Nat.le_succ _)
      simp [Numeral.read?, Numeral.read, Decimal.toDouble, Decimal.ofDigits, digits, before, after,
        nonempty]
  | @pointed whole fraction nonempty all =>
      obtain ⟨wholeDigits, fractionDigits⟩ := List.forall_mem_append.mp all
      have digits : (whole ++ '.' :: fraction).takeWhile Decimal.isDigit = whole := by
        rw [List.takeWhile_append_of_pos wholeDigits, List.takeWhile_cons_of_neg (by decide),
          List.append_nil]
      have before : (whole ++ '.' :: fraction).takeWhile (· != '.') = whole := by
        rw [List.takeWhile_append_of_pos fun c member => plain (wholeDigits c member),
          List.takeWhile_cons_of_neg (by decide), List.append_nil]
      have point : (whole ++ '.' :: fraction).drop whole.length = '.' :: fraction := List.drop_left
      have after : (whole ++ '.' :: fraction).drop (whole.length + 1) = fraction := by simp
      have accepted : (fraction.all Decimal.isDigit && !(whole ++ fraction).isEmpty) = true := by
        rw [Bool.and_eq_true, List.all_eq_true, Bool.not_eq_true', List.isEmpty_eq_false_iff]
        exact ⟨fractionDigits, nonempty⟩
      simp only [Numeral.read?, digits, point, if_pos accepted, Numeral.read, Decimal.toDouble,
        Decimal.ofDigits, before, after]

namespace Lexeme

def size (text : List Char) : Nat := (String.ofList text).utf8ByteSize

/-- Spans that follow one another without a gap between two byte offsets, and none of them is empty. -/
inductive Adjoining : Nat → List Span → Nat → Prop where
  | done {offset : Nat} : Adjoining offset [] offset
  | next {span : Span} {rest : List Span} {last : Nat} (nonempty : span.start < span.stop)
      (more : Adjoining span.stop rest last) : Adjoining span.start (span :: rest) last

/-- What the first lexeme of a text is: the longest numeral with which it begins, which has a value, or
its first character if it begins with none. -/
inductive Leads (text : List Char) : Lexeme → Prop where
  | numeral {s : List Char} (numeral : IsNumeral s) (begins : s <+: text)
      (longest : ∀ other, IsNumeral other → other <+: text → other.length ≤ s.length)
      (value : Numeral.read? s = some (Numeral.read s)) : Leads text (.numeral s)
  | character {c : Char} {lexeme : Lexeme} (none : ∀ other, IsNumeral other → ¬other <+: text)
      (begins : text.head? = some c) (single : Single c lexeme) : Leads text lexeme

@[simp] theorem size_append (first second : List Char) :
    size (first ++ second) = size first + size second := by
  rw [size, String.ofList_append, String.utf8ByteSize_append, size, size]

theorem size_pos {text : List Char} (nonempty : text ≠ []) : 0 < size text := by
  rw [Nat.pos_iff_ne_zero, size, String.utf8ByteSize_ofList, Ne, String.utf8Len_eq_zero]
  exact nonempty

/-- A span has its place between two parts of a text. -/
def SpanAt (text : List Char) (span : Span) : Prop :=
  ∃ front back, text = front ++ span.lexeme.spelling ++ back ∧ span.start = size front ∧
    span.stop = size front + size span.lexeme.spelling ∧
    Leads (span.lexeme.spelling ++ back) span.lexeme

/-- Spans that cover what is left of a text behind its front. -/
structure Tiles (front rest : List Char) (items : List Span) : Prop where
  adjoining : Adjoining (size front) items (size (front ++ rest))
  places : ∀ span ∈ items, SpanAt (front ++ rest) span

theorem Tiles.cons {front rest : List Char} {lexeme : Lexeme} {lexemes : List Lexeme}
    (tiles : Tiles (front ++ lexeme.spelling) rest (spans (size (front ++ lexeme.spelling)) lexemes))
    (nonempty : lexeme.spelling ≠ []) (leads : Leads (lexeme.spelling ++ rest) lexeme) :
    Tiles front (lexeme.spelling ++ rest) (spans (size front) (lexeme :: lexemes)) := by
  obtain ⟨adjoining, places⟩ := tiles
  rw [List.append_assoc, size_append front lexeme.spelling] at adjoining
  rw [List.append_assoc, size_append front lexeme.spelling] at places
  constructor
  · exact @Adjoining.next ⟨lexeme, _, _⟩ _ _ (Nat.lt_add_of_pos_right (size_pos nonempty)) adjoining
  · refine List.forall_mem_cons.mpr ⟨?_, places⟩
    exact ⟨front, rest, (List.append_assoc _ _ _).symm, rfl, rfl, leads⟩

theorem LongestMatch.tiles {rest : List Char} {lexemes : List Lexeme} (cut : LongestMatch rest lexemes)
    (front : List Char) : Tiles front rest (spans (size front) lexemes) := by
  induction cut generalizing front with
  | done =>
      refine ⟨?_, by simp [spans]⟩
      rw [List.append_nil]
      exact .done
  | @numeral s rest lexemes numeral longest more ih =>
      have leads : Leads (s ++ rest) (.numeral s) :=
        .numeral numeral (List.prefix_append s rest) longest numeral.read?_eq
      exact @Tiles.cons front rest (.numeral s) lexemes (ih (front ++ s)) numeral.ne_nil leads
  | @character c lexeme rest lexemes none single more ih =>
      have leads : Leads (c :: rest) lexeme := .character none rfl single
      have spelled : c :: rest = lexeme.spelling ++ rest := by rw [single.spelling_eq]; rfl
      rw [spelled] at leads ⊢
      exact (ih _).cons (by rw [single.spelling_eq]; exact List.cons_ne_nil c []) leads

/-- What stands between the offsets of a span. -/
def Span.slice (text : String) (span : Span) : String :=
  String.Pos.Raw.extract text ⟨span.start⟩ ⟨span.stop⟩

/-- What is left of the text where a span starts. -/
def Span.rest (text : String) (span : Span) : String :=
  String.Pos.Raw.extract text ⟨span.start⟩ text.rawEndPos

theorem isValid_of_append {text : String} {front back : List Char}
    (whole : text.toList = front ++ back) : String.Pos.Raw.IsValid text ⟨size front⟩ := by
  rw [String.Pos.Raw.isValid_iff_exists_append]
  refine ⟨String.ofList front, String.ofList back, ?_, rfl⟩
  rw [← String.ofList_append, ← whole, String.ofList_toList]

theorem extract_of_append {text : String} {front middle back : List Char}
    (whole : text.toList = front ++ middle ++ back) :
    String.Pos.Raw.extract text ⟨size front⟩ ⟨size (front ++ middle)⟩ = String.ofList middle := by
  rw [size_append, size, size, String.utf8ByteSize_ofList, String.utf8ByteSize_ofList,
    ← String.ofList_toList (s := text), whole]
  exact String.extract_of_valid front middle back

/-- A span with its place in a text cuts its lexeme out of the bytes of the text. -/
structure Cuts (text : String) (span : Span) : Prop where
  start : String.Pos.Raw.IsValid text ⟨span.start⟩
  stop : String.Pos.Raw.IsValid text ⟨span.stop⟩
  slice : span.slice text = String.ofList span.lexeme.spelling
  leads : Leads (span.rest text).toList span.lexeme

theorem SpanAt.cuts {text : String} {span : Span} (place : SpanAt text.toList span) :
    Cuts text span := by
  obtain ⟨front, back, whole, start, stop, leads⟩ := place
  rw [← size_append] at stop
  have behind : text.toList = front ++ (span.lexeme.spelling ++ back) := by
    rw [whole, List.append_assoc]
  have ends : text.rawEndPos = ⟨size text.toList⟩ := by
    rw [size, String.ofList_toList]
    rfl
  constructor
  · rw [start]
    exact isValid_of_append behind
  · rw [stop]
    exact isValid_of_append whole
  · rw [Span.slice, start, stop]
    exact extract_of_append whole
  · rw [Span.rest, start, ends, behind, extract_of_append (behind.trans (List.append_nil _).symm),
      String.toList_ofList]
    exact leads

theorem join_spans (start : Nat) (lexemes : List Lexeme) :
    String.join ((spans start lexemes).map fun span => String.ofList span.lexeme.spelling) =
      String.ofList (lexemes.flatMap spelling) := by
  induction lexemes generalizing start with
  | nil => rfl
  | cons lexeme rest ih =>
      rw [spans, List.map_cons, String.join_cons, ih, List.flatMap_cons, String.ofList_append]

theorem map_lexeme_spans (start : Nat) (lexemes : List Lexeme) :
    (spans start lexemes).map Span.lexeme = lexemes := by
  induction lexemes generalizing start with
  | nil => rfl
  | cons lexeme rest ih => rw [spans, List.map_cons, ih]

/-- The spans of a text cover it from its first byte to its last, one after the other. Each lies between
two characters and spells its lexeme, which is what leads the rest of the text from there. Where there are
no blanks the only stray lexeme is a point, and a malformed number is never anything else. -/
theorem spans_tile (text : String) :
    let items := spans 0 (cut text.toList)
    Adjoining 0 items text.utf8ByteSize ∧
      (∀ span ∈ items, Cuts text span) ∧
      String.join (items.map (Span.slice text)) = text ∧
      ((∀ c ∈ text.toList, Text.isBlank c = false) →
        ∀ span ∈ items, ∀ c, span.lexeme = .stray c → c = '.') ∧
      ∀ table c position, Token.read table text.toList = .error (.malformedNumber c position) →
        c = '.' := by
  intro items
  obtain ⟨adjoining, places⟩ := (longestMatch_cut text.toList).tiles []
  have cuts : ∀ span ∈ items, Cuts text span := fun span member => (places span member).cuts
  refine ⟨?_, cuts, ?_, ?_, ?_⟩
  · have whole : size ([] ++ text.toList) = text.utf8ByteSize := by
      rw [List.nil_append, size, String.ofList_toList]
    rw [whole] at adjoining
    exact adjoining
  · rw [List.map_congr_left fun span member => (cuts span member).slice, join_spans, spelling_cut,
      String.ofList_toList]
  · intro shown span member c stray
    have visible := Text.visible_of_all shown
    have among := List.mem_map_of_mem (f := Span.lexeme) member
    rw [map_lexeme_spans, ← visible, stray] at among
    exact eq_point_of_stray among
  · intro table c position failed
    obtain ⟨_, breach, _⟩ := Token.read_eq_error_iff.mp failed
    cases breach with
    | lexeme broken =>
        obtain ⟨_, _, breaks⟩ := broken
        cases breaks
        rfl

end Lexeme
end InfixCalculator
