import InfixCalculator.Proofs.Reading
import Mathlib.Data.List.DropRight

namespace InfixCalculator.Text

/-! Blanks, and texts without the blanks around them.

`whiteSpace` lists the blanks one by one. `Trimmed` says what is left of a text: neither end of it is blank,
and all that is gone is blank. There is one such rest, and it is what `trim` gives (`trimmed_iff`). -/

/-- The code points with the property White_Space. -/
def whiteSpace : List Nat :=
  [0x9, 0xa, 0xb, 0xc, 0xd, 0x20, 0x85, 0xa0, 0x1680, 0x2000, 0x2001, 0x2002, 0x2003, 0x2004, 0x2005,
    0x2006, 0x2007, 0x2008, 0x2009, 0x200a, 0x2028, 0x2029, 0x202f, 0x205f, 0x3000]

theorem isBlank_iff {c : Char} : isBlank c = true ↔ c.toNat ∈ whiteSpace := by
  simp only [isBlank, blankRuns, whiteSpace, List.any_cons, List.any_nil, Bool.or_false, Bool.or_eq_true,
    Bool.and_eq_true, decide_eq_true_eq, List.mem_cons, List.not_mem_nil, or_false]
  omega

structure Trimmed (text core : List Char) : Prop where
  between : ∃ front back, text = front ++ core ++ back ∧ (∀ c ∈ front, isBlank c = true) ∧
    ∀ c ∈ back, isBlank c = true
  head : ∀ c ∈ core.head?, isBlank c = false
  last : ∀ c ∈ core.getLast?, isBlank c = false

theorem dropWhile_blanks {front core : List Char} (blank : ∀ c ∈ front, isBlank c = true)
    (shown : ∀ c ∈ core.head?, isBlank c = false) : (front ++ core).dropWhile isBlank = core := by
  rw [List.dropWhile_append_of_pos blank]
  cases core with
  | nil => rfl
  | cons c rest => exact List.dropWhile_cons_of_neg (by simp [shown c rfl])

theorem Trimmed.trim_eq {text core : List Char} (trimmed : Trimmed text core) : trim text = core := by
  obtain ⟨⟨front, back, rfl, before, behind⟩, head, last⟩ := trimmed
  by_cases empty : core = []
  · subst empty
    have blank : ∀ c ∈ front ++ [] ++ back, isBlank c = true := by
      rw [List.append_nil]
      exact List.forall_mem_append.mpr ⟨before, behind⟩
    have none := @dropWhile_blanks (front ++ [] ++ back) [] blank (by simp)
    rw [List.append_nil] at none
    rw [trim, none]
    rfl
  · have begins : ∀ c ∈ (core ++ back).head?, isBlank c = false := by
      rwa [List.head?_append_of_ne_nil core empty]
    have ends : ∀ c ∈ core.reverse.head?, isBlank c = false := by rwa [List.head?_reverse]
    have blank : ∀ c ∈ back.reverse, isBlank c = true := fun c member =>
      behind c (List.mem_reverse.mp member)
    rw [trim, List.append_assoc, dropWhile_blanks before begins, List.reverse_append,
      dropWhile_blanks blank ends, List.reverse_reverse]

theorem trimmed_trim (text : List Char) : Trimmed text (trim text) := by
  have blank (text : List Char) : ∀ c ∈ text.takeWhile isBlank, isBlank c = true :=
    fun c => List.mem_takeWhile_imp
  have shown (text : List Char) : ∀ c ∈ (text.dropWhile isBlank).head?, isBlank c = false := by
    intro c first
    have kept := List.head?_dropWhile_not isBlank text
    rw [first] at kept
    exact kept
  generalize same : text.dropWhile isBlank = rest
  have core : trim text = (rest.reverse.dropWhile isBlank).reverse := by rw [trim, same]
  have whole : rest = trim text ++ (rest.reverse.takeWhile isBlank).reverse := by
    calc
      rest = (rest.reverse.takeWhile isBlank ++ rest.reverse.dropWhile isBlank).reverse := by
        rw [List.takeWhile_append_dropWhile, List.reverse_reverse]
      _ = trim text ++ (rest.reverse.takeWhile isBlank).reverse := by rw [List.reverse_append, core]
  refine ⟨⟨text.takeWhile isBlank, (rest.reverse.takeWhile isBlank).reverse, ?_, blank text, ?_⟩, ?_, ?_⟩
  · rw [List.append_assoc, ← whole, ← same, List.takeWhile_append_dropWhile]
  · exact fun c member => blank _ c (List.mem_reverse.mp member)
  · intro c first
    refine shown text c ?_
    rw [same, whole, List.head?_append, first]
    rfl
  · intro c ending
    rw [core, List.getLast?_reverse] at ending
    exact shown _ c ending

theorem trimmed_iff {text core : List Char} : Trimmed text core ↔ trim text = core :=
  ⟨Trimmed.trim_eq, fun same => same ▸ trimmed_trim text⟩

/-- Blanks around a text are gone after they are cut off once. -/
theorem trim_trim (text : List Char) : trim (trim text) = trim text := by
  obtain ⟨_, head, last⟩ := trimmed_trim text
  exact Trimmed.trim_eq ⟨⟨[], [], by simp, by simp, by simp⟩, head, last⟩

end InfixCalculator.Text
