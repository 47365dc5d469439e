import InfixCalculator.Proofs.Outcome
import Mathlib.Data.List.Induction

namespace InfixCalculator.Outcome

/-! The first failure of a fold.

Where a step fails just for what its item breaks behind the items in front of it, a run fails for the
first item that breaks something, and succeeds if there is none (`foldlM_first`). -/

variable {ε α σ : Type}

/-- The reason that is given at the least index. -/
def First (blames : Nat → ε → Prop) (reason : ε) : Prop :=
  ∃ index, blames index reason ∧ ∀ earlier < index, ∀ other, ¬blames earlier other

theorem First.unique {blames : Nat → ε → Prop} {reason other : ε} (first : First blames reason)
    (second : First blames other)
    (alone : ∀ index reason other, blames index reason → blames index other → reason = other) :
    reason = other := by
  obtain ⟨index, blamed, least⟩ := first
  obtain ⟨index', blamed', least'⟩ := second
  rcases Nat.lt_trichotomy index index' with less | rfl | greater
  · exact absurd blamed (least' index less reason)
  · exact alone index reason other blamed blamed'
  · exact absurd blamed' (least index' greater other)

/-- The item at an index breaks something, as the items in front of it are. -/
def BrokenAt (breaks : List α → α → ε → Prop) (items : List α) (index : Nat) (reason : ε) : Prop :=
  ∃ item, items[index]? = some item ∧ breaks (items.take index) item reason

namespace BrokenAt

variable {breaks : List α → α → ε → Prop} {items : List α} {index : Nat} {reason : ε}

theorem lt_length (broken : BrokenAt breaks items index reason) : index < items.length := by
  obtain ⟨item, here, _⟩ := broken
  exact (List.getElem?_eq_some_iff.mp here).1

theorem unique {other : ε} (broken : BrokenAt breaks items index reason)
    (broken' : BrokenAt breaks items index other)
    (alone : ∀ front item reason other, breaks front item reason → breaks front item other →
      reason = other) : reason = other := by
  obtain ⟨item, here, breaks⟩ := broken
  obtain ⟨item', here', breaks'⟩ := broken'
  rw [here, Option.some.injEq] at here'
  subst here'
  exact alone _ _ _ _ breaks breaks'

theorem of_append {front after : List α} {item : α} (broken : breaks front item reason) :
    BrokenAt breaks (front ++ item :: after) front.length reason := by
  refine ⟨item, by simp, ?_⟩
  rwa [List.take_left]

/-- Whether an item breaks something depends on those up to it only. -/
theorem concat_iff {item : α} : BrokenAt breaks (items ++ [item]) index reason ↔
    BrokenAt breaks items index reason ∨ index = items.length ∧ breaks items item reason := by
  have here : (items ++ [item])[items.length]? = some item := List.getElem?_concat_length
  constructor
  · intro broken
    have less := broken.lt_length
    rw [List.length_append, List.length_singleton] at less
    obtain ⟨last, found, broken⟩ := broken
    rcases Nat.lt_or_eq_of_le (Nat.le_of_lt_succ less) with less | rfl
    · rw [List.getElem?_append_left less] at found
      rw [List.take_append_of_le_length (Nat.le_of_lt less)] at broken
      exact .inl ⟨last, found, broken⟩
    · rw [here, Option.some.injEq] at found
      rw [List.take_left, ← found] at broken
      exact .inr ⟨rfl, broken⟩
  · rintro (broken | ⟨rfl, broken⟩)
    · have less := broken.lt_length
      obtain ⟨last, found, broken⟩ := broken
      refine ⟨last, ?_, ?_⟩
      · rwa [List.getElem?_append_left less]
      · rwa [List.take_append_of_le_length (Nat.le_of_lt less)]
    · exact of_append broken

theorem append (broken : BrokenAt breaks items index reason) (more : List α) :
    BrokenAt breaks (items ++ more) index reason := by
  have less := broken.lt_length
  obtain ⟨item, here, broken⟩ := broken
  refine ⟨item, ?_, ?_⟩
  · rwa [List.getElem?_append_left less]
  · rwa [List.take_append_of_le_length (Nat.le_of_lt less)]

end BrokenAt

/-- If a step fails just for what its item breaks, as its state follows from the items in front, a run
fails for the first item that breaks something. -/
theorem foldlM_first {step : σ → α → Except ε σ} {start : σ} {follows : List α → σ → Prop}
    {breaks : List α → α → ε → Prop} {items : List α} (begins : follows [] start)
    (keeps : ∀ front item state next, follows front state → step state item = .ok next →
      follows (front ++ [item]) next)
    (blames : ∀ item ∈ items, ∀ front state reason, follows front state →
      (breaks front item reason ↔ step state item = .error reason)) :
    (∀ state, items.foldlM step start = .ok state →
      follows items state ∧ ∀ index reason, ¬BrokenAt breaks items index reason) ∧
    ∀ reason, items.foldlM step start = .error reason → First (BrokenAt breaks items) reason := by
  -- The items are taken off the end, as what a state follows from are those before it.
  induction items using List.reverseRecOn with
  | nil =>
      refine ⟨?_, fun reason failed => by cases failed⟩
      intro state run
      cases run
      exact ⟨begins, fun index reason broken => absurd broken.lt_length (Nat.not_lt_zero index)⟩
  | append_singleton items item ih =>
      obtain ⟨earlier, last⟩ := List.forall_mem_append.mp blames
      obtain ⟨ok, error⟩ := ih earlier
      have blame := last item (List.mem_singleton.mpr rfl)
      have run_concat : (items ++ [item]).foldlM step start =
          items.foldlM step start >>= fun state => step state item := by
        simp [List.foldlM_append]
      rw [run_concat]
      constructor
      · intro state run
        obtain ⟨before, run, stepped⟩ := bind_eq_ok.mp run
        obtain ⟨follows, unbroken⟩ := ok before run
        refine ⟨keeps _ _ _ _ follows stepped, fun index reason broken => ?_⟩
        rcases BrokenAt.concat_iff.mp broken with front | ⟨rfl, breaks⟩
        · exact unbroken index reason front
        · rw [blame _ _ _ follows, stepped] at breaks
          cases breaks
      · intro reason run
        rcases bind_eq_error.mp run with failed | ⟨before, run, failed⟩
        · obtain ⟨index, broken, least⟩ := error reason failed
          refine ⟨index, BrokenAt.concat_iff.mpr (.inl broken), fun earlier less other broken' => ?_⟩
          rcases BrokenAt.concat_iff.mp broken' with broken' | ⟨rfl, _⟩
          · exact least earlier less other broken'
          · exact absurd broken.lt_length (Nat.not_lt.mpr (Nat.le_of_lt less))
        · obtain ⟨follows, unbroken⟩ := ok before run
          have broken := (blame _ _ _ follows).mpr failed
          refine ⟨items.length, BrokenAt.concat_iff.mpr (.inr ⟨rfl, broken⟩), ?_⟩
          intro earlier less other broken'
          rcases BrokenAt.concat_iff.mp broken' with broken' | ⟨rfl, _⟩
          · exact unbroken earlier other broken'
          · exact Nat.lt_irrefl _ less

/-- So the error of a run is that of the first item that breaks something. -/
theorem foldlM_eq_error_iff {step : σ → α → Except ε σ} {start : σ} {follows : List α → σ → Prop}
    {breaks : List α → α → ε → Prop} {items : List α} {reason : ε} (begins : follows [] start)
    (keeps : ∀ front item state next, follows front state → step state item = .ok next →
      follows (front ++ [item]) next)
    (blames : ∀ item ∈ items, ∀ front state reason, follows front state →
      (breaks front item reason ↔ step state item = .error reason)) :
    items.foldlM step start = .error reason ↔ First (BrokenAt breaks items) reason := by
  obtain ⟨succeeds, fails⟩ := foldlM_first begins keeps blames
  refine ⟨fails reason, ?_⟩
  rintro ⟨index, broken, least⟩
  cases outcome : items.foldlM step start with
  | ok state => exact absurd broken ((succeeds state outcome).2 index reason)
  | error other =>
      obtain ⟨index', broken', least'⟩ := fails other outcome
      obtain rfl : index = index' := by
        rcases Nat.lt_trichotomy index index' with less | same | greater
        · exact absurd broken (least' index less reason)
        · exact same
        · exact absurd broken' (least index' greater other)
      obtain ⟨item, here, breaks⟩ := broken
      obtain ⟨item', here', breaks'⟩ := broken'
      obtain rfl : item = item' := Option.some.inj (here.symm.trans here')
      -- The items in front of the first broken one take the run to a state, and its step fails there.
      have front := @foldlM_first _ _ _ step start follows _ (items.take index) begins keeps
        fun item member => blames item (List.mem_of_mem_take member)
      cases reached : (items.take index).foldlM step start with
      | error earlier =>
          obtain ⟨place, broken, _⟩ := front.2 earlier reached
          have less : place < index := by
            have bound := broken.lt_length
            rw [List.length_take] at bound
            omega
          have broken := broken.append (items.drop index)
          rw [List.take_append_drop] at broken
          exact absurd broken (least place less earlier)
      | ok state =>
          have blame := fun reason =>
            blames item (List.mem_of_getElem? here) _ state reason (front.1 state reached).1
          have stepped := ((blame other).mp breaks').symm.trans ((blame reason).mp breaks)
          rw [Except.error.inj stepped]

end InfixCalculator.Outcome
