namespace InfixCalculator.Outcome

/-! Results with errors, and folds that may fail.

`foldlM_mapped` carries a fold over to other states, items and errors; `Agree` compares two runs that
fail alike or end in related results. -/

variable {ε δ α β σ τ : Type}

@[simp] theorem ok_bind (result : α) (next : α → Except ε β) :
    (Except.ok result >>= next) = next result := rfl

@[simp] theorem error_bind (reason : ε) (next : α → Except ε β) :
    (Except.error reason >>= next) = .error reason := rfl

theorem bind_eq_ok {first : Except ε α} {next : α → Except ε β} {result : β} :
    (first >>= next) = .ok result ↔ ∃ middle, first = .ok middle ∧ next middle = .ok result := by
  cases first with
  | error reason => simp
  | ok middle => simp

theorem bind_eq_error {first : Except ε α} {next : α → Except ε β} {reason : ε} :
    (first >>= next) = .error reason ↔
      first = .error reason ∨ ∃ middle, first = .ok middle ∧ next middle = .error reason := by
  cases first with
  | error found => simp
  | ok middle => simp

theorem foldlM_cons_eq_ok {step : σ → α → Except ε σ} {item : α} {rest : List α}
    {state last : σ} : (item :: rest).foldlM step state = .ok last ↔
      ∃ middle, step state item = .ok middle ∧ rest.foldlM step middle = .ok last := by
  rw [List.foldlM_cons, bind_eq_ok]

@[simp] theorem map_id (outcome : Except ε α) : outcome.map id = outcome := by
  cases outcome <;> rfl

@[simp] theorem mapError_id (outcome : Except ε α) : outcome.mapError id = outcome := by
  cases outcome <;> rfl

@[simp] theorem mapError_ok (change : ε → δ) (result : α) :
    (Except.ok result).mapError change = .ok result := rfl

@[simp] theorem mapError_error (change : ε → δ) (reason : ε) :
    (Except.error reason : Except ε α).mapError change = .error (change reason) := rfl

@[simp] theorem map_ok (change : α → β) (result : α) :
    (Except.ok result : Except ε α).map change = .ok (change result) := rfl

@[simp] theorem map_error (change : α → β) (reason : ε) :
    (Except.error reason).map change = .error reason := rfl

@[simp] theorem mapError_eq_ok (change : ε → δ) {outcome : Except ε α} {result : α} :
    outcome.mapError change = .ok result ↔ outcome = .ok result := by
  cases outcome <;> simp

theorem mapError_eq_error {change : ε → δ} {outcome : Except ε α} {reason : δ} :
    outcome.mapError change = .error reason ↔
      ∃ found, outcome = .error found ∧ change found = reason := by
  cases outcome <;> simp

theorem mapError_bind (change : ε → δ) (first : Except ε α) (next : α → Except ε β) :
    (first >>= next).mapError change =
      first.mapError change >>= fun middle => (next middle).mapError change := by
  cases first <;> rfl

theorem mapError_mapError {γ : Type} (change : ε → δ) (again : δ → γ) (outcome : Except ε α) :
    (outcome.mapError change).mapError again = outcome.mapError (again ∘ change) := by
  cases outcome <;> rfl

/-- If one step commutes with a change of states, items and errors, so does the whole fold. -/
theorem foldlM_mapped (step : σ → α → Except ε σ) (image : τ → β → Except δ τ) (state : σ → τ)
    (item : α → β) (change : ε → δ)
    (commutes : ∀ s a, image (state s) (item a) = ((step s a).mapError change).map state)
    (items : List α) (s : σ) :
    (items.map item).foldlM image (state s) =
      ((items.foldlM step s).mapError change).map state := by
  induction items generalizing s with
  | nil => rfl
  | cons a rest ih =>
      rw [List.map_cons, List.foldlM_cons, List.foldlM_cons, commutes]
      cases step s a with
      | error reason => rfl
      | ok next => exact ih next

/-- Two outcomes with the same error, or with results that are related. -/
inductive Agree (related : α → β → Prop) : Except ε α → Except ε β → Prop where
  | ok {left : α} {right : β} (results : related left right) : Agree related (.ok left) (.ok right)
  | error (reason : ε) : Agree related (.error reason) (.error reason)

namespace Agree

variable {related : α → β → Prop}

theorem bind {related' : σ → τ → Prop} {left : Except ε α} {right : Except ε β}
    {next : α → Except ε σ} {next' : β → Except ε τ} (agree : Agree related left right)
    (follow : ∀ a b, related a b → Agree related' (next a) (next' b)) :
    Agree related' (left >>= next) (right >>= next') := by
  cases agree with
  | ok results => exact follow _ _ results
  | error reason => exact .error reason

theorem mapError {left : Except ε α} {right : Except ε β} (agree : Agree related left right)
    (change : ε → δ) : Agree related (left.mapError change) (right.mapError change) := by
  cases agree with
  | ok results => exact .ok results
  | error reason => exact .error (change reason)

theorem refl (outcome : Except ε α) : Agree (fun a b => a = b) outcome outcome := by
  cases outcome with
  | ok result => exact .ok rfl
  | error reason => exact .error reason

/-- Steps need to follow one another on the items of the list only. -/
theorem foldlM_of_mem {step : α → σ → Except ε α} {step' : β → σ → Except ε β} {items : List σ}
    (follow : ∀ item ∈ items, ∀ a b, related a b → Agree related (step a item) (step' b item))
    {a : α} {b : β} (start : related a b) :
    Agree related (items.foldlM step a) (items.foldlM step' b) := by
  induction items generalizing a b with
  | nil => exact .ok start
  | cons item rest ih =>
      obtain ⟨first, more⟩ := List.forall_mem_cons.mp follow
      exact (first a b start).bind fun _ _ next => ih more next

theorem foldlM {step : α → σ → Except ε α} {step' : β → σ → Except ε β}
    (follow : ∀ a b item, related a b → Agree related (step a item) (step' b item))
    (items : List σ) {a : α} {b : β} (start : related a b) :
    Agree related (items.foldlM step a) (items.foldlM step' b) :=
  foldlM_of_mem (fun item _ a b => follow a b item) start

theorem eq_of_eq {left right : Except ε α} (agree : Agree (fun a b => a = b) left right) :
    left = right := by
  cases agree with
  | ok results => rw [results]
  | error reason => rfl

end Agree

theorem foldlM_congr {step step' : σ → α → Except ε σ} {items : List α}
    (same : ∀ item ∈ items, ∀ state, step state item = step' state item) (state : σ) :
    items.foldlM step state = items.foldlM step' state := by
  refine (Agree.foldlM_of_mem ?_ rfl).eq_of_eq
  intro item member first second equal
  rw [equal, same item member]
  exact Agree.refl _

end InfixCalculator.Outcome
