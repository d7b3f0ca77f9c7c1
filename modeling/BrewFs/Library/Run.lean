import Mathlib.Tactic.Ring

/- Runs of a deterministic system whose steps are chosen by a list of actions. -/
namespace BrewFs.Run

variable {σ τ α : Type}

/-- Take the actions in order; `none` when one of them is not enabled. -/
def exec (step : σ → α → Option σ) : σ → List α → Option σ
  | s, [] => some s
  | s, action :: rest => (step s action).bind fun next => exec step next rest

@[simp] theorem exec_nil (step : σ → α → Option σ) (s : σ) : exec step s [] = some s := rfl

variable {step : σ → α → Option σ}

theorem exec_cons_eq_some {s final : σ} {action : α} {rest : List α} :
    exec step s (action :: rest) = some final ↔
      ∃ next, step s action = some next ∧ exec step next rest = some final :=
  Option.bind_eq_some_iff

/-- A run that can be evaluated ends in a state of which a property can be checked. -/
theorem reaches {s : σ} {actions : List α} {P : σ → Prop}
    [DecidablePred P] (checked : (exec step s actions).any (fun final => decide (P final)) = true) :
    ∃ final, exec step s actions = some final ∧ P final := by
  cases run : exec step s actions with
  | none =>
    rw [run] at checked
    cases checked
  | some final =>
    rw [run] at checked
    exact ⟨final, rfl, of_decide_eq_true checked⟩

/-- Every step of the run meets the condition in its state. -/
def Along (step : σ → α → Option σ) (cond : σ → α → Prop) : σ → List α → Prop
  | _, [] => True
  | s, action :: rest => cond s action ∧ ∀ next, step s action = some next →
      Along step cond next rest

instance decidableAlong (step : σ → α → Option σ) (cond : σ → α → Prop)
    [∀ s action, Decidable (cond s action)] :
    ∀ (s : σ) (actions : List α), Decidable (Along step cond s actions)
  | _, [] => isTrue trivial
  | s, action :: rest =>
    match taken : step s action with
    | none => decidable_of_iff (cond s action)
        ⟨fun meets => ⟨meets, fun next found => by rw [taken] at found; cases found⟩, And.left⟩
    | some next =>
      have := decidableAlong step cond next rest
      decidable_of_iff (cond s action ∧ Along step cond next rest)
        ⟨fun meets => ⟨meets.1, fun other found => by
          rw [taken] at found; cases found; exact meets.2⟩,
          fun meets => ⟨meets.1, meets.2 next taken⟩⟩

variable {cond : σ → α → Prop} {rel : σ → τ → Prop} {inv : σ → Prop}

theorem along_of_forall {actions : List α} {s : σ}
    (meets : ∀ action ∈ actions, ∀ s, cond s action) : Along step cond s actions := by
  induction actions generalizing s with
  | nil => trivial
  | cons action rest ih =>
    rw [List.forall_mem_cons] at meets
    exact ⟨meets.1 s, fun _ _ => ih meets.2⟩

/-- A relation between the state and an observer of the actions. -/
theorem tracks {track : τ → α → τ}
    (keeps : ∀ s t action next, rel s t → cond s action → step s action = some next →
      rel next (track t action)) {actions : List α} {s final : σ} {t : τ} (start : rel s t)
    (meets : Along step cond s actions) (run : exec step s actions = some final) :
    rel final (actions.foldl track t) := by
  induction actions generalizing s t with
  | nil =>
    cases run
    exact start
  | cons action rest ih =>
    rcases exec_cons_eq_some.mp run with ⟨next, taken, later⟩
    exact ih (keeps s t action next start meets.1 taken) (meets.2 next taken) later

theorem invariant_along
    (keeps : ∀ s action next, inv s → cond s action → step s action = some next → inv next)
    {actions : List α} {s final : σ} (start : inv s) (meets : Along step cond s actions)
    (run : exec step s actions = some final) : inv final :=
  @tracks σ Unit α step cond (fun s _ => inv s) (fun _ _ => ()) (fun s _ => keeps s) _ _ _ () start
    meets run

theorem invariant (keeps : ∀ s action next, inv s → step s action = some next → inv next)
    {actions : List α} {s final : σ} (start : inv s) (run : exec step s actions = some final) :
    inv final :=
  invariant_along (fun s action next held _ => keeps s action next held) start
    (@along_of_forall _ _ _ (fun _ _ => True) _ _ fun _ _ _ => trivial) run

theorem exec_append {s final : σ} {first second : List α} :
    exec step s (first ++ second) = some final ↔
      ∃ middle, exec step s first = some middle ∧ exec step middle second = some final := by
  induction first generalizing s with
  | nil => simp
  | cons action rest ih =>
    simp only [List.cons_append, exec_cons_eq_some, ih]
    constructor
    · rintro ⟨next, taken, middle, reached, later⟩
      exact ⟨middle, ⟨next, taken, reached⟩, later⟩
    · rintro ⟨middle, ⟨next, taken, reached⟩, later⟩
      exact ⟨next, taken, middle, reached, later⟩

/-- The condition along a run holds along its two parts. -/
theorem Along.append {s middle : σ} {first second : List α}
    (meets : Along step cond s (first ++ second))
    (reached : exec step s first = some middle) :
    Along step cond s first ∧ Along step cond middle second := by
  induction first generalizing s with
  | nil =>
    cases reached
    exact ⟨trivial, meets⟩
  | cons action rest ih =>
    rcases exec_cons_eq_some.mp reached with ⟨next, taken, later⟩
    obtain ⟨before, after⟩ := ih (meets.2 next taken) later
    refine ⟨⟨meets.1, fun other found => ?_⟩, after⟩
    rw [taken] at found
    cases found
    exact before

/-- Stuttering simulation: hidden actions keep the relation, visible ones are matched, so the run
without the hidden ones exists and ends in a related state. -/
theorem simulate {spec : τ → α → Option τ} (visible : α → Bool)
    (hidden : ∀ s t action next, rel s t → visible action = false → step s action = some next →
      rel next t)
    (shown : ∀ s t action next, rel s t → visible action = true → step s action = some next →
      ∃ matched, spec t action = some matched ∧ rel next matched) {actions : List α} {s final : σ}
    {t : τ} (start : rel s t) (run : exec step s actions = some final) :
    ∃ last, exec spec t (actions.filter visible) = some last ∧ rel final last := by
  induction actions generalizing s t with
  | nil =>
    cases run
    exact ⟨t, rfl, start⟩
  | cons action rest ih =>
    rcases exec_cons_eq_some.mp run with ⟨next, taken, later⟩
    cases seen : visible action with
    | false =>
      rw [List.filter_cons_of_neg (by simp [seen])]
      exact ih (hidden s t action next start seen taken) later
    | true =>
      rcases shown s t action next start seen taken with ⟨matched, answered, related⟩
      rcases ih related later with ⟨last, finished, ends⟩
      rw [List.filter_cons_of_pos seen]
      exact ⟨last, exec_cons_eq_some.mpr ⟨matched, answered, finished⟩, ends⟩

end BrewFs.Run
