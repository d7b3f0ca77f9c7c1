/-! Guards of code that fails early, and what a successful run says about them. -/

namespace BrewFs.Guard

variable {ε α β : Type}

def need (value : Option α) (error : ε) : Except ε α :=
  match value with
  | some a => .ok a
  | none => .error error

def check (passed : Prop) [Decidable passed] (error : ε) : Except ε Unit :=
  if passed then .ok () else .error error

@[simp] theorem need_eq_ok (value : Option α) (error : ε) (a : α) :
    need value error = .ok a ↔ value = some a := by
  cases value <;> simp [need]

@[simp] theorem check_eq_ok (passed : Prop) [Decidable passed] (error : ε) (u : Unit) :
    check passed error = .ok u ↔ passed := by
  unfold check
  split <;> simp [*]

@[simp] theorem bind_eq_ok (first : Except ε α) (next : α → Except ε β) (b : β) :
    (first >>= next) = .ok b ↔ ∃ a, first = .ok a ∧ next a = .ok b := by
  cases first with
  | error | ok => simp [bind, Except.bind]

@[simp] theorem pure_eq_ok (a b : α) : (pure a : Except ε α) = .ok b ↔ a = b := by
  simp [pure, Except.pure]

end BrewFs.Guard
