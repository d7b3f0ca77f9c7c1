import Mathlib.Data.List.Forall2

/-! Programs that call on a shared state and are interleaved with others at their calls. A contract
says what a call asks for and what its answer gives; a program that keeps to it is safe whatever the
others do in between. -/

namespace BrewFs

/-- A program ends with a result or an error, or makes a call and goes on with the answer. -/
inductive Routine (E : Type) (Ans : E → Type) (ε α : Type) where
  | done (result : α)
  | fail (error : ε)
  | call (e : E) (next : Ans e → Routine E Ans ε α)

namespace Routine

variable {E : Type} {Ans : E → Type} {ε α β : Type}

def bind : Routine E Ans ε α → (α → Routine E Ans ε β) → Routine E Ans ε β
  | done a, f => f a
  | fail e, _ => fail e
  | call e next, f => call e fun a => (next a).bind f

instance : Monad (Routine E Ans ε) where
  pure := done
  bind := bind

def perform (e : E) : Routine E Ans ε (Ans e) := call e done

/-- The outcome, an error included. -/
def attempt : Routine E Ans ε α → Routine E Ans ε (Except ε α)
  | done a => done (.ok a)
  | fail e => done (.error e)
  | call e next => call e fun a => (next a).attempt

/-- One after another. -/
def collect (f : α → Routine E Ans ε β) : List α → Routine E Ans ε (List β)
  | [] => done []
  | a :: rest => do
      let b ← f a
      let more ← collect f rest
      done (b :: more)

def visit (f : α → Routine E Ans ε Unit) : List α → Routine E Ans ε Unit
  | [] => done ()
  | a :: rest => do
      f a
      visit f rest

end Routine

/-- What a call asks for, and what its answer gives. -/
structure Contract (E : Type) (Ans : E → Type) where
  demand : E → Prop
  answer : (e : E) → Ans e → Prop

namespace Routine

variable {E : Type} {Ans : E → Type} {ε α β : Type} {contract : Contract E Ans} {post : α → Prop}
  {routine : Routine E Ans ε α} {f : α → Routine E Ans ε β} {after : β → Prop} {list : List α}

/-- All calls are as demanded and a result is as it should be. -/
def Safe (contract : Contract E Ans) (post : α → Prop) : Routine E Ans ε α → Prop
  | done a => post a
  | fail _ => True
  | call e next => contract.demand e ∧ ∀ a, contract.answer e a → (next a).Safe contract post

theorem Safe.mono {weaker : α → Prop} (safe : routine.Safe contract post)
    (weaken : ∀ a, post a → weaker a) : routine.Safe contract weaker := by
  induction routine with
  | done a => exact weaken a safe
  | fail e => trivial
  | call e next ih => exact ⟨safe.1, fun a answered => ih a (safe.2 a answered)⟩

theorem Safe.bind (safe : routine.Safe contract post)
    (next : ∀ a, post a → (f a).Safe contract after) : (routine >>= f).Safe contract after := by
  induction routine with
  | done a => exact next a safe
  | fail e => trivial
  | call e rest ih => exact ⟨safe.1, fun a answered => ih a (safe.2 a answered)⟩

theorem safe_perform {e : E} (asked : contract.demand e) :
    (perform e : Routine E Ans ε (Ans e)).Safe contract (contract.answer e) :=
  ⟨asked, fun _ => id⟩

theorem safe_call {e : E} {f : Ans e → Routine E Ans ε β} (asked : contract.demand e)
    (next : ∀ a, contract.answer e a → (f a).Safe contract after) :
    (perform e >>= f).Safe contract after :=
  (safe_perform asked).bind next

/-- A program that may find something is continued in both cases. -/
theorem Safe.find {routine : Routine E Ans ε (Option α)} {f : Option α → Routine E Ans ε β}
    (safe : routine.Safe contract fun found => ∀ value, found = some value → post value)
    (hit : ∀ value, post value → (f (some value)).Safe contract after)
    (miss : (f none).Safe contract after) : (routine >>= f).Safe contract after :=
  safe.bind fun found right =>
    match found with
    | some value => hit value (right value rfl)
    | none => miss

theorem forall_found {value : α} (right : post value) :
    ∀ other, some value = some other → post other :=
  fun _ same => Option.some.inj same ▸ right

theorem Safe.attempt (safe : routine.Safe contract post) :
    routine.attempt.Safe contract fun outcome => ∀ a, outcome = .ok a → post a := by
  induction routine with
  | done a =>
    intro result same
    cases same
    exact safe
  | fail e =>
    intro result same
    cases same
  | call e next ih => exact ⟨safe.1, fun a answered => ih a (safe.2 a answered)⟩

theorem Safe.collect (each : α → β → Prop) (safe : ∀ a ∈ list, (f a).Safe contract (each a)) :
    (collect f list).Safe contract (List.Forall₂ each list) := by
  induction list with
  | nil => exact List.Forall₂.nil
  | cons a rest ih =>
    rw [List.forall_mem_cons] at safe
    refine safe.1.bind fun b one => (ih safe.2).bind fun more all => ?_
    exact List.Forall₂.cons one all

theorem Safe.visit {f : α → Routine E Ans ε Unit}
    (safe : ∀ a ∈ list, (f a).Safe contract fun _ => True) :
    (visit f list).Safe contract fun _ => True := by
  induction list with
  | nil => trivial
  | cons a rest ih =>
    rw [List.forall_mem_cons] at safe
    exact safe.1.bind fun _ _ => ih safe.2

/-! ### Steps -/

variable {σ χ : Type} {respond : σ → (e : E) → χ → Option (σ × Ans e)}

/-- The program's next call, with its answer; what the state leaves open is chosen. -/
def advance (respond : σ → (e : E) → χ → Option (σ × Ans e)) (s : σ) (choice : χ) :
    Routine E Ans ε α → Option (σ × Routine E Ans ε α × Σ e, Ans e)
  | done _ => none
  | fail _ => none
  | call e next => (respond s e choice).map fun answered =>
    (answered.1, next answered.2, ⟨e, answered.2⟩)

/-- A safe program's step keeps an invariant that the calls keep, and the program stays safe. -/
theorem Safe.advance {Inv : σ → Prop}
    (keeps : ∀ {s e choice s' a}, Inv s → contract.demand e → respond s e choice = some (s', a) →
      Inv s' ∧ contract.answer e a)
    {s s' : σ} {choice : χ} {later : Routine E Ans ε α} {made : Σ e, Ans e} (inv : Inv s)
    (safe : routine.Safe contract post)
    (moved : routine.advance respond s choice = some (s', later, made)) :
    Inv s' ∧ later.Safe contract post := by
  cases routine with
  | done a | fail e => cases moved
  | call e next =>
    obtain ⟨⟨_, a⟩, answered, same⟩ := Option.map_eq_some_iff.mp moved
    cases same
    obtain ⟨kept, given⟩ := keeps inv safe.1 answered
    exact ⟨kept, safe.2 a given⟩

end Routine

end BrewFs
