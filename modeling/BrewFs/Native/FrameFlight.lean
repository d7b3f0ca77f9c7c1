import BrewFs.Library.Run
import BrewFs.Library.Slots

/-! `FrameSingleflight` of `native_base/runtime/planner.rs`: callers that share one load of a key. A
caller takes a step at a time, from one lock to the next. -/

namespace BrewFs.Native.FrameFlight

open Function (update update_of_ne update_self)
open BrewFs.Slots Option

variable {K V : Type}

inductive Phase (V : Type) where
  | waiting
  /-- It has seen the error and has yet to remove the entry. -/
  | failed (error : String)
  | returned (result : Except String V)
  | cancelled

/-- A call of `get_or_load` and the flight it has joined. -/
structure Caller (K V : Type) where
  key : K
  flight : Nat
  phase : Phase V

/-- A flight has the number of the caller that began it. -/
structure State (K V : Type) where
  entries : K → Option Nat
  /-- The key a flight was begun for. -/
  flights : Nat → Option K
  /-- Nothing while the loader runs. -/
  results : Nat → Option (Except String V)
  callers : Nat → Option (Caller K V)

inductive Action (K V : Type) where
  | getOrLoad (number : Nat) (key : K)
  | load (flight : Nat) (result : Except String V)
  | look (number : Nat)
  | remove (number : Nat)
  | cancel (number : Nat)

def initial : State K V := ⟨fun _ => none, fun _ => none, fun _ => none, fun _ => none⟩

/-- What a waiting caller does with the result. -/
def Phase.seen : Except String V → Phase V
  | .ok value => .returned (.ok value)
  | .error error => .failed error

def State.setCaller (s : State K V) (number : Nat) (caller : Caller K V) : State K V :=
  { s with callers := update s.callers number (some caller) }

def State.begin [DecidableEq K] (s : State K V) (number : Nat) (key : K) : State K V :=
  { s with
    entries := update s.entries key (some number)
    flights := update s.flights number (some key)
    callers := update s.callers number (some ⟨key, number, .waiting⟩) }

def State.remove [DecidableEq K] (s : State K V) (number : Nat) (caller : Caller K V)
    (error : String) : State K V :=
  { s.setCaller number { caller with phase := .returned (.error error) } with
    entries := update s.entries caller.key none }

def step [DecidableEq K] (s : State K V) : Action K V → Option (State K V)
  | .getOrLoad number key =>
    if (s.callers number).isSome ∨ (s.flights number).isSome then none
    else match s.entries key with
      | some flight => some (s.setCaller number ⟨key, flight, .waiting⟩)
      | none => some (s.begin number key)
  | .load flight result =>
    if (s.flights flight).isNone ∨ (s.results flight).isSome then none
    else some { s with results := update s.results flight (some result) }
  | .look number => (s.callers number).bind fun caller =>
    match caller.phase, s.results caller.flight with
    | .waiting, some result => some (s.setCaller number { caller with phase := .seen result })
    | _, _ => none
  | .remove number => (s.callers number).bind fun caller =>
    match caller.phase with
    | .failed error => some (s.remove number caller error)
    | _ => none
  | .cancel number => (s.callers number).bind fun caller =>
    match caller.phase with
    | .waiting | .failed _ => some (s.setCaller number { caller with phase := .cancelled })
    | _ => none

/-- The caller has not returned. -/
def Phase.Pending : Phase V → Prop
  | waiting | failed _ => True
  | returned _ | cancelled => False

/-- What the caller has seen is the result. -/
def Phase.Saw (result : Option (Except String V)) : Phase V → Prop
  | failed error => result = some (.error error)
  | returned seen => result = some seen
  | waiting | cancelled => True

/-- A call that begins a flight finds no caller of the key that has not returned. -/
def Settled (s : State K V) : Action K V → Prop
  | .getOrLoad _ key => s.entries key = none →
    ∀ n caller, s.callers n = some caller → caller.key = key → ¬ caller.phase.Pending
  | _ => True

structure Sound (s : State K V) : Prop where
  /-- Callers see the results of the flights they joined. -/
  joined : ∀ {n caller}, s.callers n = some caller →
    s.flights caller.flight = some caller.key ∧ caller.phase.Saw (s.results caller.flight)
  /-- No caller is about to remove another flight than its own. -/
  owned : ∀ {n caller}, s.callers n = some caller → caller.phase.Pending →
    ∀ m, s.entries caller.key = some m → m = caller.flight
  entered : ∀ {key m}, s.entries key = some m → s.flights m = some key
  running : ∀ {key m}, s.flights m = some key → s.results m = none → s.entries key = some m

namespace Sound

variable {s : State K V} {number : Nat} {caller : Caller K V} (sound : Sound s)

include sound

theorem setCaller (joined : s.flights caller.flight = some caller.key)
    (saw : caller.phase.Saw (s.results caller.flight))
    (owned : caller.phase.Pending → ∀ m, s.entries caller.key = some m → m = caller.flight) :
    Sound (s.setCaller number caller) where
  joined found := by
    rcases mem_put found with ⟨-, rfl⟩ | ⟨-, old⟩
    · exact ⟨joined, saw⟩
    · exact sound.joined old
  owned found := by
    rcases mem_put found with ⟨-, rfl⟩ | ⟨-, old⟩
    · exact owned
    · exact sound.owned old
  entered := sound.entered
  running := sound.running

theorem load {flight : Nat} (unfinished : s.results flight = none) (result : Except String V) :
    Sound { s with results := update s.results flight (some result) } where
  joined {_ caller} found := by
    obtain ⟨known, saw⟩ := sound.joined found
    refine ⟨known, ?_⟩
    by_cases here : caller.flight = flight
    · -- a caller of a running flight has seen nothing yet
      rw [here, unfinished] at saw
      cases phase : caller.phase <;> rw [phase] at saw <;> trivial
    · simpa only [update_of_ne here] using saw
  owned := sound.owned
  entered := sound.entered
  running {_ m} known unfinished := by
    by_cases here : m = flight
    · simp only [here, update_self, reduceCtorEq] at unfinished
    · simp only [update_of_ne here] at unfinished
      exact sound.running known unfinished

variable [DecidableEq K]

theorem begin {key : K} (new : s.flights number = none) (free : s.entries key = none)
    (settled : ∀ n caller, s.callers n = some caller → caller.key = key → ¬ caller.phase.Pending) :
    Sound (s.begin number key) := by
  have kept {m : Nat} {key' : K} (known : s.flights m = some key') :
      update s.flights number (some key) m = some key' := by
    rw [update_of_ne, known]
    rintro rfl
    rw [new] at known
    cases known
  constructor
  case joined =>
    intro n other found
    rcases mem_put found with ⟨-, rfl⟩ | ⟨-, old⟩
    · exact ⟨update_self .., trivial⟩
    · exact (sound.joined old).imp_left kept
  case owned =>
    intro n other found pending m entry
    rcases mem_put found with ⟨-, rfl⟩ | ⟨-, old⟩ <;>
      rcases mem_put entry with ⟨same, rfl⟩ | ⟨different, entry⟩
    · rfl
    · exact absurd rfl different
    · exact absurd pending (settled n other old same)
    · exact sound.owned old pending m entry
  case entered =>
    intro key' m entry
    rcases mem_put entry with ⟨rfl, rfl⟩ | ⟨-, old⟩
    · exact update_self ..
    · exact kept (sound.entered old)
  case running =>
    intro key' m known unfinished
    rcases mem_put known with ⟨rfl, rfl⟩ | ⟨-, old⟩
    · exact update_self ..
    have entry := sound.running old unfinished
    refine (update_of_ne (fun same => ?_) ..).trans entry
    rw [same, free] at entry
    cases entry

theorem remove (found : s.callers number = some caller) {error : String}
    (failed : caller.phase = .failed error) : Sound (s.remove number caller error) := by
  obtain ⟨known, saw⟩ := sound.joined found
  rw [failed] at saw
  have moved : Sound (s.setCaller number { caller with phase := .returned (.error error) }) :=
    sound.setCaller known saw nofun
  refine ⟨moved.joined, fun there pending m entry => ?_, fun entry => ?_, fun flown unfinished =>
    ?_⟩
  · exact moved.owned there pending m (mem_free entry).2
  · exact moved.entered (mem_free entry).2
  · have entry := sound.running flown unfinished
    refine (update_of_ne (fun same => ?_) ..).trans entry
    -- the entry is the caller's own flight, which has its result
    subst same
    have own := sound.owned found (by rw [failed]; trivial) _ entry
    cases saw.symm.trans (own ▸ unfinished)

theorem step {action : Action K V} {next : State K V} (settled : Settled s action)
    (taken : FrameFlight.step s action = some next) : Sound next := by
  cases action with
  | getOrLoad number key =>
    obtain ⟨new, taken⟩ := ite_none_left_eq_some.mp taken
    rw [not_or, not_isSome_iff_eq_none, not_isSome_iff_eq_none] at new
    split at taken
    · rename_i m entry
      cases taken
      exact sound.setCaller (sound.entered entry) trivial fun _ n other =>
        Option.some.inj (other.symm.trans entry)
    rename_i free
    cases taken
    exact sound.begin new.2 free (settled free)
  | load flight result =>
    obtain ⟨running, ⟨⟩⟩ := ite_none_left_eq_some.mp taken
    exact sound.load (not_isSome_iff_eq_none.mp (not_or.mp running).2) result
  | look number =>
    obtain ⟨caller, found, taken⟩ := bind_eq_some_iff.mp taken
    split at taken
    · rename_i result waiting ready
      cases taken
      refine sound.setCaller (sound.joined found).1 (by cases result <;> exact ready)
        fun _ => (sound.owned found (by rw [waiting]; trivial) :)
    · cases taken
  | remove number =>
    obtain ⟨caller, found, taken⟩ := bind_eq_some_iff.mp taken
    split at taken
    · rename_i error failed
      cases taken
      exact sound.remove found failed
    · cases taken
  | cancel number =>
    obtain ⟨caller, found, taken⟩ := bind_eq_some_iff.mp taken
    have left : Sound (s.setCaller number { caller with phase := .cancelled }) :=
      sound.setCaller (sound.joined found).1 trivial nofun
    split at taken
    · cases taken
      exact left
    · cases taken
      exact left
    · cases taken

end Sound

/-- While no flight of a key begins before the callers of the last one have returned, a key has one
running loader, callers return the results of their flights, and none removes a later flight. -/
theorem frame_flight_exact [DecidableEq K] {actions : List (Action K V)} {final : State K V}
    (settled : Run.Along step Settled initial actions)
    (run : Run.exec step initial actions = some final) :
    (∀ key m n, final.flights m = some key → final.flights n = some key →
      final.results m = none → final.results n = none → m = n) ∧
    (∀ n caller result, final.callers n = some caller → caller.phase = .returned result →
      final.flights caller.flight = some caller.key ∧
        final.results caller.flight = some result) ∧
    ∀ n caller error, final.callers n = some caller → caller.phase = .failed error →
      ∀ m, final.entries caller.key = some m → m = caller.flight := by
  have sound : Sound final := Run.invariant_along (fun _ _ _ held settled taken =>
    held.step settled taken) (by constructor <;> intro _ _ found <;> cases found) settled run
  refine ⟨fun key m n left right first second => ?_, fun n caller result found returned => ?_,
    fun n caller error found failed => sound.owned found (by rw [failed]; trivial)⟩
  · exact Option.some.inj
      ((sound.running left first).symm.trans (sound.running right second))
  · have joined := sound.joined found
    rwa [returned] at joined

/-- Two callers of a load that fails, of which one has yet to remove the entry. -/
def failing : List (Action Unit Unit) :=
  [.getOrLoad 1 (), .getOrLoad 2 (), .load 1 (.error "lost"), .look 1, .look 2, .remove 1]

theorem frame_flight_exact_failing : ∃ final, Run.exec step initial failing = some final ∧
    (final.flights 1 = some () ∧ final.results 1 = some (.error "lost")) ∧
    ∀ m, final.entries () = some m → m = 1 := by
  have settled : Run.Along step Settled initial failing := by
    refine ⟨fun _ _ _ found => (by cases found), fun _ taken => ⟨?_, fun _ _ => ?_⟩⟩
    · -- the second caller finds the entry of the first
      cases taken
      exact fun free => (by cases free)
    · exact Run.along_of_forall (by simp [Settled])
  have run : Run.exec step initial failing = some _ := rfl
  have exact := frame_flight_exact settled run
  exact ⟨_, run, exact.2.1 1 ⟨(), 1, .returned (.error "lost")⟩ _ rfl rfl,
    exact.2.2 2 ⟨(), 1, .failed "lost"⟩ "lost" rfl rfl⟩

/-- Two callers see a load fail. The second removes the flight that a third has begun after the
first, and a fourth loads beside it. -/
theorem late_removal_hits_later_flight : ∃ final : State Unit Unit, Run.exec step initial
      [.getOrLoad 1 (), .getOrLoad 2 (), .load 1 (.error "lost"), .look 1, .look 2, .remove 1,
        .getOrLoad 3 (), .remove 2, .getOrLoad 4 ()] = some final ∧
    (final.flights 3 = some () ∧ final.results 3 = none) ∧
    final.flights 4 = some () ∧ final.results 4 = none :=
  ⟨_, rfl, ⟨rfl, rfl⟩, rfl, rfl⟩

end BrewFs.Native.FrameFlight
