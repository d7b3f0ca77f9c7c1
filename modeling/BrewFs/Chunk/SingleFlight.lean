import BrewFs.Library.Run
import BrewFs.Library.Slots

/-! `chunk/singleflight.rs`: callers that share one computation for a key. A leader and a waiter
take a step at a time, from one lock scope or await point to the next; a waiter that is dropped
takes no more steps. -/

namespace BrewFs.Chunk.SingleFlight

open Function (update update_of_ne update_self)
open BrewFs.Slots Option

variable {K V : Type}

/-- An error is its text. -/
abbrev SharedResult (V : Type) := Except String V

def droppedError : SharedResult V := .error "SingleFlight executor dropped before completing"

/-- Where a leader stands after its computation. -/
inductive Stage where
  /-- `remove_entry` looks whether the entry is its own. -/
  | leaving
  | removing
  | finishing
  | notifying
  | gone
deriving DecidableEq

/-- `FlightEntry` and its leader. -/
structure Flight (K V : Type) where
  key : K
  /-- Nothing while the entry is running. -/
  state : Option (SharedResult V)
  /-- `notify_waiters` has been called. -/
  notified : Bool
  /-- What the computation of the leader has given. -/
  result : Option (SharedResult V)
  stage : Stage

/-- Where a caller that joined a flight stands in `wait_for_result`. -/
inductive Waiter (V : Type) where
  | joined
  /-- `seen`: the waiters were notified when this one began to listen. -/
  | looking (seen : Bool)
  | parked (seen : Bool)
  | answered (result : SharedResult V)

/-- A call that joined a flight, with the key it asked for. -/
structure Caller (K V : Type) where
  key : K
  flight : Nat
  waiter : Waiter V

/-- A flight has its leader's number. -/
structure State (K V : Type) where
  inFlight : K → Option Nat
  flights : Nat → Option (Flight K V)
  waiters : Nat → Option (Caller K V)

inductive Action (K V : Type) where
  | execute (caller : Nat) (key : K)
  | tryPiggyback (caller : Nat) (key : K)
  /-- A leader's computation ends; without a result the leader is dropped. -/
  | complete (number : Nat) (result : Option (SharedResult V))
  | lead (number : Nat)
  | wait (caller : Nat)

/-! ### Steps -/

def Waiter.advance (flight : Flight K V) : Waiter V → Option (Waiter V)
  | joined => some (looking flight.notified)
  | looking seen => some (flight.state.elim (parked seen) answered)
  | parked seen => if flight.notified = true ∧ seen = false then some joined else none
  | answered _ => none

namespace State

def init : State K V := ⟨fun _ => none, fun _ => none, fun _ => none⟩

def setFlight (s : State K V) (number : Nat) (flight : Flight K V) : State K V :=
  { s with flights := update s.flights number (some flight) }

variable (s : State K V) (number : Nat)

def setWaiter (caller : Caller K V) : State K V :=
  { s with waiters := update s.waiters number (some caller) }

def join (key : K) (flight : Nat) : Option (State K V) :=
  if (s.waiters number).isSome then none else some (s.setWaiter number ⟨key, flight, .joined⟩)

variable [DecidableEq K]

/-- `LeaderGuard::complete` and `LeaderGuard::drop` -/
def lead (s : State K V) (number : Nat) (flight : Flight K V) : Option (State K V) :=
  flight.result.bind fun result =>
    match flight.stage with
    | .leaving => some (s.setFlight number { flight with
        stage := if s.inFlight flight.key = some number then .removing else .finishing })
    | .removing => some { s.setFlight number { flight with stage := .finishing } with
        inFlight := update s.inFlight flight.key none }
    | .finishing => some (s.setFlight number (if flight.state.isNone then
        { flight with state := some result, stage := .notifying } else
        { flight with stage := .gone }))
    | .notifying => some (s.setFlight number { flight with notified := true, stage := .gone })
    | .gone => none

def step (s : State K V) : Action K V → Option (State K V)
  | .execute caller key =>
    match s.inFlight key with
    | some number => s.join caller key number
    | none =>
      if (s.flights caller).isSome then none
      else some { s.setFlight caller ⟨key, none, false, none, .leaving⟩ with
        inFlight := update s.inFlight key (some caller) }
  | .tryPiggyback caller key => (s.inFlight key).bind (s.join caller key)
  | .complete number result => (s.flights number).bind fun flight =>
    if flight.result.isSome then none
    else some (s.setFlight number { flight with result := some (result.getD droppedError) })
  | .lead number => (s.flights number).bind (s.lead number)
  | .wait number => (s.waiters number).bind fun caller =>
      (s.flights caller.flight).bind fun flight =>
    (caller.waiter.advance flight).map fun waiter => s.setWaiter number { caller with waiter }

end State

/-! ### Flights -/

/-- The steps that are left to a leader. -/
def Stage.rank : Stage → Nat
  | leaving => 4
  | removing => 3
  | finishing => 2
  | notifying => 1
  | gone => 0

/-- The steps left to a waiter whose leader is gone. -/
def Waiter.rank : Waiter V → Nat
  | parked _ => 3
  | joined => 2
  | looking _ => 1
  | answered _ => 0

/-- The leader has the entry under the key. -/
def Flight.Holds (flight : Flight K V) (key : K) : Prop :=
  flight.key = key ∧ decide (2 < flight.stage.rank) = true

/-- The entry is as its leader has left it. -/
structure Flight.Ok (flight : Flight K V) : Prop where
  running : flight.result = none → flight.stage = .leaving
  state : flight.state = if flight.stage.rank < 2 then flight.result else none
  notified : flight.notified = decide (flight.stage = .gone)

theorem Flight.Ok.ended {flight : Flight K V} (ok : flight.Ok) (gone : flight.stage = .gone) :
    ∃ result, flight.state = some result ∧ flight.notified = true := by
  obtain ⟨running, state, notified⟩ := ok
  rw [gone] at running state notified
  cases outcome : flight.result with
  | none => cases running outcome
  | some result => exact ⟨result, state.trans outcome, notified⟩

def Waiter.Fits (flight : Flight K V) : Waiter V → Prop
  | joined => True
  | looking seen => seen = true → flight.notified = true
  | parked seen => seen = false
  | answered result => flight.state = some result

/-- A later state of a flight: what its waiters have seen stays true. -/
structure Flight.Grows (flight later : Flight K V) : Prop where
  key : later.key = flight.key
  fits : ∀ waiter : Waiter V, waiter.Fits flight → waiter.Fits later

namespace State

structure Sound (s : State K V) : Prop where
  owns : ∀ key number, s.inFlight key = some number ↔ ∃ flight ∈ s.flights number, flight.Holds key
  ok : ∀ number, ∀ flight ∈ s.flights number, flight.Ok
  fits : ∀ number, ∀ caller ∈ s.waiters number, ∃ flight ∈ s.flights caller.flight,
    flight.key = caller.key ∧ caller.waiter.Fits flight

theorem sound_init : (init : State K V).Sound := ⟨by simp [init], nofun, nofun⟩

variable {s next : State K V} {caller : Caller K V} {number : Nat} {flight later : Flight K V}
  {waiter : Waiter V}

section

variable (sound : s.Sound)

include sound

section

theorem Sound.setWaiter (found : s.flights caller.flight = some flight)
    (key : flight.key = caller.key) (fits : caller.waiter.Fits flight) :
    (s.setWaiter number caller).Sound where
  owns := sound.owns
  ok := sound.ok
  fits other old here := by
    rcases mem_put here with ⟨_, rfl⟩ | ⟨_, before⟩
    · exact ⟨flight, found, key, fits⟩
    · exact sound.fits other old before

theorem Sound.join {key : K} {joined : Nat} (found : s.inFlight key = some joined)
    (taken : s.join number key joined = some next) : next.Sound := by
  obtain ⟨flight, there, own, _⟩ := (sound.owns key joined).mp found
  unfold State.join at taken
  split at taken <;> cases taken
  exact sound.setWaiter there own trivial

variable (found : s.flights number = some flight)

include found

theorem Sound.fits_advance {before : Waiter V} (fits : before.Fits flight)
    (taken : before.advance flight = some waiter) : waiter.Fits flight := by
  have ok := sound.ok number flight found
  cases before with
  | joined =>
    cases taken
    exact id
  | looking seen =>
    cases taken
    cases state : flight.state with
    | some result => exact state
    | none =>
      -- whoever had been notified would have found the result
      refine Bool.eq_false_iff.mpr fun seen => ?_
      obtain ⟨result, found, _⟩ := ok.ended (of_decide_eq_true (ok.notified.symm.trans (fits seen)))
      cases state.symm.trans found
  | parked seen =>
    simp only [Waiter.advance, ite_none_right_eq_some] at taken
    cases taken.2
    trivial
  | answered => cases taken

omit found in
theorem Sound.setFlight {inFlight : K → Option Nat} (ok : later.Ok)
    (grows : ∀ flight ∈ s.flights number, flight.Grows later)
    (owns : ∀ key other, inFlight key = some other ↔
      if other = number then later.Holds key else s.inFlight key = some other) :
    { s.setFlight number later with inFlight := inFlight }.Sound where
  owns key other := by
    simp only [owns, State.setFlight, Function.update_apply]
    split
    · simp
    · exact sound.owns key other
  ok other flight found := by
    rcases mem_put found with ⟨_, rfl⟩ | ⟨_, before⟩
    · exact ok
    · exact sound.ok other flight before
  fits other caller found := by
    obtain ⟨flight, there, key, fits⟩ := sound.fits other caller found
    by_cases here : caller.flight = number
    · rw [here] at there ⊢
      have grown := grows flight there
      exact ⟨later, update_self .., grown.key.trans key, grown.fits _ fits⟩
    · exact ⟨flight, (update_of_ne here ..).trans there, key, fits⟩

theorem Sound.goOn (ok : later.Ok) (grows : flight.Grows later)
    (same : later.Holds = flight.Holds) : (s.setFlight number later).Sound := by
  refine sound.setFlight ok (fun _ there => Option.some.inj (found.symm.trans there) ▸ grows)
    fun key other => ?_
  split
  · rename_i here
    rw [same, here, sound.owns]
    simp [found]
  · rfl

variable [DecidableEq K]

theorem Sound.lead (taken : s.lead number flight = some next) : next.Sound := by
  have ok := sound.ok number flight found
  obtain ⟨key, state, notified, outcome, stage⟩ := flight
  obtain ⟨result, rfl, taken⟩ := bind_eq_some_iff.mp taken
  cases stage <;> cases taken
  case leaving =>
    rw [if_pos ((sound.owns key number).mpr ⟨_, found, rfl, rfl⟩)]
    exact sound.goOn found ⟨nofun, ok.state, ok.notified⟩ ⟨rfl, fun _ => id⟩ rfl
  case removing =>
    refine sound.setFlight ⟨nofun, ok.state, ok.notified⟩
      (fun _ there => Option.some.inj (found.symm.trans there) ▸ ⟨rfl, fun _ => id⟩)
      fun other held => ?_
    have own := sound.owns other number
    simp only [found, mem_some, Flight.Holds, Stage.rank] at own ⊢
    grind
  case finishing =>
    obtain rfl : state = none := ok.state
    refine sound.goOn found ⟨nofun, rfl, ok.notified⟩ ⟨rfl, fun waiter fits => ?_⟩ rfl
    cases waiter <;> first | exact fits | cases fits
  case notifying =>
    refine sound.goOn found ⟨nofun, ok.state, rfl⟩ ⟨rfl, fun waiter fits => ?_⟩ rfl
    cases waiter <;> first | exact fits | exact fun _ => rfl

end

end

variable [DecidableEq K]

theorem Sound.step (s : State K V) (action : Action K V) (next : State K V) (sound : s.Sound)
    (taken : s.step action = some next) : next.Sound := by
  cases action with
  | execute caller key =>
    simp only [State.step] at taken
    split at taken
    · rename_i found
      exact sound.join found taken
    split at taken <;> cases taken
    rename_i fresh
    rw [not_isSome_iff_eq_none] at fresh
    refine sound.setFlight ⟨fun _ => rfl, rfl, rfl⟩ (by simp [fresh]) fun other held => ?_
    have own := sound.owns other caller
    simp only [fresh, not_mem_none, Flight.Holds, Stage.rank]
      at own ⊢
    grind
  | tryPiggyback caller key =>
    obtain ⟨number, found, taken⟩ := bind_eq_some_iff.mp taken
    exact sound.join found taken
  | complete number result =>
    obtain ⟨flight, found, taken⟩ := bind_eq_some_iff.mp taken
    split at taken <;> cases taken
    rename_i running
    have ok := sound.ok number flight found
    have leaving := ok.running (not_isSome_iff_eq_none.mp running)
    have state := ok.state
    rw [leaving] at state
    exact sound.goOn found ⟨nofun, by rw [leaving]; exact state, ok.notified⟩ ⟨rfl, fun _ => id⟩ rfl
  | lead number =>
    obtain ⟨flight, found, taken⟩ := bind_eq_some_iff.mp taken
    exact sound.lead found taken
  | wait number =>
    obtain ⟨caller, here, taken⟩ := bind_eq_some_iff.mp taken
    obtain ⟨flight, found, taken⟩ := bind_eq_some_iff.mp taken
    obtain ⟨later, advanced, rfl⟩ := map_eq_some_iff.mp taken
    obtain ⟨same, there, key, fits⟩ := sound.fits number caller here
    cases found.symm.trans there
    exact sound.setWaiter found key (sound.fits_advance found fits advanced)

end State

end BrewFs.Chunk.SingleFlight
