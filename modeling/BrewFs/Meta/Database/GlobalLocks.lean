import BrewFs.Library.Run

/-! The TTL locks of the SQL store: `get_lock_internal` and `release_lock_internal`, each one
transaction, with what every holder believes to have. A transaction is taken to be atomic: SQLite's
write guard makes it so, PostgreSQL under READ COMMITTED does not by itself. -/

namespace BrewFs.Meta.Database.GlobalLocks

open Function (update update_of_ne update_self)

variable {Name : Type}

structure State (Name : Type) where
  now : Nat
  /-- `last_updated` of a row: when the lock expires. -/
  rows : Name → Option Nat
  /-- The expiry of a lease acquired and not released. -/
  leases : Nat × Name → Option Nat

inductive Action (Name : Type) where
  | tick (secs : Nat)
  | getLock (holder : Nat) (name : Name) (ttlSecs : Nat)
  | releaseLock (holder : Nat) (name : Name)

namespace State

/-- The lease is acquired, not released and not expired. -/
def Holds (s : State Name) (holder : Nat) (name : Name) : Prop :=
  ∃ expiresAt ∈ s.leases (holder, name), s.now < expiresAt

def Exclusive (s : State Name) : Prop :=
  ∀ name first second, s.Holds first name → s.Holds second name → first = second

/-- Every lease that is held is the one in the row. -/
structure Sound (s : State Name) : Prop where
  recorded : ∀ holder name, ∀ expiresAt ∈ s.leases (holder, name), s.now < expiresAt →
    s.rows name = some expiresAt
  exclusive : s.Exclusive

variable {s next : State Name} {action : Action Name} {holder : Nat} {name : Name}

theorem Sound.not_holds (sound : s.Sound) (expired : ∀ expiresAt ∈ s.rows name, expiresAt ≤ s.now)
    (holder : Nat) : ¬ s.Holds holder name := by
  rintro ⟨expiresAt, own, live⟩
  exact absurd (expired expiresAt (sound.recorded holder name expiresAt own live))
    (Nat.not_le_of_lt live)

variable [DecidableEq Name]

def initial (now : Nat) : State Name := ⟨now, fun _ => none, fun _ => none⟩

/-- The row and the holder's lease are set, or both removed. -/
def put (s : State Name) (holder : Nat) (name : Name) (row : Option Nat) : State Name :=
  { s with rows := update s.rows name row, leases := update s.leases (holder, name) row }

/-- The lock is given without a row or after its expiry; a release deletes the row, whoever asks. -/
def step (s : State Name) : Action Name → Option (State Name)
  | .tick secs => some { s with now := s.now + secs }
  | .getLock holder name ttlSecs => some <|
    if ∀ expiresAt ∈ s.rows name, expiresAt ≤ s.now then s.put holder name (s.now + ttlSecs)
    else s
  | .releaseLock holder name => s.put holder name none

/-- The deleted row is the holder's own, or has expired. -/
def NotTakenOver (s : State Name) : Action Name → Prop
  | .releaseLock holder name =>
    s.rows name = s.leases (holder, name) ∨ ∀ expiresAt ∈ s.rows name, expiresAt ≤ s.now
  | _ => True

instance (s : State Name) (action : Action Name) : Decidable (s.NotTakenOver action) := by
  cases action <;> unfold NotTakenOver <;> infer_instance

theorem Sound.put (sound : s.Sound) (alone : ∀ other ≠ holder, ¬ s.Holds other name)
    (row : Option Nat) : (s.put holder name row).Sound := by
  have leases : ∀ other key, ∀ expiresAt ∈ (s.put holder name row).leases (other, key),
      s.now < expiresAt → other = holder ∧ key = name ∧ row = some expiresAt ∨
        key ≠ name ∧ expiresAt ∈ s.leases (other, key) := by
    intro other key expiresAt own live
    simp only [State.put] at own
    by_cases same : (other, key) = (holder, name)
    · cases same
      rw [update_self] at own
      exact .inl ⟨rfl, rfl, own⟩
    rw [update_of_ne same] at own
    refine .inr ⟨fun renamed => ?_, own⟩
    subst renamed
    exact alone other (fun again => same (congrArg (·, key) again)) ⟨expiresAt, own, live⟩
  constructor
  · intro other key expiresAt own live
    obtain ⟨rfl, rfl, rfl⟩ | ⟨distinct, own⟩ := leases other key expiresAt own live
    · exact update_self ..
    · exact (update_of_ne distinct ..).trans (sound.recorded other key expiresAt own live)
  rintro key first second ⟨e, own, live⟩ ⟨e', own', live'⟩
  obtain ⟨rfl, rfl, _⟩ | ⟨distinct, own⟩ := leases first key e own live
  · obtain ⟨rfl, _⟩ | ⟨distinct, _⟩ := leases second key e' own' live'
    · rfl
    · exact absurd rfl distinct
  obtain ⟨_, rfl, _⟩ | ⟨_, own'⟩ := leases second key e' own' live'
  · exact absurd rfl distinct
  · exact sound.exclusive key first second ⟨e, own, live⟩ ⟨e', own', live'⟩

theorem Sound.step (sound : s.Sound) (meets : s.NotTakenOver action)
    (taken : s.step action = some next) : next.Sound := by
  cases action with
  | tick secs =>
    cases taken
    have older : ∀ {expiresAt}, s.now + secs < expiresAt → s.now < expiresAt :=
      Nat.lt_of_le_of_lt (Nat.le_add_right ..)
    refine ⟨fun holder name e own live => sound.recorded holder name e own (older live), ?_⟩
    rintro name first second ⟨e, own, live⟩ ⟨e', own', live'⟩
    exact sound.exclusive name first second ⟨e, own, older live⟩ ⟨e', own', older live'⟩
  | getLock holder name ttlSecs =>
    cases taken
    split
    · exact sound.put (fun other _ => sound.not_holds ‹_› other) _
    · exact sound
  | releaseLock holder name =>
    cases taken
    refine sound.put (fun other distinct holds => ?_) none
    rcases meets with own | expired
    · obtain ⟨e, there, live⟩ := holds
      rw [sound.recorded other name e there live] at own
      exact distinct (sound.exclusive name _ _ ⟨e, there, live⟩ ⟨e, own.symm, live⟩)
    · exact sound.not_holds expired other holds

/-- While no release deletes the row of another holder's lease, a lock has one holder. -/
theorem one_holder (now : Nat) (actions : List (Action Name)) (final : State Name)
    (meets : Run.Along step NotTakenOver (initial now) actions)
    (run : Run.exec step (initial now) actions = some final) : final.Exclusive :=
  (Run.invariant_along (fun _ _ _ => Sound.step) ⟨nofun, nofun⟩ meets run).exclusive

/-- The second holder takes over after the expiry and releases its lease. -/
theorem one_holder_after_takeover :
    let actions := [.getLock 1 () 1, .tick 1, .getLock 2 () 5, .releaseLock 2 (), .getLock 3 () 5]
    ∃ final, Run.exec step (initial 0) actions = some final ∧ final.Exclusive := by
  intro actions
  exact ⟨_, rfl, one_holder 0 actions _ (by decide) rfl⟩

/-- The first holder's late release lets a third in beside the second. -/
theorem late_release_ends_new_lease :
    ∃ final : State Unit, Run.exec step (initial 0) [.getLock 1 () 1, .tick 1, .getLock 2 () 5,
      .releaseLock 1 (), .getLock 3 () 5] = some final ∧ final.Holds 2 () ∧ final.Holds 3 () :=
  ⟨_, rfl, ⟨6, rfl, by decide⟩, ⟨6, rfl, by decide⟩⟩

end State

end BrewFs.Meta.Database.GlobalLocks
