import BrewFs.Chunk.ChunksCache

/-! What one step of an operation can do to the tiers of the cache and to the operations. -/

namespace BrewFs.Chunk.ChunksCache

open CacheIntegrity Option
open Function (update_apply)

inductive Tier where
  | hot
  | writeHot
  | cold
  | disk
deriving DecidableEq, Repr

/-- The operation that brought what a tier holds for a key. -/
def visible (s : State) : Tier → CacheKey → Option Nat
  | .hot, key => (s.hot key).map Entry.origin
  | .writeHot, key => (s.writeHot key).map Entry.origin
  | .cold, key => s.cold key
  | .disk, key => (s.files.lookup key).map Entry.origin

/-- Where the values an operation carries came from. -/
def Work.origins : Work → List Nat
  | .insertHot entry _ | .insertWriteHot entry _ | .persist entry _ | .store entry | .evict entry
  | .evicting entry _ _ _ | .write entry | .publish entry => [entry.origin]
  | .marker origin | .promote origin => [origin]
  | .discard next => next.toList
  | .commit origin promoted => origin :: (promoted.map Entry.origin).toList
  | .lookup _ | .remove _ => []

/-- The operation still reads the file of its key. -/
def Work.reads : Work → Bool
  | .lookup _ | .promote _ => true
  | _ => false

variable {cfg : Config} {s t : State} {id other : Nat} {p q : Pending} {work : Work}
  {choice : Choice} {key : CacheKey}

/-- The gate is free and the generation is the operation's. -/
def Current (cfg : Config) (s : State) (p : Pending) : Prop :=
  unlocked cfg s p.key = true ∧ current cfg s p = true

/-- What other work of the same operation may carry. -/
def Follows (s : State) (p : Pending) (work : Work) : Prop :=
  (∀ origin ∈ work.origins, origin ∈ p.work.origins ∨
    p.work.reads = true ∧ visible s .disk p.key = some origin) ∧
  (work.reads = true → p.work.reads = true)

/-- A change of the tiers by an operation: what is new was carried by it and published under the
free gate at its generation. -/
structure Touches (cfg : Config) (id : Nat) (p : Pending) (s t : State) : Prop where
  pending : t.pending = s.pending
  nextId : t.nextId = s.nextId
  generation : ∀ shard, s.generation shard ≤ t.generation shard
  gate : ∀ shard holder, holder ≠ id → s.gate shard = some holder → t.gate shard = some holder
  shown : ∀ tier key origin, visible t tier key = some origin → visible s tier key = some origin ∨
      key = p.key ∧ Current cfg s p ∧ origin ∈ p.work.origins

/-- A step of an operation. -/
structure Effect (cfg : Config) (id : Nat) (p : Pending) (s next : State) : Prop where
  nextId : next.nextId = s.nextId
  generation : ∀ shard, s.generation shard ≤ next.generation shard
  gate : ∀ shard holder, holder ≠ id → s.gate shard = some holder → next.gate shard = some holder
  shown : ∀ tier key origin, visible next tier key = some origin →
    visible s tier key = some origin ∨ key = p.key ∧ Current cfg s p ∧ origin ∈ p.work.origins
  others : ∀ other, other ≠ id → next.pending.lookup other = s.pending.lookup other
  own : ∀ q, next.pending.lookup id = some q →
    ∃ work, q = { p with work := work } ∧ Follows s p work

namespace Touches

theorem refl : Touches cfg id p s s :=
  ⟨rfl, rfl, fun _ => le_rfl, fun _ _ _ held => held, fun _ _ _ shown => .inl shown⟩

section

variable (touches : Touches cfg id p s t)

include touches

theorem goOn (follows : Follows s p work) : Effect cfg id p s (t.goOn id p work) where
  nextId := touches.nextId
  generation := touches.generation
  gate := touches.gate
  shown tier key origin shown := touches.shown tier key origin (by cases tier <;> exact shown)
  others other differs := by
    rw [State.goOn, Keys.lookup_insert_eq, touches.pending, if_neg differs]
  own q found := by
    rw [State.goOn, Keys.lookup_insert_eq, if_pos rfl] at found
    cases found
    exact ⟨work, rfl, follows⟩

theorem finish : Effect cfg id p s (t.finish id) where
  nextId := touches.nextId
  generation := touches.generation
  gate shard holder other held := by
    have kept := touches.gate shard holder other held
    have unheld : t.gate shard ≠ some id := by
      rw [kept]
      exact fun same => other (Option.some.inj same)
    exact (if_neg unheld).trans kept
  shown tier key origin shown := touches.shown tier key origin (by cases tier <;> exact shown)
  others other differs := by
    rw [State.finish, Keys.lookup_erase_eq, touches.pending, if_neg differs]
  own q found := by
    rw [State.finish, Keys.lookup_erase_eq, if_pos rfl] at found
    cases found

theorem continueWith {work : Option Work} (follows : ∀ w ∈ work, Follows s p w) :
    Effect cfg id p s (ChunksCache.continueWith t id p work) := by
  cases work with
  | none => exact touches.finish
  | some work => exact touches.goOn (follows work rfl)

/-- A tier for one key is set to what the operation carries, or cleared. -/
theorem set {u : State} {tier : Tier} {value : Option Nat}
    (frame : u.pending = t.pending ∧ u.nextId = t.nextId ∧
      u.generation = t.generation ∧ u.gate = t.gate)
    (shown : ∀ tier' key', visible u tier' key' =
      if tier' = tier ∧ key' = key then value else visible t tier' key')
    (carried : ∀ origin ∈ value, key = p.key ∧ Current cfg s p ∧ origin ∈ p.work.origins) :
    Touches cfg id p s u where
  pending := frame.1.trans touches.pending
  nextId := frame.2.1.trans touches.nextId
  generation shard := (touches.generation shard).trans_eq (congrFun frame.2.2.1 shard).symm
  gate shard holder other held := by
    rw [frame.2.2.2]
    exact touches.gate shard holder other held
  shown tier' key' origin found := by
    rw [shown] at found
    split at found
    · rename_i here
      rw [here.2]
      exact .inr (carried origin found)
    · exact touches.shown tier' key' origin found

end

end Touches

section Visible

variable (s) (key : CacheKey)

theorem visible_setHot (entry : Option Entry) (tier' : Tier) (key' : CacheKey) :
    visible (s.setHot key entry) tier' key' =
      if tier' = .hot ∧ key' = key then entry.map Entry.origin else visible s tier' key' := by
  cases tier' <;> simp [visible, State.setHot, update_apply, apply_ite (Option.map _)]

theorem visible_setWriteHot (entry : Option Entry) (tier' : Tier) (key' : CacheKey) :
    visible (s.setWriteHot key entry) tier' key' =
      if tier' = .writeHot ∧ key' = key then entry.map Entry.origin
      else visible s tier' key' := by
  cases tier' <;> simp [visible, State.setWriteHot, update_apply, apply_ite (Option.map _)]

theorem visible_setCold (origin : Option Nat) (tier' : Tier) (key' : CacheKey) :
    visible (s.setCold key origin) tier' key' =
      if tier' = .cold ∧ key' = key then origin else visible s tier' key' := by
  cases tier' <;> simp [visible, State.setCold, update_apply]

theorem visible_putFile (entry : Entry) (tier' : Tier) (key' : CacheKey) :
    visible (s.putFile key entry) tier' key' =
      if tier' = .disk ∧ key' = key then some entry.origin else visible s tier' key' := by
  cases tier' <;> simp [visible, State.putFile, Keys.lookup_insert_eq, apply_ite (Option.map _)]

theorem visible_removeFile (tier' : Tier) (key' : CacheKey) :
    visible (s.removeFile key) tier' key' =
      if tier' = .disk ∧ key' = key then none else visible s tier' key' := by
  cases tier' <;> simp [visible, State.removeFile, Keys.lookup_erase_eq, apply_ite (Option.map _)]

end Visible

namespace Touches

variable (touches : Touches cfg id p s t) (key : CacheKey)

include touches

section

variable (entry : Option Entry)
  (carried : ∀ o ∈ entry.map Entry.origin, key = p.key ∧ Current cfg s p ∧ o ∈ p.work.origins)

include entry carried

theorem setHot : Touches cfg id p s (t.setHot key entry) :=
  touches.set ⟨rfl, rfl, rfl, rfl⟩ (visible_setHot t key entry) carried

theorem setWriteHot : Touches cfg id p s (t.setWriteHot key entry) :=
  touches.set ⟨rfl, rfl, rfl, rfl⟩ (visible_setWriteHot t key entry) carried

end

theorem setCold (origin : Option Nat)
    (carried : ∀ o ∈ origin, key = p.key ∧ Current cfg s p ∧ o ∈ p.work.origins) :
    Touches cfg id p s (t.setCold key origin) :=
  touches.set ⟨rfl, rfl, rfl, rfl⟩ (visible_setCold t key origin) carried

theorem putFile (entry : Entry) (own : key = p.key) (now : Current cfg s p)
    (carried : entry.origin ∈ p.work.origins) : Touches cfg id p s (t.putFile key entry) := by
  refine touches.set ⟨rfl, rfl, rfl, rfl⟩ (visible_putFile t key entry) fun origin mem => ?_
  cases mem
  exact ⟨own, now, carried⟩

theorem removeFile : Touches cfg id p s (t.removeFile key) :=
  touches.set ⟨rfl, rfl, rfl, rfl⟩ (visible_removeFile t key) (by simp)

theorem saturatingFetchSubBytes (value : Nat) :
    Touches cfg id p s (t.saturatingFetchSubBytes value) where
  pending := touches.pending
  nextId := touches.nextId
  generation := touches.generation
  gate := touches.gate
  shown tier key origin found := by
    exact touches.shown tier key origin found

end Touches

/-! ### The steps -/

/-- Work that carries what the operation carries. -/
theorem follows_of_origins (carries : work.origins ⊆ p.work.origins) (done : work.reads = false) :
    Follows s p work :=
  ⟨fun _ mem => .inl (carries mem), fun still => by rw [done] at still; cases still⟩

variable {next : State} {event : Event}

theorem locked_eq_some (taken : locked cfg s key t = some next) :
    unlocked cfg s key = true ∧ t = next := by
  obtain ⟨_, taken⟩ := ite_none_right_eq_some.mp taken
  exact ⟨‹_›, Option.some.inj taken⟩

section Steps

variable {entry : Entry} {origin : Nat} {next : State}

theorem coldMarkerHasFile_touches {checked : State × Bool}
    (answered : coldMarkerHasFile cfg s key choice = some checked) :
    Touches cfg id p s checked.1 := by
  unfold coldMarkerHasFile at answered
  split at answered
  · cases answered
    exact .refl
  split at answered
  · split at answered
    · split at answered <;> cases answered
      · exact .refl
      · exact Touches.refl.setCold key none (by simp)
    · cases answered
      exact .refl
  · cases answered

theorem touches_saturatingFetchAddBytes (value : Nat) :
    Touches cfg id p s (s.saturatingFetchAddBytes value) where
  pending := rfl
  nextId := rfl
  generation _ := le_rfl
  gate _ _ _ held := held
  shown tier _ _ found := .inl (by cases tier <;> exact found)

section

variable (carried : p.work.origins = [entry.origin])

include carried

/-- The entry is handed on to the next stage. -/
theorem handOn_effect (touches : Touches cfg id p s t) (same : work.origins = [entry.origin])
    (done : work.reads = false) :
    Effect cfg id p s (t.goOn id p work) :=
  touches.goOn (follows_of_origins (by simp [same, carried]) done)

theorem afterHot_effect (following : AfterHot) (free : unlocked cfg s p.key = true) :
    Effect cfg id p s
      (afterHot cfg id p entry (insertHotAtGeneration cfg s p entry) following) := by
  have touches : Touches cfg id p s (insertHotAtGeneration cfg s p entry).1 := by
    unfold insertHotAtGeneration
    split
    · refine Touches.refl.setHot p.key (some entry) fun o held => ?_
      cases held
      exact ⟨rfl, ⟨free, ‹_›⟩, by simp [carried]⟩
    · exact Touches.refl
  cases following with
  | finish => exact touches.finish
  | store =>
    simp only [afterHot]
    split
    · exact touches.finish
    · exact handOn_effect carried touches rfl rfl
  | persist =>
    simp only [afterHot]
    split
    · exact handOn_effect carried touches rfl rfl
    · exact touches.finish

theorem insertRecentWrite_effect (persist : Bool) (free : unlocked cfg s p.key = true) :
    Effect cfg id p s (insertRecentWrite cfg s id p entry persist) := by
  simp only [insertRecentWrite]
  split
  · rename_i now
    have touches : Touches cfg id p s (s.setWriteHot p.key (recentWriteEntry cfg entry)) := by
      refine Touches.refl.setWriteHot p.key _ fun o held => ?_
      unfold recentWriteEntry at held
      split at held
      · cases held
      · cases held
        exact ⟨rfl, ⟨free, now⟩, by simp [carried]⟩
    split
    · exact handOn_effect carried touches rfl rfl
    · exact touches.finish
  · exact Touches.refl.finish

theorem persistOpportunistic_effect {spawned : Bool}
    (taken : persistOpportunistic cfg s id p entry spawned choice = some next) :
    Effect cfg id p s next := by
  unfold persistOpportunistic at taken
  split at taken
  · cases taken
    exact Touches.refl.finish
  obtain ⟨checked, answered, rfl⟩ := map_eq_some_iff.mp taken
  have touches : Touches cfg id p s checked.1 := coldMarkerHasFile_touches answered
  split
  · exact touches.finish
  · exact handOn_effect carried touches (by cases spawned <;> rfl) (by cases spawned <;> rfl)

theorem reserve_effect : Effect cfg id p s (reserve cfg s id p entry choice) := by
  simp only [reserve]
  split
  · split <;> exact handOn_effect carried (touches_saturatingFetchAddBytes _) rfl rfl
  · exact Touches.refl.finish

theorem evictLru_effect : Effect cfg id p s (evictLru cfg s id p entry choice) := by
  simp only [evictLru]
  split <;> exact handOn_effect carried .refl rfl rfl

theorem evictNext_effect {toFree freed : Nat} {files : List CacheKey}
    (taken : evictNext cfg s id p entry toFree freed choice files = some next) :
    Effect cfg id p s next := by
  cases files with
  | nil =>
    cases taken
    exact handOn_effect carried .refl rfl rfl
  | cons key rest =>
    simp only [evictNext] at taken
    split at taken
    · cases taken
      exact handOn_effect carried .refl rfl rfl
    obtain ⟨-, rfl⟩ := locked_eq_some taken
    split
    · exact handOn_effect carried ((Touches.refl.removeFile key).saturatingFetchSubBytes _) rfl
        rfl
    · exact handOn_effect carried .refl rfl rfl

theorem writeTemp_effect : Effect cfg id p s (writeTemp cfg s id p entry choice) := by
  unfold writeTemp
  split
  · exact handOn_effect carried .refl rfl rfl
  · exact (Touches.refl.saturatingFetchSubBytes _).finish

theorem publish_effect (free : unlocked cfg s p.key = true) :
    Effect cfg id p s (publish cfg s id p entry choice) := by
  simp only [publish]
  split
  · rename_i published
    exact handOn_effect carried ((Touches.refl.putFile p.key _ rfl ⟨free, published.1⟩
      (by simp [carried])).saturatingFetchSubBytes _) rfl rfl
  · exact (Touches.refl.saturatingFetchSubBytes _).finish

end

theorem insertColdMarkerIfCurrent_effect (shape : p.work = .marker origin)
    (free : unlocked cfg s p.key = true) :
    Effect cfg id p s (insertColdMarkerIfCurrent cfg s id p origin) := by
  unfold insertColdMarkerIfCurrent
  split
  · refine (Touches.refl.setCold p.key _ fun o held => ?_).finish
    cases held
    exact ⟨rfl, ⟨free, ‹_›⟩, by simp [shape, Work.origins]⟩
  · exact Touches.refl.finish

/-- What a load hands on is the file that was read. -/
theorem afterLoad_follows {file : Entry} {promote : Bool} {loaded : Option (List UInt8)}
    {damaged miss : Option Work} (read : s.files.lookup p.key = some file)
    (still : p.work.reads = true) (bad : ∀ w ∈ damaged, Follows s p w)
    (absent : ∀ w ∈ miss, Follows s p w) :
    ∀ w ∈ afterLoad file.origin promote loaded damaged miss, Follows s p w := by
  have shown : visible s .disk p.key = some file.origin := by simp [visible, read]
  intro w mem
  unfold afterLoad at mem
  split at mem
  · exact bad w mem
  split at mem
  · exact absent w mem
  cases mem
  refine ⟨fun o carried => .inr ⟨still, ?_⟩, nofun⟩
  cases promote <;> simp_all [Work.origins]

theorem lookup_effect {range : Option (Nat × Nat)} (shape : p.work = .lookup range) :
    Effect cfg id p s (continueWith s id p
      (if choice.proceed ∧ choice.io then lookupWork cfg s p choice range else none)) := by
  have still : p.work.reads = true := by rw [shape]; rfl
  have plain : Follows s p (.discard none) := follows_of_origins (by simp [Work.origins]) rfl
  refine Touches.refl.continueWith fun w mem => ?_
  split at mem
  swap
  · cases mem
  cases read : s.files.lookup p.key with
  | none => cases range <;> simp [lookupWork, read] at mem
  | some file =>
    have shown : visible s .disk p.key = some file.origin := by simp [visible, read]
    cases range with
    | none =>
      simp only [lookupWork, read] at mem
      exact afterLoad_follows read still (by simpa using plain) (by simp) w mem
    | some window =>
      simp only [lookupWork, read] at mem
      split at mem
      · cases mem
        exact plain
      split at mem
      · cases mem
      · split at mem <;> cases mem <;>
          exact ⟨fun o carried => .inr ⟨still, by simp_all [Work.origins]⟩, fun _ => still⟩

theorem promote_effect (shape : p.work = .promote origin) :
    Effect cfg id p s (s.goOn id p (promoteWork cfg s p origin choice)) := by
  have still : p.work.reads = true := by rw [shape]; rfl
  have carried : p.work.origins = [origin] := by rw [shape]; rfl
  have plain : Follows s p (.commit origin none) :=
    follows_of_origins (by rw [carried]; exact List.Subset.refl _) rfl
  have bad : Follows s p (.discard (some origin)) :=
    follows_of_origins (by rw [carried]; exact List.Subset.refl _) rfl
  apply Touches.refl.goOn
  simp only [promoteWork]
  split
  · rename_i file _ read
    split
    · cases outcome : afterLoad file.origin true
          (load cfg.crc32c cfg.integrityMode file.bytes) (some (.discard (some origin)))
          (some (.commit origin none)) with
      | none => exact plain
      | some w =>
        exact afterLoad_follows read still (by simpa using bad) (by simpa using plain) w outcome
    · exact plain
  · exact plain

theorem discard_effect {commit : Option Nat} (shape : p.work = .discard commit) :
    Effect cfg id p s (discard s id p commit choice) := by
  have touches : Touches cfg id p s (if choice.io then s.removeFile p.key else s) := by
    split
    · exact Touches.refl.removeFile p.key
    · exact .refl
  refine touches.continueWith fun w mem => ?_
  obtain ⟨origin, rfl, rfl⟩ := map_eq_some_iff.mp mem
  exact follows_of_origins (by simp [shape, Work.origins]) rfl

theorem commitDiskHit_effect {promote : Option Entry} (shape : p.work = .commit origin promote)
    (free : unlocked cfg s p.key = true) :
    Effect cfg id p s (commitDiskHit cfg s id p origin promote) := by
  unfold commitDiskHit
  split
  · rename_i now
    have marked : Touches cfg id p s (s.setCold p.key (some origin)) := by
      refine Touches.refl.setCold p.key _ fun o held => ?_
      cases held
      exact ⟨rfl, ⟨free, now⟩, by simp [shape, Work.origins]⟩
    cases promote with
    | none => exact marked.finish
    | some entry =>
      refine (marked.setHot p.key _ fun o held => ?_).finish
      cases held
      exact ⟨rfl, ⟨free, now⟩, by simp [shape, Work.origins]⟩
  · exact Touches.refl.finish

theorem touches_lock (free : unlocked cfg s p.key = true) :
    Touches cfg id p s (s.lock id (cfg.shard p.key)) where
  pending := rfl
  nextId := rfl
  generation shard := by
    simp only [State.lock, update_apply]
    split
    · rename_i here
      rw [here]
      omega
    · exact le_rfl
  gate shard holder _ held := by
    have elsewhere : shard ≠ cfg.shard p.key := by
      rintro rfl
      rw [unlocked, held] at free
      cases free
    simp only [State.lock, Function.update_of_ne elsewhere]
    exact held
  shown tier _ _ found := .inl (by cases tier <;> exact found)

theorem removeFileLocked_touches (key : CacheKey) :
    Touches cfg id p s (removeFileLocked s key choice) := by
  unfold removeFileLocked
  split
  · exact (Touches.refl.removeFile key).saturatingFetchSubBytes _
  · exact .refl

theorem removeStep_effect {stage : RemoveStage}
    (taken : removeStep cfg s id p choice stage = some next) : Effect cfg id p s next := by
  have goes : ∀ {t : State} (stage : RemoveStage), Touches cfg id p s t →
      Effect cfg id p s (t.goOn id p (.remove stage)) :=
    fun stage touches => touches.goOn (follows_of_origins (by simp [Work.origins]) rfl)
  cases stage with
  | gate =>
    obtain ⟨free, rfl⟩ := locked_eq_some taken
    exact goes _ (touches_lock free)
  | writeHot =>
    cases taken
    exact goes _ (Touches.refl.setWriteHot p.key none (by simp))
  | hot =>
    cases taken
    exact goes _ (Touches.refl.setHot p.key none (by simp))
  | cold =>
    cases taken
    exact goes _ (Touches.refl.setCold p.key none (by simp))
  | file =>
    cases taken
    exact (removeFileLocked_touches p.key).finish

theorem advance_effect (taken : advance cfg s id p choice = some next) :
    Effect cfg id p s next := by
  unfold advance at taken
  split at taken
  case h_1 shape =>
    obtain ⟨free, rfl⟩ := locked_eq_some taken
    exact afterHot_effect (shape ▸ rfl) _ free
  case h_2 shape =>
    obtain ⟨free, rfl⟩ := locked_eq_some taken
    exact insertRecentWrite_effect (shape ▸ rfl) _ free
  case h_3 shape => exact persistOpportunistic_effect (shape ▸ rfl) taken
  case h_4 shape =>
    cases taken
    exact reserve_effect (shape ▸ rfl)
  case h_5 shape =>
    cases taken
    exact evictLru_effect (shape ▸ rfl)
  case h_6 shape => exact evictNext_effect (shape ▸ rfl) taken
  case h_7 shape =>
    cases taken
    exact writeTemp_effect (shape ▸ rfl)
  case h_8 shape =>
    obtain ⟨free, rfl⟩ := locked_eq_some taken
    exact publish_effect (shape ▸ rfl) free
  case h_9 shape =>
    obtain ⟨free, rfl⟩ := locked_eq_some taken
    exact insertColdMarkerIfCurrent_effect shape free
  case h_10 shape =>
    cases taken
    exact lookup_effect shape
  case h_11 shape =>
    cases taken
    exact promote_effect shape
  case h_12 shape =>
    cases taken
    exact discard_effect shape
  case h_13 shape =>
    obtain ⟨free, rfl⟩ := locked_eq_some taken
    exact commitDiskHit_effect shape free
  case h_14 => exact removeStep_effect taken

end Steps

/-- The operations after a step: those before, or what follows the one that took it. -/
theorem Effect.pending (effect : Effect cfg id p s next)
    (found : next.pending.lookup other = some q) : s.pending.lookup other = some q ∨
      other = id ∧ ∃ work, q = { p with work := work } ∧ Follows s p work := by
  by_cases same : other = id
  · cases same
    exact .inr ⟨rfl, effect.own q found⟩
  · rw [effect.others other same] at found
    exact .inl found

/-! ### Operations are numbered -/

/-- Operation numbers are not given again, and generations were reached. -/
structure Numbered (cfg : Config) (s : State) : Prop where
  below : ∀ id p, s.pending.lookup id = some p → id < s.nextId
  reached : ∀ id p, s.pending.lookup id = some p → p.generation ≤ s.generation (cfg.shard p.key)

theorem Numbered.fresh (numbered : Numbered cfg s) : s.pending.lookup s.nextId = none := by
  cases found : s.pending.lookup s.nextId with
  | none => rfl
  | some p => exact absurd (numbered.below _ p found) (lt_irrefl _)

theorem pending_beginCall {request : Request}
    (found : (beginCall cfg s key request).pending.lookup other = some q) :
    s.pending.lookup other = some q ∨ other = s.nextId ∧
      ∃ work, firstWork cfg s.nextId request = some work ∧
        q = ⟨key, s.generation (cfg.shard key), work⟩ := by
  simp only [beginCall] at found
  split at found
  · exact .inl found
  rename_i work first
  rcases Keys.mem_insert found with ⟨same, rfl⟩ | ⟨_, old⟩
  · exact .inr ⟨same, work, first, rfl⟩
  · exact .inl old

theorem beginCall_frame (cfg : Config) (s : State) (key : CacheKey) (request : Request) :
    (beginCall cfg s key request).nextId = s.nextId + 1 ∧
    (beginCall cfg s key request).generation = s.generation ∧
    (beginCall cfg s key request).gate = s.gate ∧
    visible (beginCall cfg s key request) = visible s := by
  simp only [beginCall]
  split <;> exact ⟨rfl, rfl, rfl, by funext tier key; cases tier <;> rfl⟩

/-- Events outside of operations: they clear a tier, replace the bytes of a file, or end an
operation. -/
theorem step_cases (taken : step cfg s event = some next) :
    (∃ key request, event = .begin key request ∧ next = beginCall cfg s key request) ∨
    (∃ id p choice, event = .step id choice ∧ s.pending.lookup id = some p ∧
      advance cfg s id p choice = some next) ∨
    (∃ id p, s.pending.lookup id = some p ∧ Effect cfg id p s next ∧
      next.pending = s.pending.erase id) ∨
    (next.pending = s.pending ∧ ∀ id p, Touches cfg id p s next) := by
  cases event with
  | begin key request =>
    cases taken
    exact .inl ⟨key, request, rfl, rfl⟩
  | step id choice =>
    obtain ⟨p, found, advanced⟩ := bind_eq_some_iff.mp taken
    exact .inr (.inl ⟨id, p, choice, rfl, found, advanced⟩)
  | cancel id =>
    obtain ⟨p, found, ended⟩ := bind_eq_some_iff.mp taken
    cases (ite_none_left_eq_some.mp ended).2
    exact .inr (.inr (.inl ⟨id, p, found, Touches.refl.finish, rfl⟩))
  | damage key bytes =>
    obtain ⟨file, present, replaced⟩ := bind_eq_some_iff.mp taken
    split at replaced
    swap
    · cases replaced
    cases replaced
    have shown : visible (s.putFile key { file with bytes := bytes }) = visible s := by
      funext tier' key'
      rw [visible_putFile]
      split
      · rename_i here
        rw [here.1, here.2, visible, present]
        rfl
      · rfl
    refine .inr (.inr (.inr ⟨rfl, fun id p => ?_⟩))
    exact ⟨rfl, rfl, fun _ => le_rfl, fun _ _ _ held => held, fun tier key origin found => .inl
      (by rwa [shown] at found)⟩
  | evictHot key =>
    cases taken
    exact .inr (.inr (.inr ⟨rfl, fun id p => Touches.refl.setHot key none (by simp)⟩))
  | evictWriteHot key =>
    cases taken
    exact .inr (.inr (.inr ⟨rfl, fun id p =>
      Touches.refl.setWriteHot key none (by simp)⟩))
  | evictCold key =>
    cases taken
    exact .inr (.inr (.inr ⟨rfl, fun id p => Touches.refl.setCold key none (by simp)⟩))

theorem Numbered.effect (numbered : Numbered cfg s) (found : s.pending.lookup id = some p)
    (effect : Effect cfg id p s next) : Numbered cfg next where
  below other q held := by
    rw [effect.nextId]
    rcases effect.pending held with before | ⟨rfl, -⟩
    · exact numbered.below other q before
    · exact numbered.below other p found
  reached other q held := by
    rcases effect.pending held with before | ⟨rfl, work, rfl, -⟩
    · exact (numbered.reached other q before).trans (effect.generation _)
    · exact (numbered.reached other p found).trans (effect.generation _)

theorem Numbered.step (numbered : Numbered cfg s) (taken : step cfg s event = some next) :
    Numbered cfg next := by
  rcases step_cases taken with ⟨key, request, -, rfl⟩ | ⟨id, p, choice, -, found, advanced⟩ |
    ⟨id, p, found, effect, -⟩ | ⟨same, touches⟩
  · obtain ⟨counted, generations, -, -⟩ := beginCall_frame cfg s key request
    refine ⟨fun other q held => ?_, fun other q held => ?_⟩
    · rw [counted]
      rcases pending_beginCall held with before | ⟨rfl, -⟩
      · exact (numbered.below other q before).trans (Nat.lt_succ_self _)
      · exact Nat.lt_succ_self _
    rw [generations]
    rcases pending_beginCall held with before | ⟨-, work, -, rfl⟩
    · exact numbered.reached other q before
    · exact le_rfl
  · exact numbered.effect found (advance_effect advanced)
  · exact numbered.effect found effect
  · have frame := touches 0 ⟨"", 0, .lookup none⟩
    refine ⟨fun other q held => ?_, fun other q held => ?_⟩
    · rw [frame.nextId]
      exact numbered.below other q (same ▸ held)
    · exact (numbered.reached other q (same ▸ held)).trans (frame.generation _)

theorem numbered_initial (cfg : Config) (found : List (CacheKey × List UInt8)) :
    Numbered cfg (initial found) where
  below _ _ held := by cases held
  reached _ _ held := by cases held

end BrewFs.Chunk.ChunksCache
