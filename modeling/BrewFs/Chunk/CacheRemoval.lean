import BrewFs.Chunk.CacheEffects

/-! A removal and the operations that began before it. -/

namespace BrewFs.Chunk.ChunksCache

open Option ChunksCache
open Run (exec)

variable {cfg : Config} {s t next : State} {id n : Nat} {p q : Pending} {event : Event}
  {key : CacheKey} {since generation : Nat} {request : Request} {choice : Choice} {work : Work}

/-- A removal of the key holds the gate of its shard. -/
def removing (cfg : Config) (s : State) (key : CacheKey) : Bool :=
  ((s.gate (cfg.shard key)).bind fun id => s.pending.lookup id).any fun p => p.key = key

/-- The call looks for the file. -/
def Request.readsDisk : Request → Bool
  | .get | .getRangeInto _ _ => true
  | _ => false

/-- No lookup reads its shard's generation while its key is being removed. -/
def Undisturbed (cfg : Config) (s : State) : Event → Prop
  | .begin key request => request.readsDisk = true → removing cfg s key = false
  | _ => True

instance (s : State) (event : Event) : Decidable (Undisturbed cfg s event) := by
  cases event <;> unfold Undisturbed <;> infer_instance

/-- The tiers a removal has cleared. -/
def RemoveStage.cleared : RemoveStage → List Tier
  | .gate | .writeHot => []
  | .hot => [.writeHot]
  | .cold => [.writeHot, .hot]
  | .file => [.writeHot, .hot, .cold]

/-! ### While the key is removed -/

/-- The operation brings back nothing from before `since`: its generation is over, or all it carries
is newer. -/
def Harmless (since generation : Nat) (q : Pending) : Prop :=
  q.generation < generation ∨ ∀ origin ∈ q.work.origins, since ≤ origin

/-- While an older file may be there, the operation must not read it either. -/
def Unable (since generation : Nat) (q : Pending) : Prop := q.generation < generation ∨
    q.work.reads = false ∧ ∀ origin ∈ q.work.origins, since ≤ origin

/-- The removal `id` of `key` holds the gate. -/
structure Removing (cfg : Config) (key : CacheKey) (since generation id : Nat) (s : State) :
    Prop where
  generation_le : generation ≤ s.generation (cfg.shard key)
  since_le : since ≤ s.nextId
  pending : ∀ other q, s.pending.lookup other = some q → q.key = key → Unable since generation q
  gate : s.gate (cfg.shard key) = some id
  holder : ∃ p stage, s.pending.lookup id = some p ∧ p.key = key ∧ p.work = .remove stage ∧
    stage ≠ .gate ∧ ∀ tier ∈ stage.cleared, visible s tier key = none

/-- The removal holds the gate or is over. -/
def RemovingOrOver (cfg : Config) (key : CacheKey) (since generation id : Nat) (s : State) : Prop :=
  (id < s.nextId ∧ s.pending.lookup id = none) ∨ Removing cfg key since generation id s

theorem Unable.effect (unable : Unable since generation p)
    (own : ∃ work, q = { p with work := work } ∧ Follows s p work) : Unable since generation q := by
  obtain ⟨work, rfl, follows⟩ := own
  refine unable.imp id fun newer => ⟨?_, fun origin mem => ?_⟩
  · rw [← Bool.not_eq_true]
    intro still
    have := follows.2 still
    rw [newer.1] at this
    cases this
  rcases follows.1 origin mem with carried | ⟨still, -⟩
  · exact newer.2 origin carried
  · rw [newer.1] at still
    cases still

theorem firstWork_carries (first : firstWork cfg n request = some work) :
    work.reads = request.readsDisk ∧ ∀ origin ∈ work.origins, origin = n := by
  cases request <;> simp only [firstWork] at first
  case get => split at first <;> cases first; exact ⟨rfl, by simp [Work.origins]⟩
  case getRangeInto => split at first <;> cases first; exact ⟨rfl, by simp [Work.origins]⟩
  all_goals
    cases first
    exact ⟨rfl, by simp [Work.origins]⟩

namespace Removing

variable (held : Removing cfg key since generation id s)

include held

theorem removing_eq : removing cfg s key = true := by
  obtain ⟨p, stage, found, own, -⟩ := held.holder
  simp [removing, held.gate, found, own]

/-- Nothing is published for the key. -/
theorem not_current (own : q.key = key) : ¬ Current cfg s q := by
  rintro ⟨free, -⟩
  rw [unlocked, own, held.gate] at free
  cases free

theorem beginCall (numbered : Numbered cfg s) {key' : CacheKey}
    (undisturbed : Undisturbed cfg s (.begin key' request)) :
    Removing cfg key since generation id (beginCall cfg s key' request) := by
  obtain ⟨counted, generations, gates, shown⟩ := beginCall_frame cfg s key' request
  obtain ⟨p, stage, found, own, shape, past, cleared⟩ := held.holder
  have kept : (ChunksCache.beginCall cfg s key' request).pending.lookup id = some p := by
    have older : id ≠ s.nextId := (numbered.below id p found).ne
    simp only [ChunksCache.beginCall]
    split
    · exact found
    · rw [State.goOn, Keys.lookup_insert_eq, if_neg older]
      exact found
  refine ⟨?_, ?_, fun other q begun ofKey => ?_, ?_, p, stage, kept, own, shape, past, ?_⟩
  · rw [generations]
    exact held.generation_le
  · rw [counted]
    exact held.since_le.trans (Nat.le_succ _)
  · rcases pending_beginCall begun with before | ⟨rfl, work, first, rfl⟩
    · exact held.pending other q before ofKey
    -- a lookup would have begun while the key is removed
    refine .inr ⟨?_, fun origin mem => ?_⟩
    · rw [(firstWork_carries first).1, ← Bool.not_eq_true]
      intro reads
      have quiet := undisturbed reads
      rw [show key' = key from ofKey, held.removing_eq] at quiet
      cases quiet
    · rw [(firstWork_carries first).2 origin mem]
      exact held.since_le
  · rw [gates]
    exact held.gate
  · rw [shown]
    exact cleared

theorem unable (found : s.pending.lookup n = some p) (effect : Effect cfg n p s next) (other : Nat)
    (q : Pending) (after : next.pending.lookup other = some q) (ofKey : q.key = key) :
    Unable since generation q := by
  rcases effect.pending after with before | ⟨-, follows⟩
  · exact held.pending other q before ofKey
  have ofKey' : p.key = key := by
    obtain ⟨work, rfl, -⟩ := follows
    exact ofKey
  exact (held.pending n p found ofKey').effect follows

theorem clear {tier : Tier} (cleared : visible s tier key = none)
    (shown : ∀ origin, visible next tier key = some origin → visible s tier key = some origin ∨
      key = q.key ∧ Current cfg s q ∧ origin ∈ q.work.origins) : visible next tier key = none := by
  rw [eq_none_iff_forall_ne_some]
  intro origin after
  rcases shown origin after with before | ⟨ofKey, published, -⟩
  · rw [cleared] at before
    cases before
  · exact held.not_current ofKey.symm published

theorem other {other : Nat} (differs : id ≠ other) (found : s.pending.lookup other = some p)
    (effect : Effect cfg other p s next) : Removing cfg key since generation id next := by
  obtain ⟨r, stage, waiting, own, shape, past, cleared⟩ := held.holder
  refine ⟨held.generation_le.trans (effect.generation _), ?_, held.unable found effect,
    effect.gate _ id differs held.gate, r, stage, ?_, own, shape, past, fun tier mem => ?_⟩
  · rw [effect.nextId]
    exact held.since_le
  · rw [effect.others id differs]
    exact waiting
  · exact held.clear (cleared tier mem) (effect.shown tier key)

/-- A change that no operation makes. -/
theorem touched (same : next.pending = s.pending) (touches : ∀ id p, Touches cfg id p s next) :
    Removing cfg key since generation id next := by
  obtain ⟨r, stage, waiting, own, shape, past, cleared⟩ := held.holder
  have frame := touches (id + 1) r
  refine ⟨held.generation_le.trans (frame.generation _), ?_, ?_,
    frame.gate _ id (Nat.lt_succ_self id).ne held.gate, r, stage, ?_, own, shape, past,
    fun tier mem => ?_⟩
  · rw [frame.nextId]
    exact held.since_le
  · rw [same]
    exact held.pending
  · rw [same]
    exact waiting
  · exact held.clear (cleared tier mem) (frame.shown tier key)

/-- A step of the removal itself clears the next tier, or ends it. -/
theorem itself (numbered : Numbered cfg s) (found : s.pending.lookup id = some p)
    (advanced : advance cfg s id p choice = some next) :
    RemovingOrOver cfg key since generation id next := by
  obtain ⟨r, stage, waiting, own, shape, past, cleared⟩ := held.holder
  rw [found] at waiting
  cases waiting
  have effect := advance_effect advanced
  have goes : ∀ (u : State) (stage : RemoveStage), next = u.goOn id p (.remove stage) →
      u.gate = s.gate → stage ≠ .gate → (∀ tier ∈ stage.cleared, visible u tier key = none) →
      Removing cfg key since generation id next := by
    rintro u stage rfl gates past cleared
    refine ⟨held.generation_le.trans (effect.generation _), effect.nextId ▸ held.since_le,
      held.unable found effect, ?_, { p with work := .remove stage }, stage, ?_, own, rfl, past,
      fun tier mem => ?_⟩
    · exact (congrFun gates _).trans held.gate
    · rw [State.goOn, Keys.lookup_insert_eq, if_pos rfl]
    · exact (by cases tier <;> rfl : visible (u.goOn id p (.remove stage)) tier key =
        visible u tier key).trans (cleared tier mem)
  simp only [advance, shape] at advanced
  cases stage with
  | gate => exact absurd rfl past
  | writeHot =>
    cases advanced
    exact .inr (goes _ .hot rfl rfl (by simp)
      (by simp [RemoveStage.cleared, visible_setWriteHot, own]))
  | hot =>
    cases advanced
    refine .inr (goes _ .cold rfl rfl (by simp) ?_)
    simpa [RemoveStage.cleared, visible_setHot, own] using cleared
  | cold =>
    cases advanced
    refine .inr (goes _ .file rfl rfl (by simp) ?_)
    simpa [RemoveStage.cleared, visible_setCold, own] using cleared
  | file =>
    cases advanced
    refine .inl ⟨effect.nextId ▸ numbered.below id p found, ?_⟩
    rw [State.finish, Keys.lookup_erase_eq, if_pos rfl]

end Removing

theorem RemovingOrOver.step (numbered : Numbered cfg s)
    (held : RemovingOrOver cfg key since generation id s)
    (undisturbed : Undisturbed cfg s event) (taken : step cfg s event = some next)
    : RemovingOrOver cfg key since generation id next := by
  rcases held with ⟨old, ended⟩ | held
  · -- the number of a removal that is over is not given again
    left
    have differs : ∀ {id' p}, s.pending.lookup id' = some p → id ≠ id' := by
      rintro id' p found rfl
      rw [ended] at found
      cases found
    rcases step_cases taken with ⟨key', request, -, rfl⟩ | ⟨id', p, choice, -, found, advanced⟩ |
      ⟨id', p, found, effect, -⟩ | ⟨same, touches⟩
    · obtain ⟨counted, -⟩ := beginCall_frame cfg s key' request
      refine ⟨counted ▸ old.trans (Nat.lt_succ_self _), ?_⟩
      rw [eq_none_iff_forall_ne_some]
      intro q begun
      rcases pending_beginCall begun with before | ⟨rfl, -⟩
      · rw [ended] at before
        cases before
      · exact lt_irrefl _ old
    · have effect := advance_effect advanced
      exact ⟨effect.nextId ▸ old, (effect.others id (differs found)).trans ended⟩
    · exact ⟨effect.nextId ▸ old, (effect.others id (differs found)).trans ended⟩
    · exact ⟨(touches 0 ⟨key, 0, .lookup none⟩).nextId ▸ old, same ▸ ended⟩
  · rcases step_cases taken with ⟨key', request, rfl, rfl⟩ | ⟨id', p, choice, -, found, advanced⟩ |
      ⟨id', p, found, effect, erased⟩ | ⟨same, touches⟩
    · exact .inr (held.beginCall numbered undisturbed)
    · by_cases own : id = id'
      · cases own
        exact held.itself numbered found advanced
      · exact .inr (held.other own found (advance_effect advanced))
    · by_cases own : id = id'
      · cases own
        refine .inl ⟨effect.nextId ▸ numbered.below id p found, ?_⟩
        rw [erased, Keys.lookup_erase_eq, if_pos rfl]
      · exact .inr (held.other own found effect)
    · exact .inr (held.touched same touches)

/-- The removal's first step: every operation of the key so far is of an older generation. -/
theorem removing_of_gate (numbered : Numbered cfg s)
    (waiting : s.pending.lookup id = some ⟨key, generation, .remove .gate⟩)
    (taken : step cfg s (.step id choice) = some next) :
    Removing cfg key s.nextId (s.generation (cfg.shard key) + 1) id next := by
  simp only [step, waiting] at taken
  obtain ⟨-, rfl⟩ := locked_eq_some taken
  have old := numbered.reached id _ waiting
  refine ⟨?_, le_rfl, fun other q after ofKey => .inl ?_, ?_, ⟨key, generation, .remove .writeHot⟩,
    .writeHot, ?_, rfl, rfl, by simp, by simp [RemoveStage.cleared]⟩
  · simp [State.goOn, State.lock]
  · rcases Keys.mem_insert after with ⟨_, rfl⟩ | ⟨_, before⟩
    · exact Nat.lt_succ_of_le old
    · rw [← ofKey]
      exact Nat.lt_succ_of_le (numbered.reached other q before)
  · simp [State.goOn, State.lock]
  · rw [State.goOn, Keys.lookup_insert_eq, if_pos rfl]

/-! ### After the removal -/

/-- Only values newer than `since` are there or can come. -/
structure Removed (cfg : Config) (key : CacheKey) (since generation : Nat) (s : State) :
    Prop where
  generation_le : generation ≤ s.generation (cfg.shard key)
  since_le : since ≤ s.nextId
  pending : ∀ other q, s.pending.lookup other = some q → q.key = key → Harmless since generation q
  shown : ∀ tier origin, visible s tier key = some origin → since ≤ origin

namespace Removed

variable (removed : Removed cfg key since generation s)

include removed

theorem effect (found : s.pending.lookup id = some p) (effect : Effect cfg id p s next) :
    Removed cfg key since generation next where
  generation_le := removed.generation_le.trans (effect.generation _)
  since_le := effect.nextId ▸ removed.since_le
  pending other q after ofKey := by
    rcases effect.pending after with before | ⟨-, work, rfl, follows⟩
    · exact removed.pending other q before ofKey
    refine (removed.pending id p found ofKey).imp (fun older => older) fun newer origin mem => ?_
    rcases follows.1 origin mem with carried | ⟨-, read⟩
    · exact newer origin carried
    · rw [show p.key = key from ofKey] at read
      exact removed.shown .disk origin read
  shown tier origin after := by
    rcases effect.shown tier key origin after with before | ⟨rfl, ⟨-, now⟩, carried⟩
    · exact removed.shown tier origin before
    -- what is published now is of the present generation
    rcases removed.pending id p found rfl with older | newer
    · have same := of_decide_eq_true now
      have reached := removed.generation_le
      omega
    · exact newer origin carried

theorem step (taken : step cfg s event = some next) :
    Removed cfg key since generation next := by
  rcases step_cases taken with ⟨key', request, -, rfl⟩ | ⟨id, p, choice, -, found, advanced⟩ |
    ⟨id, p, found, effect, -⟩ | ⟨same, touches⟩
  · obtain ⟨counted, generations, -, shown⟩ := beginCall_frame cfg s key' request
    refine ⟨generations ▸ removed.generation_le, ?_, fun other q begun ofKey => ?_,
      shown ▸ removed.shown⟩
    · rw [counted]
      exact removed.since_le.trans (Nat.le_succ _)
    rcases pending_beginCall begun with before | ⟨-, work, first, rfl⟩
    · exact removed.pending other q before ofKey
    refine .inr fun origin mem => ?_
    rw [(firstWork_carries first).2 origin mem]
    exact removed.since_le
  · exact removed.effect found (advance_effect advanced)
  · exact removed.effect found effect
  · have frame := touches 0 ⟨key, 0, .lookup none⟩
    refine ⟨removed.generation_le.trans (frame.generation _), frame.nextId ▸ removed.since_le,
      same ▸ removed.pending, fun tier origin after => ?_⟩
    rcases frame.shown tier key origin after with before | ⟨-, -, carried⟩
    · exact removed.shown tier origin before
    · cases carried

end Removed

theorem Removing.removed (held : Removing cfg key since generation id s)
    (clearing : s.pending.lookup id = some p) (last : p.work = .remove .file)
    (deleted : s.files.lookup key = none ∨ choice.stat = true ∧ choice.io = true)
    (taken : step cfg s (.step id choice) = some next) :
    Removed cfg key since generation next := by
  obtain ⟨r, stage, waiting, own, shape, -, cleared⟩ := held.holder
  rw [clearing] at waiting
  cases waiting
  rw [last] at shape
  cases shape
  simp only [step, clearing, bind_some] at taken
  have effect := advance_effect taken
  refine ⟨held.generation_le.trans (effect.generation _), effect.nextId ▸ held.since_le,
    fun other q after ofKey => ?_, fun tier origin after => ?_⟩
  · exact (held.unable clearing effect other q after ofKey).imp (fun older => older) And.right
  by_cases memory : tier ∈ RemoveStage.file.cleared
  · rw [held.clear (cleared tier memory) (effect.shown tier key)] at after
    cases after
  have disk : tier = .disk := by cases tier <;> simp_all [RemoveStage.cleared]
  cases disk
  simp only [advance, last, removeStep, Option.some.injEq] at taken
  have gone : (removeFileLocked s p.key choice).files.lookup key = none := by
    rw [own, removeFileLocked]
    split
    · exact AList.lookup_erase key s.files
    rename_i kept
    rcases deleted with absent | succeeded
    · exact absent
    cases absent : s.files.lookup key with
    | none => rfl
    | some file => exact absurd ⟨by rw [absent]; rfl, succeeded⟩ kept
  rw [← taken] at after
  simp only [visible, State.finish, gone] at after
  cases after

/-- After a removal, whatever a tier holds for the key was brought by an operation that began after
the removal took its gate, provided no lookup of the key began between then and the deletion of the
file. -/
theorem removal_is_final (cfg : Config) {found : List (CacheKey × List UInt8)}
    {before during after : List Event} {s opened t closed final : State} {id generation : Nat}
    {key : CacheKey} {first last : Choice} {p : Pending}
    (reached : exec (step cfg) (initial found) before = some s)
    (waiting : s.pending.lookup id = some ⟨key, generation, .remove .gate⟩)
    (opens : step cfg s (.step id first) = some opened)
    (undisturbed : Run.Along (step cfg) (Undisturbed cfg) opened during)
    (clears : exec (step cfg) opened during = some t)
    (clearing : t.pending.lookup id = some p) (lastStage : p.work = .remove .file)
    (deleted : t.files.lookup key = none ∨ last.stat = true ∧ last.io = true)
    (closes : step cfg t (.step id last) = some closed)
    (later : exec (step cfg) closed after = some final) {tier : Tier} {origin : Nat}
    (shown : visible final tier key = some origin) : s.nextId ≤ origin := by
  have numbered : Numbered cfg s :=
    Run.invariant (fun _ _ _ held taken => held.step taken) (numbered_initial cfg found) reached
  have held := removing_of_gate numbered waiting opens
  obtain ⟨-, held | held⟩ := @Run.invariant_along _ _ _ _
    (fun s' => Numbered cfg s' ∧ RemovingOrOver cfg key s.nextId
      (s.generation (cfg.shard key) + 1) id s')
    (fun _ _ _ held undisturbed taken =>
      ⟨held.1.step taken, held.2.step held.1 undisturbed taken⟩) _ _ _
    ⟨numbered.step opens, .inr held⟩ undisturbed clears
  · rw [held.2] at clearing
    cases clearing
  have removed := held.removed clearing lastStage deleted closes
  exact (Run.invariant (fun _ _ _ held taken => Removed.step held taken) removed later).shown
    tier origin shown

/-- A cache without checksums. -/
def plainConfig : Config where
  crc32c _ := 0
  integrityMode := .none
  maxDiskBytes := 100
  maxWriteHotBytes := 100
  shard key := key.length

/-- A lookup and a store from before the removal come too late; a later insert is kept. -/
theorem removal_is_final_two_overtaken : ∃ s closed final,
      exec (step plainConfig) (initial [("k", [7])])
        [.begin "k" .get, .step 1 {}, .begin "k" (.storeToDisk [8]), .step 2 {}, .step 2 {},
         .begin "k" .remove] = some s ∧
      exec (step plainConfig) closed [.step 1 {}, .step 2 {}, .step 4 {}] = some final ∧
      visible final .hot "k" = some 4 ∧
      ∀ tier origin, visible final tier "k" = some origin → s.nextId ≤ origin := by
  obtain ⟨s, opened, t, closed, final, reached, opens, clears, closes, later, waiting, clearing,
      kept, undisturbed⟩ : ∃ s opened t closed final,
      exec (step plainConfig) (initial [("k", [7])]) [.begin "k" .get, .step 1 {},
        .begin "k" (.storeToDisk [8]), .step 2 {}, .step 2 {}, .begin "k" .remove] = some s ∧
      step plainConfig s (.step 3 {}) = some opened ∧
      exec (step plainConfig) opened (.begin "k" (.insert [9]) :: List.replicate 3 (.step 3 {})) =
      some t ∧
      step plainConfig t (.step 3 {}) = some closed ∧
      exec (step plainConfig) closed [.step 1 {}, .step 2 {}, .step 4 {}] = some final ∧
      s.pending.lookup 3 = some ⟨"k", 0, .remove .gate⟩ ∧
      t.pending.lookup 3 = some ⟨"k", 0, .remove .file⟩ ∧ visible final .hot "k" = some 4 ∧
      Run.Along (step plainConfig) (Undisturbed plainConfig) opened
        (.begin "k" (.insert [9]) :: List.replicate 3 (.step 3 {})) :=
    ⟨_, _, _, _, _, rfl, rfl, rfl, rfl, rfl, rfl, rfl, rfl, by decide +kernel⟩
  exact ⟨s, closed, final, reached, later, kept, fun _ _ =>
    removal_is_final plainConfig reached waiting
    opens undisturbed clears clearing rfl (.inr ⟨rfl, rfl⟩) closes later⟩

/-- A lookup that begins once the removal has advanced the generation reads the file before it is
deleted and promotes it afterwards: the earlier run's file is back in memory without any insert. -/
theorem removed_value_promoted : ∃ final, exec (step plainConfig) (initial [("k", [7])])
        [.begin "k" .remove, .step 1 {}, .begin "k" .get, .step 2 {},
         .step 1 {}, .step 1 {}, .step 1 {}, .step 1 {}, .step 2 {}] = some final ∧
      final.pending.keys = [] ∧ final.files.keys = [] ∧ final.hot "k" = some ⟨[7], 0⟩ :=
  Run.reaches (by decide +kernel)

end BrewFs.Chunk.ChunksCache
