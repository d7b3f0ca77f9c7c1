import BrewFs.Chunk.CacheEffects

/-! The counter of the disk cache against its files and the stores that are under way. -/

namespace BrewFs.Chunk.ChunksCache

open CacheIntegrity Option ChunksCache

variable {cfg : Config} {s t : State} {id origin : Nat} {p : Pending} {work : Work}
  {choice : Choice} {key : CacheKey}

/-- The bytes reserved by the stores that are under way. -/
def reserved (cfg : Config) (s : State) : Nat :=
  Keys.total (fun p : Pending => p.work.reservation cfg) s.pending

/-- The counter is the size of the published files and the reservations. -/
def Balanced (cfg : Config) (s : State) : Prop :=
  s.bytesUsed = fileTotal s.files + reserved cfg s

instance (s : State) : Decidable (Balanced cfg s) := inferInstanceAs (Decidable (_ = _))

/-- The load a lookup makes passes its checks. -/
def passes (cfg : Config) (range : Option (Nat × Nat)) (bytes : List UInt8) : Bool :=
  match range with
  | none => (load cfg.crc32c cfg.integrityMode bytes).isSome
  | some (offset, len) =>
    (loadRange cfg.crc32c cfg.integrityMode bytes offset len).isSome

/-- The file of the operation, if there is one, passes. -/
def fileMeets (s : State) (p : Pending) (meets : List UInt8 → Bool) : Bool :=
  (s.files.lookup p.key).all fun file => meets file.bytes

/-- A lookup finds no damaged file, a replaced file's size can be read, and the counter has room for
a reservation. -/
def soundWork (cfg : Config) (s : State) (p : Pending) (choice : Choice) : Bool :=
  match p.work with
  | .store entry => s.bytesUsed + totalLen cfg entry ≤ u64Max
  | .publish _ => choice.stat
  | .lookup range => fileMeets s p (passes cfg range)
  | .promote _ => fileMeets s p (passes cfg none)
  | _ => true

def Sound (cfg : Config) (s : State) : Event → Prop
  | .step id choice => (s.pending.lookup id).all (fun p => soundWork cfg s p choice) = true
  | _ => True

instance (s : State) : (event : Event) → Decidable (Sound cfg s event)
  | .step _ _ => inferInstanceAs (Decidable (_ = true))
  | .begin _ _ | .cancel _ | .damage _ _ | .evictHot _ | .evictWriteHot _ | .evictCold _ =>
      isTrue trivial

/-- No operation is about to delete a file outside the gate. -/
def Intact (s : State) : Prop :=
  ∀ id p, s.pending.lookup id = some p → ∀ commit, p.work ≠ .discard commit

/-- Work that has reserved nothing and deletes nothing. -/
def Work.Quiet (cfg : Config) (work : Work) : Prop :=
  (∀ commit, work ≠ .discard commit) ∧ work.reservation cfg = 0

structure Accounted (cfg : Config) (s : State) : Prop where
  balanced : Balanced cfg s
  intact : Intact s

/-! ### One operation -/

theorem reserved_goOn (cfg : Config) (work : Work) (found : s.pending.lookup id = some p) :
    reserved cfg (s.goOn id p work) + p.work.reservation cfg =
      reserved cfg s + work.reservation cfg := by
  have moved := Keys.total_insert (fun p : Pending => p.work.reservation cfg) s.pending id
    { p with work := work }
  rwa [Keys.weigh, found] at moved

theorem reserved_finish (cfg : Config) (found : s.pending.lookup id = some p) :
    reserved cfg (s.finish id) + p.work.reservation cfg = reserved cfg s := by
  have moved := Keys.total_erase (fun p : Pending => p.work.reservation cfg) s.pending id
  rwa [Keys.weigh, found] at moved

theorem Intact.goOn (intact : Intact s) (harmless : ∀ commit, work ≠ .discard commit) :
    Intact (s.goOn id p work) := by
  intro id' q found
  rcases Keys.mem_insert found with ⟨_, rfl⟩ | ⟨_, old⟩
  · exact harmless
  · exact intact id' q old

theorem Intact.finish (intact : Intact s) : Intact (s.finish id) :=
  fun id' q found => intact id' q (Keys.mem_erase found).2

namespace Accounted

variable (accounted : Accounted cfg s) (found : s.pending.lookup id = some p)

include accounted

theorem unmoved (same : t.pending = s.pending) : Intact t ∧ reserved cfg t = reserved cfg s := by
  rw [Intact, reserved, same]
  exact ⟨accounted.intact, rfl⟩

include found

/-- The operation goes on: counter and files change by the reservation it gains. -/
theorem goOn (same : t.pending = s.pending)
    (shift : t.bytesUsed + p.work.reservation cfg + fileTotal s.files =
      s.bytesUsed + work.reservation cfg + fileTotal t.files)
    (harmless : ∀ commit, work ≠ .discard commit) : Accounted cfg (t.goOn id p work) := by
  obtain ⟨kept, unmoved⟩ := accounted.unmoved same
  refine ⟨?_, kept.goOn harmless⟩
  have before := accounted.balanced
  have moved := reserved_goOn cfg work (same ▸ found)
  simp only [Balanced] at before ⊢
  change t.bytesUsed = fileTotal t.files + _
  omega

/-- The operation ends: its reservation went to the counter or the files. -/
theorem finish (same : t.pending = s.pending)
    (shift : t.bytesUsed + p.work.reservation cfg + fileTotal s.files =
      s.bytesUsed + fileTotal t.files) : Accounted cfg (t.finish id) := by
  obtain ⟨kept, unmoved⟩ := accounted.unmoved same
  refine ⟨?_, kept.finish⟩
  have before := accounted.balanced
  have moved := reserved_finish cfg (same ▸ found)
  simp only [Balanced] at before ⊢
  change t.bytesUsed = fileTotal t.files + _
  omega

theorem reservation_le : p.work.reservation cfg ≤ s.bytesUsed := by
  have before := accounted.balanced
  have part := reserved_finish cfg found
  simp only [Balanced] at before
  omega

theorem release :
    Accounted cfg ((s.saturatingFetchSubBytes (p.work.reservation cfg)).finish id) := by
  refine accounted.finish found rfl ?_
  have enough := accounted.reservation_le found
  simp only [State.saturatingFetchSubBytes]
  omega

end Accounted

theorem fileTotal_removeFile (s : State) (key : CacheKey) :
    fileTotal (s.removeFile key).files + s.fileSize key = fileTotal s.files :=
  Keys.total_erase _ s.files key

theorem fileTotal_putFile (key : CacheKey) (entry : Entry) :
    fileTotal (s.putFile key entry).files + s.fileSize key =
      fileTotal s.files + entry.bytes.length :=
  Keys.total_insert _ s.files key entry

theorem Accounted.fileSize_le (accounted : Accounted cfg s) (key : CacheKey) :
    s.fileSize key ≤ s.bytesUsed := by
  have before := accounted.balanced
  have part := fileTotal_removeFile s key
  simp only [Balanced] at before
  omega

/-- A file goes, and its size leaves the counter. -/
theorem Accounted.shift_removeFile (accounted : Accounted cfg s) (key : CacheKey) :
    s.bytesUsed - s.fileSize key + fileTotal s.files =
      s.bytesUsed + fileTotal (s.removeFile key).files := by
  have fits := accounted.fileSize_le key
  have erased := fileTotal_removeFile s key
  omega

/-! ### The steps -/

namespace Accounted

variable {next : State} {entry : Entry} {origin : Nat}

variable (accounted : Accounted cfg s) (found : s.pending.lookup id = some p)

include accounted found

section

variable (free : p.work.reservation cfg = 0)

include free

theorem idle (same : t.pending = s.pending) (used : t.bytesUsed = s.bytesUsed)
    (files : t.files = s.files) : Accounted cfg (t.finish id) := by
  apply accounted.finish found same
  rw [used, files, free, Nat.add_zero]

theorem quietly (quiet : work.Quiet cfg)
    (same : t.pending = s.pending) (used : t.bytesUsed = s.bytesUsed) (files : t.files = s.files) :
    Accounted cfg (t.goOn id p work) := by
  refine accounted.goOn found same ?_ quiet.1
  rw [used, files, free, quiet.2]

theorem continueWith {work : Option Work}
    (quiet : ∀ w ∈ work, w.Quiet cfg) : Accounted cfg (continueWith s id p work) := by
  cases work with
  | none => exact accounted.idle found free rfl rfl rfl
  | some work => exact accounted.quietly found free (quiet work rfl) rfl rfl rfl

theorem afterHot (following : AfterHot) : Accounted cfg (ChunksCache.afterHot cfg id p entry
      (insertHotAtGeneration cfg s p entry) following) := by
  obtain ⟨same, used, files⟩ : (insertHotAtGeneration cfg s p entry).1.pending = s.pending ∧
      (insertHotAtGeneration cfg s p entry).1.bytesUsed = s.bytesUsed ∧
      (insertHotAtGeneration cfg s p entry).1.files = s.files := by
    unfold insertHotAtGeneration
    split <;> exact ⟨rfl, rfl, rfl⟩
  have ends := accounted.idle found free same used files
  have goes : ∀ work : Work, work.Quiet cfg →
      Accounted cfg ((insertHotAtGeneration cfg s p entry).1.goOn id p work) :=
    fun work quiet => accounted.quietly found free quiet same used files
  cases following with
  | finish => exact ends
  | store =>
    simp only [ChunksCache.afterHot]
    split
    · exact ends
    · exact goes (.store entry) ⟨by simp, rfl⟩
  | persist =>
    simp only [ChunksCache.afterHot]
    split
    · exact goes (.persist entry false) ⟨by simp, rfl⟩
    · exact ends

theorem insertRecentWrite
    (persist : Bool) : Accounted cfg (insertRecentWrite cfg s id p entry persist) := by
  unfold ChunksCache.insertRecentWrite
  split
  · cases persist with
    | false =>
      exact accounted.idle found free rfl rfl rfl
    | true =>
      exact accounted.quietly found free ⟨by simp, rfl⟩ rfl rfl rfl
  · exact accounted.idle found free rfl rfl rfl

end

omit accounted found in
theorem coldMarkerHasFile_frame {checked : State × Bool}
    (answered : coldMarkerHasFile cfg s key choice = some checked) :
    checked.1.pending = s.pending ∧ checked.1.bytesUsed = s.bytesUsed ∧
      checked.1.files = s.files := by
  unfold coldMarkerHasFile at answered
  split at answered
  · cases answered
    exact ⟨rfl, rfl, rfl⟩
  split at answered
  · split at answered
    · split at answered <;> cases answered <;> exact ⟨rfl, rfl, rfl⟩
    · cases answered
      exact ⟨rfl, rfl, rfl⟩
  · cases answered

theorem persistOpportunistic (free : p.work.reservation cfg = 0) {spawned : Bool}
    (taken : persistOpportunistic cfg s id p entry spawned choice = some next) :
    Accounted cfg next := by
  unfold ChunksCache.persistOpportunistic at taken
  split at taken
  · cases taken
    exact accounted.idle found free rfl rfl rfl
  obtain ⟨checked, answered, rfl⟩ := map_eq_some_iff.mp taken
  obtain ⟨same, used, files⟩ := coldMarkerHasFile_frame answered
  split
  · exact accounted.idle found free same used files
  · refine accounted.quietly found free ?_ same used files
    cases spawned <;> exact ⟨by simp, rfl⟩

theorem reserving (holds : p.work.reservation cfg = totalLen cfg entry)
    (keeps : work.reservation cfg = totalLen cfg entry)
    (harmless : ∀ commit, work ≠ .discard commit) : Accounted cfg (s.goOn id p work) := by
  refine accounted.goOn found rfl ?_ harmless
  rw [holds, keeps]

theorem reserve (free : p.work.reservation cfg = 0)
    (room : s.bytesUsed + totalLen cfg entry ≤ u64Max) :
    Accounted cfg (reserve cfg s id p entry choice) := by
  have grown : (s.saturatingFetchAddBytes (totalLen cfg entry)).bytesUsed =
      s.bytesUsed + totalLen cfg entry := Nat.min_eq_left room
  have goes : ∀ work : Work, (∀ commit, work ≠ .discard commit) →
      work.reservation cfg = totalLen cfg entry →
      Accounted cfg ((s.saturatingFetchAddBytes (totalLen cfg entry)).goOn id p work) := by
    intro work harmless reserves
    refine accounted.goOn found rfl ?_ harmless
    rw [grown, free, reserves]
    rfl
  simp only [ChunksCache.reserve]
  split
  · split
    · exact goes (.evict entry) (by simp) rfl
    · exact goes (.write entry) (by simp) rfl
  · exact accounted.idle found free rfl rfl rfl

section

variable (holds : p.work.reservation cfg = totalLen cfg entry)

include holds

theorem evictLru : Accounted cfg (ChunksCache.evictLru cfg s id p entry choice) := by
  simp only [ChunksCache.evictLru]
  split <;> exact accounted.reserving found holds rfl (by simp)

theorem evictNext {toFree freed : Nat} {files : List CacheKey}
    (taken : evictNext cfg s id p entry toFree freed choice files = some next) :
    Accounted cfg next := by
  have writes : Accounted cfg (s.goOn id p (.write entry)) :=
    accounted.reserving found holds rfl (by simp)
  cases files with
  | nil =>
    cases taken
    exact writes
  | cons key rest =>
    simp only [ChunksCache.evictNext] at taken
    split at taken
    · cases taken
      exact writes
    cases (ite_none_right_eq_some.mp taken).2
    split
    · refine accounted.goOn found rfl ?_ (by simp)
      rw [holds, Nat.add_right_comm, Nat.add_right_comm s.bytesUsed]
      exact congrArg (· + totalLen cfg entry) (accounted.shift_removeFile key)
    · exact accounted.reserving found holds rfl (by simp)

theorem writeTemp : Accounted cfg (writeTemp cfg s id p entry choice) := by
  unfold ChunksCache.writeTemp
  split
  · exact accounted.reserving found holds rfl (by simp)
  · rw [← holds]
    exact accounted.release found

theorem publish (stat : choice.stat = true) :
    Accounted cfg (publish cfg s id p entry choice) := by
  simp only [ChunksCache.publish]
  split
  · refine accounted.goOn found rfl ?_ (by simp)
    have fits := accounted.fileSize_le p.key
    have put : _ = fileTotal s.files + totalLen cfg entry :=
      fileTotal_putFile p.key { entry with bytes := storedFile cfg entry.bytes }
    change s.bytesUsed - s.fileSize p.key + _ + _ = s.bytesUsed + 0 + fileTotal (s.putFile ..).files
    omega
  · rw [← holds]
    exact accounted.release found

end

theorem removeStep (free : p.work.reservation cfg = 0) {stage : RemoveStage}
    (taken : removeStep cfg s id p choice stage = some next) :
    Accounted cfg next := by
  have goes : ∀ (t : State) (stage : RemoveStage), t.pending = s.pending →
      t.bytesUsed = s.bytesUsed → t.files = s.files →
      Accounted cfg (t.goOn id p (.remove stage)) :=
    fun t stage => accounted.quietly found free ⟨by simp, rfl⟩
  cases stage with
  | gate =>
    cases (ite_none_right_eq_some.mp taken).2
    exact goes _ _ rfl rfl rfl
  | writeHot | hot | cold =>
    cases taken
    exact goes _ _ rfl rfl rfl
  | file =>
    cases taken
    unfold removeFileLocked
    split
    · refine accounted.finish found rfl ?_
      rw [free]
      exact accounted.shift_removeFile p.key
    · exact accounted.idle found free rfl rfl rfl

end Accounted

/-! ### Lookups of files that pass their checks -/

theorem afterLoad_quiet {promote : Bool} {loaded : Option (List UInt8)} {damaged miss : Option Work}
    (passed : loaded.isSome) (quiet : ∀ w ∈ miss, w.Quiet cfg) :
    ∀ w ∈ afterLoad origin promote loaded damaged miss, w.Quiet cfg := by
  obtain ⟨value, rfl⟩ := isSome_iff_exists.mp passed
  intro w mem
  simp only [afterLoad] at mem
  split at mem
  · exact quiet w mem
  · cases mem
    exact ⟨by simp, rfl⟩

theorem lookupWork_quiet {range : Option (Nat × Nat)}
    (passed : fileMeets s p (passes cfg range) = true) :
    ∀ w ∈ lookupWork cfg s p choice range, w.Quiet cfg := by
  intro w mem
  cases present : s.files.lookup p.key with
  | none =>
    cases range <;> simp [lookupWork, present] at mem
  | some file =>
    rw [fileMeets, present] at passed
    cases range with
    | none =>
      simp only [lookupWork, present] at mem
      exact afterLoad_quiet passed (by simp) w mem
    | some window =>
      obtain ⟨bytes, loaded⟩ := isSome_iff_exists.mp passed
      simp only [lookupWork, present, loaded] at mem
      split at mem
      · cases mem
      · split at mem <;> cases mem <;> exact ⟨by simp, rfl⟩

theorem promoteWork_quiet (passed : fileMeets s p (passes cfg none) = true) :
    (promoteWork cfg s p origin choice).Quiet cfg := by
  simp only [promoteWork]
  split
  · rename_i file _ present
    rw [fileMeets, present] at passed
    split
    · cases outcome : afterLoad file.origin true
          (load cfg.crc32c cfg.integrityMode file.bytes) (some (.discard (some origin)))
          (some (.commit origin none)) with
      | none => exact ⟨by simp, rfl⟩
      | some w =>
        refine afterLoad_quiet passed (fun miss held => ?_) w outcome
        cases held
        exact ⟨by simp, rfl⟩
    · exact ⟨by simp, rfl⟩
  · exact ⟨by simp, rfl⟩

/-! ### Runs -/

namespace Accounted

variable {next : State}

section

variable (accounted : Accounted cfg s)

include accounted

theorem advance (found : s.pending.lookup id = some p) (sound : soundWork cfg s p choice = true)
    (taken : advance cfg s id p choice = some next) : Accounted cfg next := by
  obtain ⟨key, generation, work⟩ := p
  -- a section under the gate is taken with its own result
  have under : ∀ {at' : CacheKey} {t : State}, locked cfg s at' t = some next → t = next := by
    intro at' t passed
    obtain ⟨_, passed⟩ := ite_none_right_eq_some.mp passed
    exact Option.some.inj passed
  cases work with
  | insertHot entry following =>
    cases under taken
    exact accounted.afterHot found rfl following
  | insertWriteHot entry persist =>
    cases under taken
    exact accounted.insertRecentWrite found rfl persist
  | persist entry spawned => exact accounted.persistOpportunistic found rfl taken
  | store entry =>
    cases taken
    exact accounted.reserve found rfl (of_decide_eq_true sound)
  | evict entry =>
    cases taken
    exact accounted.evictLru found rfl
  | evicting entry toFree freed files => exact accounted.evictNext found rfl taken
  | write entry =>
    cases taken
    exact accounted.writeTemp found rfl
  | publish entry =>
    cases under taken
    exact accounted.publish found rfl sound
  | marker origin =>
    cases under taken
    unfold insertColdMarkerIfCurrent
    split <;> exact accounted.idle found rfl rfl rfl rfl
  | lookup range =>
    cases taken
    refine accounted.continueWith found rfl fun w mem => ?_
    split at mem
    · exact lookupWork_quiet sound w mem
    · cases mem
  | promote origin =>
    cases taken
    exact accounted.quietly found rfl (promoteWork_quiet sound) rfl rfl rfl
  | discard commit => exact absurd rfl (accounted.intact id _ found commit)
  | commit origin promote =>
    cases under taken
    unfold commitDiskHit
    split
    · split <;> exact accounted.idle found rfl rfl rfl rfl
    · exact accounted.idle found rfl rfl rfl rfl
  | remove stage => exact accounted.removeStep found rfl taken

/-- A tier in memory has no part in the account. -/
theorem congr (same : t.pending = s.pending) (used : t.bytesUsed = s.bytesUsed)
    (files : fileTotal t.files = fileTotal s.files) : Accounted cfg t := by
  obtain ⟨kept, unmoved⟩ := accounted.unmoved same
  refine ⟨?_, kept⟩
  rw [Balanced, used, files, unmoved]
  exact accounted.balanced

theorem beginCall (fresh : s.pending.lookup s.nextId = none) (key : CacheKey) (request : Request) :
    Accounted cfg (beginCall cfg s key request) := by
  have counted : Accounted cfg { s with nextId := s.nextId + 1 } := accounted.congr rfl rfl rfl
  simp only [ChunksCache.beginCall]
  split
  · exact counted
  rename_i work first
  have plain : work.Quiet cfg := by
    cases request <;> simp only [firstWork] at first
    case get =>
      split at first <;> cases first
      exact ⟨by simp, rfl⟩
    case getRangeInto =>
      split at first <;> cases first
      exact ⟨by simp, rfl⟩
    all_goals
      cases first
      exact ⟨by simp, rfl⟩
  refine ⟨?_, counted.intact.goOn plain.1⟩
  have before := counted.balanced
  have added := Keys.total_insert (fun p : Pending => p.work.reservation cfg) s.pending
    s.nextId ⟨key, s.generation (cfg.shard key), work⟩
  simp only [Keys.weigh, fresh, plain.2, map_none, getD_none, Nat.add_zero] at added
  simp only [Balanced, reserved, State.goOn] at before ⊢
  rw [added, before]

theorem damage {file : Entry} (present : s.files.lookup key = some file) {bytes : List UInt8}
    (same : bytes.length = file.bytes.length) :
    Accounted cfg (s.putFile key { file with bytes := bytes }) := by
  refine accounted.congr rfl rfl ?_
  have put : _ = fileTotal s.files + bytes.length :=
    fileTotal_putFile key { file with bytes := bytes }
  have size : s.fileSize key = file.bytes.length := by
    rw [State.fileSize, Keys.weigh, present]
    rfl
  omega

end

end Accounted

/-- A cancellable operation holds no reservation. -/
theorem reservation_of_not_owned (shared : ¬ work.owned = true) : work.reservation cfg = 0 := by
  cases work <;> first | rfl | exact absurd rfl shared

theorem accounted_step {event : Event} {next : State} (numbered : Numbered cfg s)
    (accounted : Accounted cfg s) (sound : Sound cfg s event)
    (taken : step cfg s event = some next) : Accounted cfg next := by
  cases event with
  | begin key request =>
    cases taken
    exact accounted.beginCall numbered.fresh key request
  | step id choice =>
    obtain ⟨p, found, advanced⟩ := bind_eq_some_iff.mp taken
    rw [Sound, found] at sound
    exact accounted.advance found sound advanced
  | cancel id =>
    obtain ⟨p, found, ended⟩ := bind_eq_some_iff.mp taken
    obtain ⟨shared, ⟨⟩⟩ := ite_none_left_eq_some.mp ended
    exact accounted.idle found (reservation_of_not_owned shared) rfl rfl rfl
  | damage key bytes =>
    obtain ⟨file, present, replaced⟩ := bind_eq_some_iff.mp taken
    split at replaced
    · cases replaced
      exact accounted.damage present ‹_›
    · cases replaced
  | evictHot | evictWriteHot | evictCold =>
    cases taken
    exact accounted.congr rfl rfl rfl

/-- While no lookup finds a damaged file, the size of a replaced file can be read and the counter
has room, it is the size of the published files and the reservations. -/
theorem bytes_used_exact (cfg : Config) {found : List (CacheKey × List UInt8)}
    (fits : fileTotal (scanned found) ≤ u64Max) {events : List Event} {final : State}
    (sound : Run.Along (step cfg) (Sound cfg) (initial found) events)
    (run : Run.exec (step cfg) (initial found) events = some final) : Balanced cfg final := by
  have kept : Numbered cfg final ∧ Accounted cfg final :=
    Run.invariant_along (fun s event next (held : Numbered cfg s ∧ Accounted cfg s) sound
        taken => ⟨held.1.step taken, accounted_step held.1 held.2 sound taken⟩)
      ⟨numbered_initial cfg found, Nat.min_eq_left fits, nofun⟩ sound run
  exact kept.2.balanced

/-- A cache that sums bytes for its checksum and has room for two small files. -/
def smallConfig : Config where
  crc32c data := UInt32.ofNat (data.map UInt8.toNat).sum
  integrityMode := .full
  maxDiskBytes := 30
  maxWriteHotBytes := 30
  shard key := key.length

/-- A store, a replacement, a store that evicts, one that fails and one that a removal overtakes. -/
def fullDay : List Event :=
  [.begin "a" (.storeToDisk [1]), .step 1 {}, .step 1 {}, .step 1 {}, .step 1 {},
   .begin "a" (.storeToDisk [2]), .step 2 {}, .step 2 {}, .step 2 {}, .step 2 {},
   .begin "bb" (.insert [3]), .step 3 {}, .step 3 {}, .step 3 {}, .step 3 {},
   .begin "ccc" (.storeToDisk [4]), .step 4 {}, .step 4 { listing := ["a"] }, .step 4 {},
   .step 4 {}, .step 4 { io := false },
   .begin "a" (.storeToDisk [5]), .begin "a" .remove,
   .step 5 {}, .step 5 {}, .step 6 {}, .step 6 {}, .step 6 {}, .step 6 {}, .step 6 {}, .step 5 {},
   .begin "bb" .get, .step 7 {}, .step 7 {}]

theorem bytes_used_exact_full_day :
    ∃ final, Run.exec (step smallConfig) (initial []) fullDay = some final ∧
      final.files.keys = ["bb"] ∧ Balanced smallConfig final :=
  have run : Run.exec (step smallConfig) (initial []) fullDay = some _ := rfl
  ⟨_, run, rfl, bytes_used_exact smallConfig (by decide) (by decide +kernel) run⟩

/-- A load deletes a damaged file and leaves its bytes on the counter. -/
theorem damaged_file_stays_counted : ∃ final, Run.exec (step smallConfig) (initial [])
        [.begin "a" (.storeToDisk [1]), .step 1 {}, .step 1 {}, .step 1 {}, .step 1 {},
         .damage "a" [0x53, 0x46, 0x43, 0x31, 1, 0, 0, 0, 2, 1, 0, 0, 0],
         .begin "a" .get, .step 2 {}, .step 2 {}] = some final ∧
      final.files.keys = [] ∧ final.pending.keys = [] ∧ final.bytesUsed = 13 ∧
      ¬ Balanced smallConfig final :=
  Run.reaches (by decide +kernel)

end BrewFs.Chunk.ChunksCache
