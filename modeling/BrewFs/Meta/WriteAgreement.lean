import BrewFs.Meta.Redis.ChunkScripts

/-! Writes to one file in the two stores: `WRITE_SLICE_LUA` and the SQL transaction of
`write_with_coalesced_reservation`, call by call. -/

namespace BrewFs.Meta.Writes

open BrewFs.Chunk BrewFs.Meta.Redis
open BrewFs.Meta.Redis.Chunk (Records blocksOf extendNode writeSlice)
open BrewFs.Meta.Database (Tables asI64 getSlices)
open Function (update update_of_ne update_self)

/-- A call for an ordinary slice; `now`: the clock of the Redis client. -/
structure WriteCall where
  chunkId : Nat
  sliceId : Nat
  offset : Nat
  length : Nat
  newSize : Nat
  now : Int

def WriteCall.slice (call : WriteCall) : SliceDesc :=
  ⟨call.sliceId, call.chunkId, call.offset, call.length⟩

/-- The file's keys in Redis: list and version of every chunk, and what is beside them. -/
structure RedisFile where
  slices : Nat → List SliceDesc
  version : Nat → Option Nat
  records : Records

/-- The script; any other reply is an error of the call. -/
def RedisFile.write (file : RedisFile) (call : WriteCall) : Option RedisFile :=
  match writeSlice call.chunkId ⟨file.slices call.chunkId, file.version call.chunkId, file.records⟩
      call.slice call.newSize call.now none true with
  | (.done _, chunk) => some ⟨update file.slices call.chunkId chunk.slices,
      update file.version call.chunkId chunk.version, chunk.records⟩
  | _ => none

structure SqlFile where
  db : Tables
  /-- The mode in the column `permission`. -/
  mode : UInt32

/-- The transaction; the mode is rewritten whether or not the file grows. -/
def SqlFile.write (ino : Int) (file : SqlFile) (call : WriteCall) : Option SqlFile :=
  (Database.write file.db ino call.chunkId call.slice call.newSize).map fun db =>
    ⟨db, file.mode &&& ~~~0o6000⟩

/-- Both stores hold the same file, of a size that `cjson` encodes exactly. -/
structure Same (ino : Int) (attr : StoredAttr) (redis : RedisFile) (sql : SqlFile) : Prop where
  slices : ∀ chunkId, redis.slices chunkId = getSlices sql.db.sliceMeta chunkId
  node : redis.records.node = some attr
  size : sql.db.fileSize ino = some (attr.size : Int)
  mode : sql.mode = attr.mode
  exact : attr.size < 10 ^ 14

/-- The file has no bit on which the stores' masks differ, and no set-user-ID bit unless the script
comes to the line that clears it: when the file grows or gets new blocks. -/
def Clears (file : RedisFile) (call : WriteCall) : Prop :=
  call.newSize < 10 ^ 14 ∧ ∀ attr ∈ file.records.node, attr.mode &&& 0o12000 = 0 ∧
    (attr.mode &&& 0o4000 = 0 ∨ attr.size < call.newSize ∨
      0 < call.length ∧ ∃ blocks ∈ attr.blocks, blocks < blocksOf attr.size)

instance (file : RedisFile) (call : WriteCall) : Decidable (Clears file call) :=
  inferInstanceAs (Decidable (_ ∧ ∀ attr ∈ file.records.node, _))

theorem and_not_of_and_eq_zero {a b : UInt32} (clear : a &&& b = 0) : a &&& ~~~b = a := by
  rw [← UInt32.toBitVec_inj] at clear ⊢
  ext i inside
  have bit := congrArg (·.getLsbD i) clear
  simp at bit ⊢
  grind

/-- On such a file the script's mask, 0o14000, clears what 0o6000 clears. -/
theorem masks_agree {mode : UInt32} (plain : mode &&& 0o12000 = 0) :
    mode &&& ~~~6144 = mode &&& ~~~0o6000 := by
  have masks : ~~~0o12000 &&& ~~~6144 = (~~~0o12000 &&& ~~~0o6000 : UInt32) := by decide
  rw [← and_not_of_and_eq_zero plain, UInt32.and_assoc, masks, UInt32.and_assoc]

theorem clear_of_no_setuid {mode : UInt32} (plain : mode &&& 0o12000 = 0)
    (user : mode &&& 0o4000 = 0) : mode &&& ~~~0o6000 = mode := by
  rw [← masks_agree plain, ← and_not_of_and_eq_zero plain, ← and_not_of_and_eq_zero user]
  have masks : (~~~0o4000 &&& ~~~0o12000 &&& ~~~6144 : UInt32) = ~~~0o4000 &&& ~~~0o12000 := by
    decide
  simp only [UInt32.and_assoc] at masks ⊢
  rw [masks]

variable {attr after : StoredAttr} {newSize delta : Nat} {now : Int}

/-- A node the script leaves is as large as the write asks, and gets no blocks. -/
theorem extendNode_eq_none (idle : extendNode attr newSize now delta = none) :
    newSize ≤ attr.size ∧ ∀ blocks ∈ attr.blocks, 0 < delta → blocksOf attr.size ≤ blocks := by
  unfold extendNode at idle
  refine ⟨by grind, fun blocks known some => ?_⟩
  rw [Option.mem_def] at known
  grind

variable {ino : Int} {redis : RedisFile} {sql : SqlFile} {call : WriteCall} {calls : List WriteCall}

theorem extended_spec (clears : Clears redis call) (node : redis.records.node = some attr) :
    let after := (extendNode attr call.newSize call.now (blocksOf call.length)).getD attr
    after.size = max attr.size call.newSize ∧ after.mode = attr.mode &&& ~~~0o6000 := by
  obtain ⟨plain, cleared⟩ := clears.2 attr node
  cases written : extendNode attr call.newSize call.now (blocksOf call.length) with
  | none =>
    obtain ⟨large, full⟩ := extendNode_eq_none written
    have user : attr.mode &&& 0o4000 = 0 := by
      rcases cleared with user | grows | ⟨filled, blocks, known, fewer⟩
      · exact user
      · omega
      · have := full blocks known (by unfold blocksOf; omega)
        omega
    exact ⟨(Nat.max_eq_left large).symm, (clear_of_no_setuid plain user).symm⟩
  | some after =>
    unfold extendNode at written
    exact ⟨by grind, .trans (by grind) (masks_agree plain)⟩

theorem RedisFile.write_eq (node : redis.records.node = some attr) :
    redis.write call =
      some ⟨update redis.slices call.chunkId (redis.slices call.chunkId ++ [call.slice]),
      update redis.version call.chunkId (some ((redis.version call.chunkId).getD 0 + 1)),
      { redis.records with
        node := some ((extendNode attr call.newSize call.now (blocksOf call.length)).getD attr) }⟩
          := by
  simp only [RedisFile.write, writeSlice, Chunk.checkMember, Chunk.ChunkStore.appendSlice,
    Chunk.ChunkStore.incr, Chunk.ChunkStore.getChunkVersion, node, WriteCall.slice]
  cases extendNode attr call.newSize call.now (blocksOf call.length) with
  | none => simp [← node]
  | some after => rfl

theorem SqlFile.write_spec {size : Nat} (stored : sql.db.fileSize ino = some (size : Int))
    (small : call.newSize < 10 ^ 14) : ∃ sql', sql.write ino call = some sql' ∧
      sql'.db.sliceMeta = sql.db.sliceMeta ++ [call.slice] ∧
      sql'.db.fileSize ino = some ((max size call.newSize : Nat) : Int) ∧
      sql'.mode = sql.mode &&& ~~~0o6000 := by
  have signed : asI64 call.newSize = call.newSize := by
    unfold asI64
    rw [Nat.mod_eq_of_lt (by omega), if_pos (by omega)]
  unfold SqlFile.write Database.write Database.growFile
  rw [stored]
  refine ⟨_, rfl, rfl, ?_, rfl⟩
  simp only [signed]
  split
  · rw [update_self, Nat.max_eq_right (by omega)]
  · rw [stored, Nat.max_eq_left (by omega)]

theorem Same.write (same : Same ino attr redis sql) (clears : Clears redis call) :
    ∃ after redis' sql', redis.write call = some redis' ∧ sql.write ino call = some sql' ∧
      Same ino after redis' sql' ∧ after.size = max attr.size call.newSize ∧
      after.mode = attr.mode &&& ~~~0o6000 := by
  obtain ⟨size, mode⟩ := extended_spec clears same.node
  obtain ⟨sql', written, rows, stored, cleared⟩ := SqlFile.write_spec same.size clears.1
  have small := clears.1
  have exact := same.exact
  refine ⟨_, _, sql', RedisFile.write_eq same.node, written,
    ⟨fun chunkId => ?_, rfl, ?_, ?_, ?_⟩, size, mode⟩
  · rw [rows, getSlices, List.filter_append, ← getSlices, ← same.slices]
    by_cases here : chunkId = call.chunkId
    · subst here
      simp [WriteCall.slice]
    · simp [WriteCall.slice, update_of_ne here, Ne.symm here]
  · rw [stored, size]
  · rw [cleared, same.mode, mode]
  · omega

/-- After every sequence of writes to such a file the stores hold the same lists, the largest of the
sizes, and the same mode, without the two bits. -/
theorem writes_agree (same : Same ino attr redis sql)
    (clears : Run.Along RedisFile.write Clears redis calls) :
    ∃ after redis' sql', Run.exec RedisFile.write redis calls = some redis' ∧
      Run.exec (SqlFile.write ino) sql calls = some sql' ∧ Same ino after redis' sql' ∧
      after.size = calls.foldl (fun size call => max size call.newSize) attr.size ∧
      (calls ≠ [] → after.mode &&& 0o6000 = 0) := by
  induction calls generalizing attr redis sql with
  | nil => exact ⟨attr, redis, sql, rfl, rfl, same, rfl, fun none => absurd rfl none⟩
  | cons call rest ih =>
    obtain ⟨middle, redis₁, sql₁, wrote, wroteSql, same₁, size, mode⟩ := same.write clears.1
    obtain ⟨after, redis', sql', run, runSql, same', largest, bits⟩ :=
      ih same₁ (clears.2 redis₁ wrote)
    refine ⟨after, redis', sql', Run.exec_cons_eq_some.mpr ⟨redis₁, wrote, run⟩,
      Run.exec_cons_eq_some.mpr ⟨sql₁, wroteSql, runSql⟩, same', ?_, fun _ => ?_⟩
    · rw [largest, size]
      rfl
    cases rest with
    | nil =>
      cases run
      cases same₁.node.symm.trans same'.node
      rw [mode, UInt32.and_assoc]
      exact UInt32.and_zero
    | cons next later => exact bits (List.cons_ne_nil _ _)

/-- A file of ten bytes without slices. -/
def tenBytes (mode : UInt32) : RedisFile × SqlFile :=
  (⟨fun _ => [], fun _ => none, ⟨fun _ => none, 0, fun _ => none, fun _ => none, fun _ => none,
      fun _ => ⟨false, fun _ => false, fun _ => false⟩,
      some ⟨10, none, mode, 0, 0, 0, 0, 0, 0, 1⟩⟩⟩,
    ⟨{ Tables.empty with fileSize := fun _ => some 10 }, mode⟩)

theorem same_tenBytes (mode : UInt32) :
    Same 1 ⟨10, none, mode, 0, 0, 0, 0, 0, 0, 1⟩ (tenBytes mode).1 (tenBytes mode).2 :=
  ⟨fun _ => rfl, rfl, rfl, rfl, (by decide : 10 < 10 ^ 14)⟩

def inside : WriteCall := ⟨0, 7, 0, 5, 5, 0⟩

def growing : WriteCall := ⟨0, 7, 10, 5, 15, 0⟩

theorem writes_agree_growing :
    ∃ redis' sql', Run.exec RedisFile.write (tenBytes 0o104755).1 [growing, inside] = some redis' ∧
      Run.exec (SqlFile.write 1) (tenBytes 0o104755).2 [growing, inside] = some sql' ∧
      redis'.slices 0 = getSlices sql'.db.sliceMeta 0 ∧ sql'.mode &&& 0o6000 = 0 := by
  obtain ⟨after, redis', sql', run, runSql, same, _, bits⟩ := writes_agree (same_tenBytes 0o104755)
      (by decide : Run.Along RedisFile.write Clears _ [growing, inside])
  exact ⟨redis', sql', run, runSql, same.slices 0, same.mode ▸ bits (List.cons_ne_nil _ _)⟩

/-- A file with both bits. A write inside it clears neither in Redis, one that lets it grow the
set-user-ID bit; SQL clears both each time. -/
theorem redis_keeps_bits : (∃ attr, Same 1 attr (tenBytes 0o106755).1 (tenBytes 0o106755).2) ∧
      [inside, growing].map (fun call =>
        ((tenBytes 0o106755).1.write call).bind (·.records.node.map (·.mode))) =
        [some 0o106755, some 0o102755] ∧
      [inside, growing].map (fun call => ((tenBytes 0o106755).2.write 1 call).map (·.mode)) =
        [some 0o100755, some 0o100755] :=
  ⟨⟨_, same_tenBytes _⟩, by decide, by decide⟩

end BrewFs.Meta.Writes
