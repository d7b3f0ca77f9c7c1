import BrewFs.Chunk.Slice
import Mathlib.Tactic.Ring

/-! `FileReader::check_session`: the two readahead sessions of a handle. The saturating products of
`update_ahead` are exact here: they are compared with `u64` limits only. -/

namespace BrewFs.Vfs.ReadSessions

open BrewFs.Chunk (addU64 addU64_of_lt)
open Function (update update_idem update_self update_of_ne)

structure Session where
  (ahead lastOff total atime : Nat)

/-- One read at its time. -/
structure Request where
  (offset len now : Nat)

structure Config where
  (blockSize maxAhead totalAheadLimit : Nat)

abbrev Sessions := Fin 2 → Session

namespace Session
variable (cfg : Config) (req : Request) (s : Session)

def reset : Session := ⟨0, req.offset, 0, req.now⟩

def update : Session :=
  let stop := addU64 req.offset req.len
  if s.lastOff < stop then ⟨s.ahead, stop, addU64 s.total (stop - s.lastOff), req.now⟩
  else { s with atime := req.now }

/-- `update_ahead`; the usage is 0 at its only call. -/
def nextAhead (ahead total : Nat) : Nat :=
  if ahead = 0 ∧ cfg.blockSize ≤ cfg.maxAhead ∧
    (req.offset = 0 ∨ req.len < total ∧ cfg.blockSize ≤ total) then min cfg.blockSize cfg.maxAhead
  else if ahead < cfg.maxAhead ∧ ahead ≤ total ∧ ahead * 4 < cfg.totalAheadLimit then
    min (ahead * 2) cfg.maxAhead
  else if cfg.blockSize ≤ ahead ∧ (cfg.totalAheadLimit < ahead / 2 ∨ total < ahead / 4) then
    ahead / 2
  else ahead

/-- `update`, then `update_ahead` -/
def advance : Session :=
  { s.update req with ahead := nextAhead cfg req s.ahead (s.update req).total }

def forward : Bool :=
  0 < s.total ∧ s.lastOff ≤ req.offset ∧
    req.offset ≤ addU64 (addU64 s.lastOff s.ahead) cfg.blockSize

def back : Bool :=
  0 < s.total ∧ req.offset < s.lastOff ∧ s.lastOff - max (s.ahead / 8) cfg.blockSize ≤ req.offset

end Session

open Session (reset nextAhead)

variable (cfg : Config) (s : Sessions) (req : Request)

def firstOf (sat : Session → Bool) (i : Fin 2) : Option (Fin 2) :=
  if sat (s i) then some i else if sat (s (1 - i)) then some (1 - i) else none

def selectForwardSessionMatch : Option (Fin 2) :=
  firstOf s (·.forward cfg req) (if (s 1).lastOff < (s 0).lastOff then 0 else 1)

def selectBackSessionMatch : Option (Fin 2) :=
  firstOf s (·.back cfg req) (if (s 0).lastOff < (s 1).lastOff then 0 else 1)

def selectMatch : Option (Fin 2) :=
  (selectForwardSessionMatch cfg s req).or (selectBackSessionMatch cfg s req)

def selectSessionFallback : Fin 2 :=
  if (s 0).total = 0 then 0 else if (s 1).total = 0 then 1
  else if (s 0).atime < (s 1).atime then 0 else 1

/-- `unwrap_or` has its argument computed first, and the fallback is reset there. -/
def checkSession : Sessions :=
  let fallback := selectSessionFallback s
  let sessions := update s fallback (reset req)
  let selected := (selectMatch cfg s req).getD fallback
  update sessions selected ((sessions selected).advance cfg req)

/-- A matched session goes on from its own state, and the other stays; without a match one of them
begins anew. -/
def Independent : Prop :=
  match selectMatch cfg s req with
  | some i => checkSession cfg s req = update s i ((s i).advance cfg req)
  | none => ∃ i, checkSession cfg s req = update s i ((reset req).advance cfg req)

/-- The update leaves a session as if it held this request only. -/
def StartsOver (t : Session) : Prop :=
  let total := addU64 req.offset req.len - req.offset
  (t.update req).total = total ∧
    (t.update req).lastOff = max req.offset (addU64 req.offset req.len) ∧
    nextAhead cfg req t.ahead total = nextAhead cfg req 0 total

/-- The reset of the fallback changes nothing: it finds the other session reset, or the matched one
starting over. -/
def Harmless : Prop :=
  ∀ i, selectMatch cfg s req = some i → if selectSessionFallback s = i
    then StartsOver cfg req (s i) else s (selectSessionFallback s) = reset req

variable {cfg s req}

theorem firstOf_sat {sat : Session → Bool} {i j : Fin 2} (found : firstOf s sat i = some j) :
    sat (s j) = true := by
  unfold firstOf at found
  grind -ring

theorem total_pos {i : Fin 2} (found : selectMatch cfg s req = some i) : 0 < (s i).total := by
  rcases Option.or_eq_some_iff.mp found with forward | ⟨_, back⟩
  · exact (of_decide_eq_true (firstOf_sat forward)).1
  · exact (of_decide_eq_true (firstOf_sat back)).1

theorem update_reset : (reset req).update req =
    ⟨0, max req.offset (addU64 req.offset req.len), addU64 req.offset req.len - req.offset,
      req.now⟩ := by
  have small : addU64 req.offset req.len < 2 ^ 64 := Nat.mod_lt _ (by decide)
  unfold Session.update
  dsimp only
  split <;> rename_i grows <;> simp only [reset] at grows ⊢
  · rw [max_eq_right grows.le, @addU64_of_lt 0 _ (by omega), Nat.zero_add]
  · rw [max_eq_left (by omega), Nat.sub_eq_zero_of_le (by omega)]

theorem update_ahead {t : Session} :
    (t.update req).ahead = t.ahead ∧ (t.update req).atime = req.now := by
  unfold Session.update
  dsimp only
  split <;> exact ⟨rfl, rfl⟩

theorem advance_reset_iff {t : Session} :
    (reset req).advance cfg req = t.advance cfg req ↔ StartsOver cfg req t := by
  simp only [Session.advance, update_reset, update_ahead, Session.mk.injEq, and_true, StartsOver]
  constructor
  · intro ⟨ahead, last, total⟩
    rw [← total] at ahead
    exact ⟨total.symm, last.symm, ahead.symm⟩
  intro ⟨total, last, ahead⟩
  rw [total]
  exact ⟨ahead.symm, last.symm, rfl⟩

theorem independent_iff_harmless : Independent cfg s req ↔ Harmless cfg s req := by
  cases found : selectMatch cfg s req with
  | none =>
    simp only [Independent, Harmless, found, checkSession, Option.getD_none, update_self,
      reduceCtorEq, false_implies, implies_true, iff_true]
    exact ⟨_, update_idem ..⟩
  | some i =>
    simp only [Independent, Harmless, found, checkSession, Option.getD_some, Option.some.injEq,
      forall_eq']
    split
    · rename_i own
      rw [own, update_self, update_idem, ← advance_reset_iff]
      exact ⟨fun same => by simpa using congrFun same i, fun same => by rw [same]⟩
    rename_i other
    constructor
    · intro same
      have := congrFun same (selectSessionFallback s)
      rwa [update_of_ne other, update_self, update_of_ne other, eq_comm] at this
    · intro same
      rw [← same, Function.update_eq_self]

/-- With the other session unused, the fallback is that one. -/
theorem fallback_unused {i : Fin 2} (found : selectMatch cfg s req = some i)
    (unused : (s (1 - i)).total = 0) : selectSessionFallback s = 1 - i := by
  have used := total_pos found
  unfold selectSessionFallback
  obtain rfl | rfl : i = 0 ∨ i = 1 := by omega
  · rw [if_neg used.ne']
    exact if_pos unused
  · exact if_pos unused

/-- With both sessions in use, a forward read of either stream is disturbed or disturbs. -/
theorem not_independent_of_used {i : Fin 2} (found : selectForwardSessionMatch cfg s req = some i)
    (used : 0 < (s (1 - i)).total) (fits : (s i).total + req.offset + req.len < 2 ^ 64) :
    ¬ Independent cfg s req := by
  have selected : selectMatch cfg s req = some i := by rw [selectMatch, found, Option.some_or]
  have positive := total_pos selected
  have ahead : (s i).lastOff ≤ req.offset := (of_decide_eq_true (firstOf_sat found)).2.1
  rw [independent_iff_harmless]
  intro harmless
  have same := harmless i selected
  split at same
  · have total := same.1
    have stop : addU64 req.offset req.len = req.offset + req.len := addU64_of_lt (by omega)
    simp only [Session.update, stop] at total
    split at total
    · simp only at total
      rw [addU64_of_lt (by omega)] at total
      omega
    · simp only at total
      omega
  · have other : selectSessionFallback s = 1 - i := by omega
    rw [other] at same
    rw [same] at used
    exact Nat.lt_irrefl 0 used

/-- One stream: each request is matched to session `k`. -/
def Served (cfg : Config) (k : Fin 2) : Sessions → List Request → Prop
  | _, [] => True
  | s, req :: rest => selectMatch cfg s req = some k ∧ Served cfg k (checkSession cfg s req) rest

/-- A read is independent exactly if the reset of the fallback is harmless, which it never is for a
forward read while both sessions are in use; and a stream with the other session unused is served
from its own session's state. -/
theorem check_session_independent_iff (cfg : Config) :
    (∀ s req, Independent cfg s req ↔ Harmless cfg s req) ∧
    (∀ s req i, selectForwardSessionMatch cfg s req = some i → 0 < (s (1 - i)).total →
      (s i).total + req.offset + req.len < 2 ^ 64 → ¬ Independent cfg s req) ∧
    ∀ k requests s, (s (1 - k)).total = 0 → Served cfg k s requests →
      requests.foldl (checkSession cfg) s k =
        requests.foldl (fun t req => t.advance cfg req) (s k) ∧
      (requests.foldl (checkSession cfg) s (1 - k)).total = 0 := by
  refine ⟨fun s req => independent_iff_harmless, fun s req i => not_independent_of_used, ?_⟩
  intro k requests
  induction requests with
  | nil => exact fun _ unused _ => ⟨rfl, unused⟩
  | cons req rest ih =>
    intro s unused ⟨found, served⟩
    have apart : k ≠ 1 - k := by omega
    have step : checkSession cfg s req =
        update (update s (1 - k) (reset req)) k ((s k).advance cfg req) := by
      simp only [checkSession, found, Option.getD_some, fallback_unused found unused,
        update_of_ne apart]
    have own : checkSession cfg s req k = (s k).advance cfg req := by rw [step, update_self]
    rw [List.foldl_cons, List.foldl_cons, ← own]
    apply ih _ _ served
    rw [step, update_of_ne apart.symm, update_self]
    rfl

/-- A stream of two reads beside an unused session. -/
theorem check_session_lone_stream :
    [⟨8, 4, 2⟩, ⟨12, 4, 3⟩].foldl (checkSession ⟨4, 8, 99⟩)
      (fun i => if i = 0 then ⟨4, 8, 8, 1⟩ else ⟨0, 0, 0, 0⟩) 0 = ⟨8, 16, 16, 3⟩ :=
  ((check_session_independent_iff ⟨4, 8, 99⟩).2.2 0 [⟨8, 4, 2⟩, ⟨12, 4, 3⟩] _ rfl
    ⟨by decide, by decide, trivial⟩).1

/-- The second stream goes on, and the session of the first is reset. -/
theorem matched_read_resets_other : ∃ s req, selectMatch ⟨4, 8, 99⟩ s req = some 1 ∧
    (checkSession ⟨4, 8, 99⟩ s req 0).total ≠ (s 0).total :=
  ⟨fun i => if i = 0 then ⟨4, 8, 8, 1⟩ else ⟨4, 100, 8, 2⟩, ⟨100, 4, 3⟩, by decide, by decide⟩

end BrewFs.Vfs.ReadSessions
