import BrewFs.Chunk.PageCopies
import BrewFs.Library.Slots

/-! What the caches of a block store hold, and what a call on them asks for and gives. -/

namespace BrewFs.Chunk.ObjectBlockStore

open BrewFs.Routine List
open Function (update update_of_ne update_self)

/-- What has been or will be written: blocks, and the objects that hold them, are written once. A
promoted slice has its blocks one after another. -/
structure Archive (cfg : BlockStoreConfig) (codec : Codec) where
  block : BlockKey → List UInt8
  fits : ∀ key, (block key).length ≤ cfg.blockSize
  object : ObjectName → Option (List UInt8)
  framed : ∀ key bytes, object (.versioned key) = some bytes →
    ∃ compression, bytes = codec.encodePersistedBlock (block key) compression
  /-- An object of the older layout is read as the mount's compression says. -/
  legacy : ∀ key bytes, object (.legacy key) = some bytes →
    decodeObject codec .legacy cfg.compression bytes cfg.blockSize = some (block key)
  /-- Declared by the manifest of a packed snapshot. -/
  uncompressed : cfg.versionedObjectsOnly = true → cfg.versionedObjectsUncompressed = true →
    ∀ key bytes, object (.versioned key) = some bytes → parsePersistedHeader bytes = .framed .none
  member : Nat → Option (List UInt8)
  member_eq : ∀ sliceId data, member sliceId = some data → data = block (sliceId, 0)
  slice : Nat → Option (List UInt8)
  slice_eq : ∀ sliceId file index, slice sliceId = some file → index * cfg.blockSize < file.length →
    (file.drop (index * cfg.blockSize)).take cfg.blockSize = block (sliceId, index)

/-! ### The shared state -/

structure Store where
  tiers : Tier → BlockKey → Option (List UInt8)
  pages : PageKey → Option (List UInt8)
  layouts : BlockKey → Option ObjectLayout
  /-- The objects that are there. -/
  written : ObjectName → Bool
  flights : (flight : FlightKey) → Flights flight.Out
  spawned : List Background

/-- What the state leaves open: whether a request succeeds or a policy says yes, and how many bytes
a range request returns. -/
structure Choice where
  ok : Bool
  granted : Nat

namespace Store

variable {cfg : BlockStoreConfig} {codec : Codec} (archive : Archive cfg codec) (s : Store)

def object (name : ObjectName) : Option (List UInt8) :=
  if s.written name then archive.object name else none

def setTier (tier : Tier) (key : BlockKey) (data : Option (List UInt8)) : Store :=
  { s with tiers := update s.tiers tier (update (s.tiers tier) key data) }

def setWritten (name : ObjectName) (there : Bool) : Store :=
  { s with written := update s.written name there }

def setFlight (flight : FlightKey) (flights : Flights flight.Out) : Store :=
  { s with flights := update s.flights flight flights }

/-- `LeaderGuard::complete`, and its drop with an error. -/
def publish (flight : FlightKey) (result : Option flight.Out) : Store :=
  s.setFlight flight ⟨false, (s.flights flight).published ++ [result]⟩

/-- One call. A put writes what the archive has: nothing is written over. -/
def respond : (call : Call) → Choice → Option (Store × Ans call)
  | .tierGet tier key, _ => some (s, s.tiers tier key)
  | .tierInsert tier key data, choice =>
    if choice.ok then some (s.setTier tier key (some data), true) else some (s, false)
  | .pageGet page, _ => some (s, s.pages page)
  | .pageInsert page data, _ =>
    some ({ s with pages := update s.pages page (some data) }, ())
  | .layoutGet key, _ => some (s, s.layouts key)
  | .layoutInsert key layout, _ =>
    some ({ s with layouts := update s.layouts key (some layout) }, ())
  | .getRange name offset len, choice =>
    if choice.ok then
      some (s, some ((((s.object archive name).getD []).drop offset).take (min len choice.granted)))
    else some (s, none)
  | .getFull name, choice =>
    if choice.ok then some (s, some (s.object archive name)) else some (s, none)
  | .getMember sliceId, choice =>
    if choice.ok then some (s, some (archive.member sliceId)) else some (s, none)
  | .put name data, choice =>
    if archive.object name = some data then
      -- an upload that fails may have stored the object
      some (s.setWritten name (s.written name || choice.ok || choice.granted != 0), choice.ok)
    else none
  | .openSlice sliceId, choice => some (s, if choice.ok then archive.slice sliceId else none)
  | .enter flight, _ =>
    if (s.flights flight).inAir then some (s, some (s.flights flight).published.length)
    else some (s.setFlight flight ⟨true, (s.flights flight).published⟩, none)
  | .peek flight, _ =>
    some (s, if (s.flights flight).inAir then some (s.flights flight).published.length else none)
  | .await flight number, _ => ((s.flights flight).published[number]?).map fun result => (s, result)
  | .finish flight result, _ => some (s.publish flight result, ())
  | .spawn work, _ => some ({ s with spawned := s.spawned ++ [work] }, ())
  | .choose, choice => some (s, choice.ok)

end Store

/-! ### What is in the caches -/

namespace Archive

variable {cfg : BlockStoreConfig} {codec : Codec} (archive : Archive cfg codec)

/-- The page of a block, shorter where the block ends. -/
def page (page : PageKey) : List UInt8 :=
  ((archive.block page.1).drop (page.2 * cfg.pageSize)).take cfg.pageSize

/-- An object said to be uncompressed is. -/
def LayoutOk (key : BlockKey) (layout : ObjectLayout) : Prop :=
  layout = .versioned .none → ∀ bytes, archive.object (.versioned key) = some bytes →
    parsePersistedHeader bytes = .framed .none

def FlightOk : (flight : FlightKey) → flight.Out → Prop
  | .read key, data => data = [] ∨ data = archive.block key
  | .range key first _, data => data <+: (archive.block key).drop (first * cfg.pageSize)
  | .format key, layout => archive.LayoutOk key layout

def WorkOk : Background → Prop
  | .persist key data => data = archive.block key
  | .prefetch _ _ => True

def contract : Contract Call Ans where
  demand
    | .tierInsert _ key data => data = archive.block key
    | .pageInsert page data => data = archive.page page
    | .layoutInsert key layout => archive.LayoutOk key layout
    | .finish flight result => ∀ value, result = some value → archive.FlightOk flight value
    | .spawn work => archive.WorkOk work
    | _ => True
  answer
    | .tierGet _ key, found => ∀ data, found = some data → data = archive.block key
    | .pageGet page, found => ∀ data, found = some data → data = archive.page page
    | .layoutGet key, found => ∀ layout, found = some layout → archive.LayoutOk key layout
    | .getRange name offset _, found => ∀ bytes, found = some bytes → bytes = [] ∨
        ∃ object, archive.object name = some object ∧ bytes <+: object.drop offset
    | .getFull name, found => ∀ object, found = some (some object) →
        archive.object name = some object
    | .getMember sliceId, found => ∀ data, found = some (some data) →
        data = archive.block (sliceId, 0)
    | .put name data, stored => stored = true → archive.object name = some data
    | .openSlice sliceId, found => ∀ file, found = some file → archive.slice sliceId = some file
    | .await flight _, found => ∀ value, found = some value → archive.FlightOk flight value
    | _, _ => True

/-- All that is cached or shared is what was written. -/
structure Coherent (s : Store) : Prop where
  tiers : ∀ tier key data, s.tiers tier key = some data → data = archive.block key
  pages : ∀ page data, s.pages page = some data → data = archive.page page
  layouts : ∀ key layout, s.layouts key = some layout → archive.LayoutOk key layout
  flights : ∀ flight, ∀ value, some value ∈ (s.flights flight).published →
    archive.FlightOk flight value
  spawned : ∀ work ∈ s.spawned, archive.WorkOk work

variable {archive} {s : Store}

section

variable (coherent : archive.Coherent s) {flight : FlightKey}

include coherent

theorem Coherent.setTier {tier : Tier} {key : BlockKey}
    {data : Option (List UInt8)} (right : ∀ value, data = some value → value = archive.block key) :
    archive.Coherent (s.setTier tier key data) := by
  refine { coherent with tiers := fun otherTier otherKey value found => ?_ }
  simp only [Store.setTier] at found
  by_cases sameTier : otherTier = tier
  · subst sameTier
    rw [update_self] at found
    by_cases sameKey : otherKey = key
    · subst sameKey
      rw [update_self] at found
      exact right value found
    · rw [update_of_ne sameKey] at found
      exact coherent.tiers otherTier otherKey value found
  · rw [update_of_ne sameTier] at found
    exact coherent.tiers otherTier otherKey value found

theorem Coherent.setFlight {flights : Flights flight.Out}
    (right : ∀ value, some value ∈ flights.published → archive.FlightOk flight value) :
    archive.Coherent (s.setFlight flight flights) := by
  refine { coherent with flights := fun other value listed => ?_ }
  simp only [Store.setFlight] at listed
  by_cases same : other = flight
  · subst same
    rw [update_self] at listed
    exact right value listed
  · rw [update_of_ne same] at listed
    exact coherent.flights other value listed

theorem Coherent.publish {result : Option flight.Out}
    (right : ∀ value, result = some value → archive.FlightOk flight value) :
    archive.Coherent (s.publish flight result) := by
  refine coherent.setFlight fun value listed => ?_
  rcases mem_append.mp listed with old | new
  · exact coherent.flights flight value old
  · exact right value (mem_singleton.mp new).symm

end

theorem object_written {s : Store} {name : ObjectName} {bytes : List UInt8}
    (there : s.object archive name = some bytes) : archive.object name = some bytes := by
  obtain ⟨_, there⟩ := Option.ite_none_right_eq_some.mp there
  exact there

/-- A call as demanded keeps the caches coherent and is answered by the contract. -/
theorem Coherent.respond {call : Call} {choice : Choice} {s' : Store} {answer : Ans call}
    (coherent : archive.Coherent s) (asked : archive.contract.demand call)
    (answered : s.respond archive call choice = some (s', answer)) :
    archive.Coherent s' ∧ archive.contract.answer call answer := by
  cases call <;> simp only [Store.respond] at answered
  case tierGet tier key =>
    cases answered
    exact ⟨coherent, coherent.tiers tier key⟩
  case tierInsert tier key data =>
    split at answered <;> cases answered
    · exact ⟨coherent.setTier fun value same => (Option.some.inj same) ▸ asked, trivial⟩
    · exact ⟨coherent, trivial⟩
  case pageGet page =>
    cases answered
    exact ⟨coherent, coherent.pages page⟩
  case pageInsert page data =>
    cases answered
    refine ⟨{ coherent with pages := fun other value found => ?_ }, trivial⟩
    rcases Slots.mem_put found with ⟨rfl, rfl⟩ | ⟨_, old⟩
    · exact asked
    · exact coherent.pages other value old
  case layoutGet key =>
    cases answered
    exact ⟨coherent, coherent.layouts key⟩
  case layoutInsert key layout =>
    cases answered
    refine ⟨{ coherent with layouts := fun other value found => ?_ }, trivial⟩
    rcases Slots.mem_put found with ⟨rfl, rfl⟩ | ⟨_, old⟩
    · exact asked
    · exact coherent.layouts other value old
  case getRange name offset len =>
    split at answered <;> cases answered
    · refine ⟨coherent, fun bytes same => ?_⟩
      cases same
      cases there : s.object archive name with
      | none => exact .inl (by simp)
      | some object => exact .inr ⟨object, object_written there, take_prefix _ _⟩
    · exact ⟨coherent, nofun⟩
  case getFull name =>
    split at answered <;> cases answered
    · exact ⟨coherent, fun object same => object_written (Option.some.inj same)⟩
    · exact ⟨coherent, nofun⟩
  case getMember sliceId =>
    split at answered <;> cases answered
    · exact ⟨coherent, fun data same => archive.member_eq sliceId data (Option.some.inj same)⟩
    · exact ⟨coherent, nofun⟩
  case put name data =>
    obtain ⟨holds, ⟨⟩⟩ := Option.ite_none_right_eq_some.mp answered
    exact ⟨{ coherent with }, fun _ => holds⟩
  case openSlice sliceId =>
    cases answered
    refine ⟨coherent, fun file same => ?_⟩
    split at same
    · exact same
    · cases same
  case enter flight =>
    split at answered <;> cases answered
    · exact ⟨coherent, trivial⟩
    · exact ⟨coherent.setFlight (coherent.flights flight), trivial⟩
  case peek | choose =>
    cases answered
    exact ⟨coherent, trivial⟩
  case await flight number =>
    obtain ⟨result, found, same⟩ := Option.map_eq_some_iff.mp answered
    cases same
    refine ⟨coherent, fun value given => coherent.flights flight value ?_⟩
    exact given ▸ mem_of_getElem? found
  case finish flight result =>
    cases answered
    exact ⟨coherent.publish asked, trivial⟩
  case spawn work =>
    cases answered
    refine ⟨{ coherent with spawned := fun other listed => ?_ }, trivial⟩
    rcases mem_append.mp listed with old | new
    · exact coherent.spawned other old
    · exact mem_singleton.mp new ▸ asked

end Archive

end BrewFs.Chunk.ObjectBlockStore
