import BrewFs.Chunk.CacheContract

/-! Reads through the caches return what was written. -/

namespace BrewFs.Chunk.ObjectBlockStore

open BrewFs.Buffer BrewFs.Routine List Option
open Option (isNone)

variable {cfg : BlockStoreConfig} {codec : Codec} {archive : Archive cfg codec}

/-- The routine keeps to the contract. -/
abbrev Keeps (archive : Archive cfg codec) {α : Type} (routine : Reads α)
    (post : α → Prop) : Prop :=
  routine.Safe archive.contract post

/-- It keeps to the contract, and what it finds is as demanded. -/
abbrev Yields (archive : Archive cfg codec) {α : Type} (routine : Reads (Option α))
    (post : α → Prop) : Prop :=
  Keeps archive routine fun found => ∀ value, found = some value → post value

/-- Exactly the bytes that were asked for. -/
def Archive.Slice (archive : Archive cfg codec) (key : BlockKey) (offset len : Nat)
    (bytes : List UInt8) : Prop :=
  bytes.length = len ∧ bytes <+: (archive.block key).drop offset

variable {key : BlockKey} {offset len : Nat} {bytes fetched block : List UInt8}
  {layout : ObjectLayout}

theorem copyFullCachedRange_slice
    (copied : copyFullCachedRange (archive.block key) offset len = some bytes) :
    archive.Slice key offset len bytes := by
  unfold copyFullCachedRange at copied
  split at copied
  · cases copied
    refine ⟨?_, take_prefix _ _⟩
    rw [length_take, length_drop]
    omega
  · cases copied

/-! ### The block cache -/

theorem insertOpportunistic_keeps :
    Keeps archive (insertOpportunistic key (archive.block key)) fun _ => True := by
  refine safe_call rfl fun current _ => ?_
  split
  · exact safe_perform rfl
  · trivial

theorem insertRecentWriteOpportunistic_keeps :
    Keeps archive (insertRecentWriteOpportunistic key (archive.block key)) fun _ => True := by
  refine safe_call rfl fun current _ => ?_
  split
  · exact safe_perform rfl
  · trivial

theorem commitDiskHit_keeps {promote : Option (List UInt8)}
    (right : ∀ value, promote = some value → value = archive.block key) :
    Keeps archive (commitDiskHit key promote) fun _ => True := by
  cases promote with
  | none => trivial
  | some value => exact safe_call (right value rfl) fun _ _ => trivial

theorem loadDisk_keeps : Yields archive (loadDisk key) (· = archive.block key) := by
  refine safe_call trivial fun found right => ?_
  exact fun data kept => right data (filter_eq_some_iff.mp kept).1

theorem cacheGet_keeps : Yields archive (cacheGet cfg key) (· = archive.block key) := by
  refine (safe_perform trivial).find (fun _ => forall_found) ?_
  refine (safe_perform trivial).find (fun _ => forall_found) ?_
  simp only
  split
  · exact nofun
  refine loadDisk_keeps.find (fun value right => ?_) nofun
  refine safe_call trivial fun promoted _ => ?_
  refine (commitDiskHit_keeps fun data found => ?_).bind fun _ _ => forall_found right
  split at found
  · exact some.inj found ▸ right
  · cases found

theorem copied_slice {found : Option (List UInt8)}
    (right : ∀ data, found = some data → data = archive.block key)
    (copied : (found.bind fun value => copyFullCachedRange value offset len) = some bytes) :
    archive.Slice key offset len bytes := by
  obtain ⟨value, here, taken⟩ := bind_eq_some_iff.mp copied
  rw [right value here] at taken
  exact copyFullCachedRange_slice taken

theorem getCachedRange_keeps :
    Yields archive (getCachedRange key offset len) (archive.Slice key offset len) := by
  refine safe_call trivial fun recent right => ?_
  cases taken : (recent : Option (List UInt8)).bind fun value =>
    copyFullCachedRange value offset len with
  | some bytes => exact forall_found (copied_slice right taken)
  | none => exact safe_call trivial fun hot right bytes taken => copied_slice right taken

theorem getRangeInto_keeps :
    Yields archive (getRangeInto cfg key offset len) (archive.Slice key offset len) := by
  refine getCachedRange_keeps.find (fun _ => forall_found) ?_
  simp only
  split
  · exact nofun
  refine safe_call trivial fun disk right => ?_
  cases taken : (disk : Option (List UInt8)).bind
      fun value => copyFullCachedRange value offset len with
  | none => exact nofun
  | some bytes =>
    have given := copied_slice right taken
    refine safe_call trivial fun promoted _ => ?_
    split
    · refine (safe_perform trivial).find (fun _ _ => forall_found given) ?_
      exact loadDisk_keeps.bind fun loaded right =>
        (commitDiskHit_keeps right).bind fun _ _ => forall_found given
    · exact forall_found given

/-! ### Flights and objects -/

theorem waitForResult_keeps (flight : FlightKey) (number : Nat) :
    Keeps archive (waitForResult flight number) (archive.FlightOk flight) :=
  (safe_perform trivial).find (fun _ right => right) trivial

theorem execute_keeps {flight : FlightKey} {body : Reads flight.Out}
    (keeps : Keeps archive body (archive.FlightOk flight)) :
    Keeps archive (execute flight body) (archive.FlightOk flight) := by
  refine safe_call trivial fun joined _ => ?_
  cases joined with
  | some number => exact waitForResult_keeps flight number
  | none =>
    refine keeps.attempt.bind fun outcome right => ?_
    cases outcome with
    | ok result =>
      refine safe_call (fun value same => ?_) fun _ _ => right result rfl
      exact some.inj same ▸ right result rfl
    | error error => exact safe_call nofun fun _ _ => trivial

theorem requireCompleteRead_keeps (offset expected actual : Nat) :
    Keeps archive (requireCompleteRead key offset expected actual) fun _ => actual = expected := by
  unfold requireCompleteRead
  split
  · assumption
  · trivial

theorem copyBlock_keeps (pos : 0 < len) (right : block = [] ∨ block = archive.block key) :
    Keeps archive (copyBlock key offset len block) (archive.Slice key offset len) := by
  refine (requireCompleteRead_keeps offset len _).bind fun _ complete => ⟨complete, ?_⟩
  rcases right with rfl | rfl
  · simp only [drop_nil, take_nil, length_nil] at complete
    omega
  · exact take_prefix _ _

theorem readHeader_keeps {name : ObjectName} (rounds : Nat) {header : List UInt8}
    (right : header = [] ∨ ∃ object, archive.object name = some object ∧ header <+: object) :
    Yields archive (readHeader name rounds header) fun header =>
      header = [] ∨ ∃ object, archive.object name = some object ∧ header <+: object := by
  induction rounds generalizing header with
  | zero => exact forall_found right
  | succ rounds ih =>
    refine (safe_perform trivial).find (fun bytes given => ?_) trivial
    have more : bytes ≠ [] → header ++ bytes = [] ∨
        ∃ object, archive.object name = some object ∧ header ++ bytes <+: object := by
      intro some
      rcases given with empty | ⟨object, there, piece⟩
      · exact absurd empty some
      refine .inr ⟨object, there, ?_⟩
      rcases right with rfl | ⟨same, found, begins⟩
      · simpa using piece
      rw [there] at found
      cases found
      obtain ⟨rest, rfl⟩ := begins
      rw [drop_left] at piece
      exact (prefix_append_right_inj header).mpr piece
    simp only
    split
    · split
      · exact nofun
      · trivial
    rename_i some
    split
    · exact forall_found (more some)
    · exact ih (more some)

theorem probeObjectLayout_keeps : Keeps archive (probeObjectLayout key) (archive.LayoutOk key) := by
  refine (readHeader_keeps _ (.inl rfl)).find (fun header right => ?_) (safe_call nofun nofun)
  cases parsed : parsePersistedHeader header with
  | framed compression =>
    have known : archive.LayoutOk key (.versioned compression) := by
      intro same bytes there
      cases same
      rcases right with rfl | ⟨object, found, begins⟩
      · cases parsed
      rw [there] at found
      cases found
      obtain ⟨rest, rfl⟩ := begins
      match header, parsed with
      | _ :: _ :: _ :: _ :: _, parsed => exact parsed
    simp only [parsed]
    exact safe_call known fun _ _ => known
  | incomplete | notFramed | invalid => simp only [parsed]; trivial

theorem resolveObjectLayout_keeps :
    Keeps archive (resolveObjectLayout cfg key) (archive.LayoutOk key) := by
  refine (safe_perform trivial).find (fun _ right => right) ?_
  simp only
  split
  · rename_i only
    have declared : archive.LayoutOk key
        (.versioned (if cfg.versionedObjectsUncompressed then .none else .lz4)) := by
      intro same
      split at same
      · rename_i uncompressed
        exact archive.uncompressed only uncompressed key
      · cases same
    exact safe_call declared fun _ _ => declared
  · exact execute_keeps probeObjectLayout_keeps

theorem decodeObject_eq {decoded : List UInt8}
    (there : archive.object (objectKeyFor key layout) = some bytes)
    (right : decodeObject codec layout cfg.compression bytes cfg.blockSize = some decoded) :
    decoded = archive.block key := by
  cases layout with
  | versioned compression =>
    obtain ⟨used, rfl⟩ := archive.framed key bytes there
    simp only [decodeObject, Codec.decompressFramed_encode used (archive.fits key)] at right
    exact (some.inj right).symm
  | legacy =>
    rw [archive.legacy key bytes there] at right
    exact (some.inj right).symm

theorem observedFull_keeps (layout : ObjectLayout) :
    Yields archive (observedFull cfg codec (objectKeyFor key layout) layout)
      (· = archive.block key) := by
  refine safe_call trivial fun found there => ?_
  match found with
  | none => trivial
  | some none => exact nofun
  | some (some bytes) =>
    simp only
    split
    · trivial
    cases right : decodeObject codec layout cfg.compression bytes cfg.blockSize with
    | none => trivial
    | some decoded =>
      simp only
      split
      · trivial
      · exact forall_found (decodeObject_eq (there bytes rfl) right)

theorem publishBlock_keeps {fetched : Option (List UInt8)}
    (right : ∀ data, fetched = some data → data = archive.block key) :
    Keeps archive (publishBlock key fetched) (archive.FlightOk (.read key)) := by
  cases fetched with
  | none => exact .inl rfl
  | some data =>
    obtain rfl := right data rfl
    simp only [publishBlock]
    split
    · exact .inr rfl
    · exact insertOpportunistic_keeps.bind fun _ _ => .inr rfl

theorem layoutForDownload_keeps (layout : Option ObjectLayout) :
    Keeps archive (layoutForDownload cfg key layout) fun _ => True := by
  cases layout with
  | some layout => trivial
  | none =>
    simp only [layoutForDownload]
    split
    · exact safe_call trivial fun _ _ => trivial
    · exact resolveObjectLayout_keeps.mono fun _ _ => trivial

theorem fetchBlock_keeps (layout : ObjectLayout) :
    Keeps archive (fetchBlock cfg codec key layout) (archive.FlightOk (.read key)) := by
  refine (observedFull_keeps layout).find
    (fun data right => publishBlock_keeps (forall_found right)) ?_
  simp only
  split
  · refine (observedFull_keeps .legacy).bind fun fetched right => ?_
    exact safe_call nofun fun _ _ => publishBlock_keeps right
  · exact publishBlock_keeps nofun

theorem downloadBlock_keeps (layout : Option ObjectLayout) :
    Keeps archive (downloadBlock cfg codec key layout) (archive.FlightOk (.read key)) :=
  cacheGet_keeps.find (fun _ => .inr)
    ((layoutForDownload_keeps layout).bind fun layout _ => fetchBlock_keeps layout)

theorem prefetchFullBlock_keeps (layout : ObjectLayout) :
    Keeps archive (prefetchFullBlock cfg codec key layout) fun _ => True := by
  refine cacheGet_keeps.find (fun _ _ => trivial) ?_
  refine safe_call trivial fun permitted _ => ?_
  split
  · refine (execute_keeps ?_).bind fun _ _ => trivial
    exact cacheGet_keeps.find (fun _ => .inr)
      ((observedFull_keeps layout).bind fun _ => publishBlock_keeps)
  · trivial

theorem background_keeps {work : Background} (right : archive.WorkOk work) :
    Keeps archive (work.routine cfg codec) fun _ => True := by
  cases work with
  | persist key data =>
    obtain rfl := right
    simp only [Background.routine, persistOpportunistic]
    split
    · trivial
    refine safe_call trivial fun wanted _ => ?_
    split
    · exact safe_call rfl fun _ _ => trivial
    · trivial
  | prefetch key layout => exact prefetchFullBlock_keeps layout

/-! ### Pages -/

variable {page rangeStart : Nat}

theorem pageKey_eq (inside : page < cfg.blockSize) : pageKey key page = (key, page) := by
  rw [pageKey, asU32, Nat.mod_eq_of_lt (inside.trans cfg.blockSize_lt)]

theorem page_prefix : archive.page (key, page) <+: (archive.block key).drop (page * cfg.pageSize) :=
  take_prefix _ _

theorem pageGet_keeps (inside : page < cfg.blockSize) :
    Yields archive (pageGet key page) (· = archive.page (key, page)) := by
  refine (safe_perform trivial).mono fun found right => ?_
  rwa [pageKey_eq inside] at right

theorem cachedPages_keeps (page : Nat) {count : Nat} (inside : page + count ≤ cfg.blockSize) :
    Yields archive (cachedPages key page count)
      (· = (range' page count).map fun page => archive.page (key, page)) := by
  induction count generalizing page with
  | zero => exact forall_found rfl
  | succ count ih =>
    refine (pageGet_keeps (by omega)).find (fun data right => ?_) nofun
    refine (ih (page + 1) (by omega)).find (fun more rest => forall_found ?_) nofun
    rw [right, rest]
    rfl

/-- The pages in order are the block, as far as they go. -/
theorem flatten_pages (count : Nat) :
    ((range' 0 count).map fun page => archive.page (key, page)).flatten =
      (archive.block key).take (count * cfg.pageSize) := by
  induction count with
  | zero => simp
  | succ count ih =>
    rw [range'_concat, map_append, flatten_append, ih]
    simp only [Nat.zero_add, Nat.one_mul, map_cons, map_nil, flatten_cons,
      flatten_nil, append_nil, Archive.page]
    rw [Nat.add_one_mul, take_add]

theorem tryPromotePageCacheToBlockCache_keeps :
    Keeps archive (tryPromotePageCacheToBlockCache cfg key) fun _ => True := by
  have covers : cfg.blockSize ≤
      (cfg.blockSize + cfg.pageSize - 1) / cfg.pageSize * cfg.pageSize := by
    have := Nat.lt_div_mul_add cfg.pageSize_pos (a := cfg.blockSize + cfg.pageSize - 1)
    omega
  have count : (cfg.blockSize + cfg.pageSize - 1) / cfg.pageSize ≤ cfg.blockSize := by
    have pos := cfg.pageSize_pos
    rw [Nat.div_le_iff_le_mul pos]
    have := Nat.le_mul_of_pos_right cfg.blockSize pos
    omega
  refine (cachedPages_keeps 0 (by omega)).find (fun pages right => ?_) trivial
  have whole : pages.flatten.take cfg.blockSize = archive.block key := by
    have fits := archive.fits key
    rw [right, flatten_pages, take_take, take_of_length_le (by omega)]
  simp only [whole]
  exact insertOpportunistic_keeps.bind fun _ _ => trivial

theorem afterRangeMiss_keeps (layout : ObjectLayout) :
    Keeps archive (afterRangeMiss cfg key layout) fun _ => True := by
  unfold afterRangeMiss
  split
  · refine tryPromotePageCacheToBlockCache_keeps.bind fun promoted _ => ?_
    split
    · trivial
    refine safe_call trivial fun wanted _ => ?_
    split
    · exact safe_perform trivial
    · trivial
  · trivial

/-- Where the end of a page may be put. -/
def PageEnds (cfg : BlockStoreConfig) (page stop : Nat) : Prop :=
  stop = page * cfg.pageSize + cfg.pageSize ∨
    stop = cfg.blockSize ∧ cfg.blockSize ≤ page * cfg.pageSize + cfg.pageSize

theorem fetched_page {stop : Nat} (piece : fetched <+: (archive.block key).drop rangeStart)
    (ends : PageEnds cfg page stop) (start : rangeStart ≤ page * cfg.pageSize)
    (inside : page * cfg.pageSize < cfg.blockSize)
    (complete : page * cfg.pageSize - rangeStart + (stop - page * cfg.pageSize) ≤ fetched.length) :
    (fetched.drop (page * cfg.pageSize - rangeStart)).take (stop - page * cfg.pageSize) =
      archive.page (key, page) := by
  have fits := archive.fits key
  have slice := isPrefix_slice piece (page * cfg.pageSize - rangeStart) (stop - page * cfg.pageSize)
  rw [show rangeStart + (page * cfg.pageSize - rangeStart) = page * cfg.pageSize by omega,
    prefix_iff_eq_take] at slice
  rw [slice, Archive.page, length_take, length_drop]
  simp only
  rcases ends with rfl | ⟨rfl, last⟩
  · congr 1
    omega
  · rw [take_of_length_le (by rw [length_drop]; omega),
      take_of_length_le (by rw [length_drop]; omega)]

theorem admitPages_keeps {pageEnd : Nat → Nat} {pages : List Nat}
    (piece : fetched <+: (archive.block key).drop rangeStart)
    (ends : ∀ page, PageEnds cfg page (pageEnd page))
    (start : ∀ page ∈ pages, rangeStart ≤ page * cfg.pageSize)
    (inside : ∀ page ∈ pages, page * cfg.pageSize < cfg.blockSize) :
    Keeps archive (admitPages key fetched rangeStart (fun page => page * cfg.pageSize) pageEnd
      pages)
      fun _ => True := by
  refine Safe.visit fun page listed => ?_
  simp only
  split
  · rename_i complete
    apply safe_perform
    have small : page < cfg.blockSize :=
      (Nat.le_mul_of_pos_right page cfg.pageSize_pos).trans_lt (inside page listed)
    rw [pageKey_eq small]
    exact fetched_page piece (ends page) (start page listed) (inside page listed) complete
  · trivial

/-! ### Ranges of objects -/

/-- The data is what the block has from the page on. -/
def Archive.FromPage (archive : Archive cfg codec) (key : BlockKey) (page : Nat)
    (data : List UInt8) : Prop :=
  data <+: (archive.block key).drop (page * cfg.pageSize)

/-- Bytes of an object addressed by bytes are bytes of the block. -/
theorem range_piece {base start : Nat} (known : archive.LayoutOk key layout)
    (based : rangeBaseOffset layout cfg.compression = some base)
    (given : bytes = [] ∨ ∃ object, archive.object (objectKeyFor key layout) = some object ∧
      bytes <+: object.drop (base + start)) : bytes <+: (archive.block key).drop start := by
  rcases given with rfl | ⟨object, there, piece⟩
  · exact nil_prefix
  have payload : object.drop base = archive.block key := by
    cases layout with
    | versioned compression =>
      cases compression with
      | none =>
        cases based
        obtain ⟨used, rfl⟩ := archive.framed key object there
        have decoded := codec.decompressFramed_encode used (archive.fits key)
        simp only [Codec.decompressFramed, known rfl _ there] at decoded
        split at decoded
        · exact some.inj decoded
        · cases decoded
      | lz4 | zstd level => cases based
    | legacy =>
      have decoded := archive.legacy key object there
      simp only [rangeBaseOffset, decodeObject] at based decoded
      split at based
      · rename_i raw
        rw [if_pos raw] at decoded
        cases based
        cases decoded
        rfl
      · cases based
  rwa [← payload, drop_drop]

section

variable {key : BlockKey} {layout : ObjectLayout} {base : Nat} (known : archive.LayoutOk key layout)
  (based : rangeBaseOffset layout cfg.compression = some base)

include known based

variable {offset len runStart runEnd : Nat}

theorem directTargetRead_keeps (pos : 0 < len) (aligned : offset % cfg.pageSize = 0)
    (inside : offset + len ≤ cfg.blockSize) :
    Keeps archive (directTargetRead cfg key (objectKeyFor key layout) base offset len)
      (archive.FromPage key (offset / cfg.pageSize)) := by
  have whole : offset / cfg.pageSize * cfg.pageSize = offset :=
    Nat.div_mul_cancel (Nat.dvd_of_mod_eq_zero aligned)
  refine execute_keeps ((safe_perform trivial).find (fun fetched given => ?_) trivial)
  have piece := range_piece known based given
  rw [← whole] at piece
  refine (admitPages_keeps piece (fun page => .inl rfl) (fun page listed => ?_)
    fun page listed => ?_).bind fun _ _ => piece
  · exact Nat.mul_le_mul_right _ (mem_range'_1.mp listed).1
  have range := touches offset cfg.pageSize_pos pos
  have last := range.end_lt
  have order := range.start_le_end pos
  have bound : page * cfg.pageSize ≤ (offset + len - 1) / cfg.pageSize * cfg.pageSize :=
    Nat.mul_le_mul_right _ (by have := (mem_range'_1.mp listed).2; omega)
  omega

section

variable (order : runStart ≤ runEnd) (inside : runEnd * cfg.pageSize < cfg.blockSize)

include order inside

theorem fetchRun_keeps :
    Keeps archive (fetchRun cfg key (objectKeyFor key layout) base runStart runEnd)
      (archive.FromPage key runStart) := by
  refine execute_keeps ((safe_perform trivial).find (fun fetched given => ?_) trivial)
  have piece := range_piece known based given
  refine (admitPages_keeps piece (fun page => ?_) (fun page listed => ?_)
    fun page listed => ?_).bind fun _ _ => piece
  · simp only [PageEnds, BlockStoreConfig.pageEnd]
    omega
  · exact Nat.mul_le_mul_right _ (mem_range'_1.mp listed).1
  · have bound : page * cfg.pageSize ≤ runEnd * cfg.pageSize :=
      Nat.mul_le_mul_right _ (by have := (mem_range'_1.mp listed).2; omega)
    omega

omit known based in
theorem pagesOfRun_keeps (piece : archive.FromPage key runStart fetched) :
    Keeps archive (pagesOfRun cfg key runStart runEnd fetched)
      (List.Forall₂ (archive.FromPage key) (range' runStart (runEnd - runStart + 1))) := by
  refine Safe.collect _ fun page listed => ?_
  have bounds := mem_range'_1.mp listed
  have small : page < cfg.blockSize := by
    have := Nat.le_mul_of_pos_right runEnd cfg.pageSize_pos
    omega
  refine (pageGet_keeps small).find (fun data right => right ▸ page_prefix) ?_
  have start : runStart * cfg.pageSize ≤ page * cfg.pageSize :=
    Nat.mul_le_mul_right _ bounds.1
  have slice := isPrefix_slice piece (page * cfg.pageSize - runStart * cfg.pageSize)
    (cfg.pageEnd page - page * cfg.pageSize)
  rwa [show runStart * cfg.pageSize + (page * cfg.pageSize - runStart * cfg.pageSize) =
    page * cfg.pageSize by omega] at slice

end

/-- All pages of the range, cached or fetched. -/
theorem fillRuns_keeps {rounds : Nat} (page : Nat) (pages : List (Option (List UInt8)))
    (enough : pages.length ≤ rounds)
    (inside : ∀ last, last < page + pages.length → last * cfg.pageSize < cfg.blockSize)
    (right : ∀ k data, pages[k]? = some (some data) → archive.FromPage key (page + k) data) :
    Keeps archive (fillRuns cfg key (objectKeyFor key layout) base rounds page pages)
      (List.Forall₂ (archive.FromPage key) (range' page pages.length)) := by
  induction rounds generalizing page pages with
  | zero =>
    obtain rfl := length_eq_zero_iff.mp (Nat.le_zero.mp enough)
    exact List.Forall₂.nil
  | succ rounds ih =>
    match pages with
    | [] => exact List.Forall₂.nil
    | some data :: rest =>
      rw [length_cons] at enough inside
      refine (ih (page + 1) rest (by omega)
        (fun last bound => inside last (by omega)) fun k later found => ?_).bind fun more all => ?_
      · have := right (k + 1) later found
        rwa [show page + (k + 1) = page + 1 + k by omega] at this
      · exact List.Forall₂.cons (right 0 data rfl) all
    | none :: rest =>
      rw [length_cons] at enough inside
      have short := IsPrefix.length_le <| takeWhile_prefix (l := rest) isNone
      have last : (page + (rest.takeWhile isNone).length) * cfg.pageSize <
          cfg.blockSize := inside _ (by omega)
      refine (fetchRun_keeps known based (by omega) last).bind fun fetched piece => ?_
      refine (pagesOfRun_keeps (by omega) last piece).bind fun filled run => ?_
      refine (ih (page + (rest.takeWhile isNone).length + 1)
        (rest.drop (rest.takeWhile isNone).length) ?_ (fun last bound => ?_)
        fun k later found => ?_).bind fun more all => ?_
      · rw [length_drop]
        omega
      · rw [length_drop] at bound
        exact inside last (by omega)
      · rw [getElem?_drop] at found
        have := right ((rest.takeWhile isNone).length + k + 1) later found
        rwa [show page + ((rest.takeWhile isNone).length + k + 1) =
          page + (rest.takeWhile isNone).length + 1 + k by omega] at this
      · have joined : List.Forall₂ (archive.FromPage key) (_ ++ _) (filled ++ more) :=
          rel_append run all
        rw [length_drop, Nat.add_sub_cancel_left, Nat.add_assoc page, List.range'_append_1,
          show (rest.takeWhile isNone).length + 1 +
            (rest.length - (rest.takeWhile isNone).length) = rest.length + 1 by omega] at joined
        exact joined

omit known based in
theorem copyPages_keeps (pos : 0 < len) {middleEnd : Nat → Nat}
    (middle : ∀ page < (offset + len - 1) / cfg.pageSize, middleEnd page = cfg.pageSize)
    {pages : List (List UInt8)}
    (right : List.Forall₂ (archive.FromPage key) (range' (offset / cfg.pageSize)
      ((offset + len - 1) / cfg.pageSize - offset / cfg.pageSize + 1)) pages) :
    Keeps archive (copyPages cfg key offset len middleEnd pages)
      (archive.Slice key offset len) := by
  have range := touches offset cfg.pageSize_pos pos
  have order := range.start_le_end pos
  have count := right.length_eq
  rw [length_range'] at count
  have pieces : ∀ k data, pages[k]? = some data →
      data <+: (archive.block key).drop ((offset / cfg.pageSize + k) * cfg.pageSize) := by
    intro k data found
    obtain ⟨bound, same⟩ := List.getElem?_eq_some_iff.mp found
    have piece := right.get (i := k) (by rw [length_range']; omega) bound
    simpa [Archive.FromPage, same] using piece
  have copies := copiesOfPages_spec range pos middle _ (le_rfl) (by omega) pieces
  exact (requireCompleteRead_keeps offset len _).bind fun _ complete =>
    copies.applyPatches_eq range complete

theorem readObjectRange_keeps (pos : 0 < len) (inside : offset + len ≤ cfg.blockSize) :
    Keeps archive (readObjectRange cfg key layout base offset len)
      (archive.Slice key offset len) := by
  have range := touches offset cfg.pageSize_pos pos
  have order := range.start_le_end pos
  have last := range.end_lt
  have small : ∀ page ≤ (offset + len - 1) / cfg.pageSize,
      page * cfg.pageSize < cfg.blockSize := by
    intro page bound
    have := Nat.mul_le_mul_right cfg.pageSize bound
    omega
  refine (Safe.collect (fun page found => ∀ data, found = some data →
    data = archive.page (key, page)) fun page listed => ?_).bind fun pages cached => ?_
  · have bounds := mem_range'_1.mp listed
    apply pageGet_keeps
    have := Nat.le_mul_of_pos_right page cfg.pageSize_pos
    have := small page (by omega)
    omega
  have count := cached.length_eq
  rw [length_range'] at count
  split
  · rename_i direct
    refine (directTargetRead_keeps known based pos direct.1 inside).bind fun fetched piece => ?_
    refine (requireCompleteRead_keeps offset len _).bind fun _ complete => ?_
    refine (afterRangeMiss_keeps layout).bind fun _ _ => ⟨complete, ?_⟩
    have piece : fetched <+: (archive.block key).drop (offset / cfg.pageSize * cfg.pageSize) :=
      piece
    rw [Nat.div_mul_cancel (Nat.dvd_of_mod_eq_zero direct.1)] at piece
    apply IsPrefix.trans ?_ piece
    exact take_prefix _ _
  · have right : ∀ k data, pages[k]? = some (some data) →
        archive.FromPage key (offset / cfg.pageSize + k) data := by
      intro k data found
      obtain ⟨bound, same⟩ := List.getElem?_eq_some_iff.mp found
      have page := cached.get (i := k) (by rw [length_range']; omega) bound data
        (by simpa using same)
      simp only [get_eq_getElem, getElem_range', Nat.one_mul] at page
      rw [page]
      exact page_prefix
    refine (fillRuns_keeps known based _ _ (le_rfl) (fun page bound => small page (by omega))
      right).bind fun filled all => ?_
    rw [← count] at all
    refine (copyPages_keeps pos (fun page bound => ?_) all).bind fun bytes slice => ?_
    · have next : (page + 1) * cfg.pageSize ≤
          (offset + len - 1) / cfg.pageSize * cfg.pageSize := Nat.mul_le_mul_right _ bound
      rw [Nat.add_one_mul] at next
      simp only [BlockStoreConfig.pageEnd]
      omega
    split
    · exact (afterRangeMiss_keeps layout).bind fun _ _ => slice
    · exact slice

end

/-! ### `read_range` -/

theorem readCoalesced_keeps :
    Yields archive (readCoalesced key offset len) (archive.Slice key offset len) := by
  refine getCachedRange_keeps.find (fun _ => forall_found) ?_
  refine safe_call trivial fun found mem => ?_
  match found with
  | none => trivial
  | some none => exact nofun
  | some (some decoded) =>
    simp only
    split
    · trivial
    rename_i first
    have whole : decoded = archive.block key := by
      rw [mem decoded rfl, ← not_ne_iff.mp first]
    subst whole
    cases copied : copyFullCachedRange (archive.block key) offset len with
    | none => trivial
    | some bytes =>
      exact insertOpportunistic_keeps.bind fun _ _ =>
        forall_found (copyFullCachedRange_slice copied)

/-- A promoted slice has the block where it should be. -/
theorem readPersistentSliceCache_keeps (pos : 0 < len)
    (inside : offset + len ≤ cfg.blockSize) :
    Yields archive (readPersistentSliceCache cfg key offset len)
      (archive.Slice key offset len) := by
  unfold readPersistentSliceCache
  split
  · refine safe_call trivial fun found there bytes taken => ?_
    obtain ⟨file, same, taken⟩ := bind_eq_some_iff.mp taken
    have block := archive.slice_eq key.1 file key.2 (there file same)
    unfold copyFullCachedRange at taken
    split at taken
    · cases taken
      have piece := block (by omega)
      constructor
      · rw [length_take, length_drop]
        omega
      · rw [← piece, drop_take, drop_drop]
        exact take_prefix_take_left (by omega)
    · cases taken
  · exact nofun

theorem readWholeBlock_keeps (pos : 0 < len) (layout : Option ObjectLayout) :
    Keeps archive (readWholeBlock cfg codec key offset len layout)
      (archive.Slice key offset len) :=
  (execute_keeps (downloadBlock_keeps layout)).bind fun _ right =>
    copyBlock_keeps pos right

theorem readMissed_keeps (pos : 0 < len) (inside : offset + len ≤ cfg.blockSize) :
    Keeps archive (readMissed cfg codec key offset len) (archive.Slice key offset len) := by
  have range := touches offset cfg.pageSize_pos pos
  have order := range.start_le_end pos
  have last := range.end_lt
  unfold readMissed
  split
  · refine safe_call trivial fun joined _ => ?_
    cases joined with
    | some number =>
      exact (waitForResult_keeps (.read key) number).bind fun _ => copyBlock_keeps pos
    | none =>
      refine (cachedPages_keeps _ ?_).find (fun pages right => ?_) ?_
      · have := Nat.le_mul_of_pos_right ((offset + len - 1) / cfg.pageSize) cfg.pageSize_pos
        omega
      · subst right
        apply copyPages_keeps pos (fun _ _ => rfl)
        rw [forall₂_map_right_iff, forall₂_same]
        exact fun page _ => page_prefix
      refine resolveObjectLayout_keeps.bind fun layout known => ?_
      cases based : rangeBaseOffset layout cfg.compression with
      | some base => exact readObjectRange_keeps known based pos inside
      | none => exact readWholeBlock_keeps pos (some layout)
  · exact readWholeBlock_keeps pos none

theorem readBlockCache_keeps :
    Yields archive (readBlockCache cfg key offset len) (archive.Slice key offset len) := by
  unfold readBlockCache
  split
  · exact cacheGet_keeps.bind fun cached right bytes taken => copied_slice right taken
  · exact getRangeInto_keeps

theorem readBlockRange_keeps (pos : 0 < len) (inside : offset + len ≤ cfg.blockSize) :
    Keeps archive (readBlockRange cfg codec key offset len) (archive.Slice key offset len) := by
  refine readBlockCache_keeps.find (fun _ right => right) ?_
  refine (readPersistentSliceCache_keeps pos inside).find (fun bytes slice => ?_)
    (readMissed_keeps pos inside)
  simp only
  split
  · rename_i full
    have whole : bytes = archive.block key := by
      simp only [BlockStoreConfig.fullBlockRead, Bool.and_eq_true, decide_eq_true_eq] at full
      have fits := archive.fits key
      have piece := slice.2
      rw [full.1, drop_zero] at piece
      exact piece.eq_of_length_le (by have := slice.1; omega)
    subst whole
    exact insertRecentWriteOpportunistic_keeps.bind fun _ _ => slice
  · exact slice

theorem readRange_keeps (inside : offset + len ≤ cfg.blockSize) :
    Keeps archive (readRange cfg codec key offset len) (archive.Slice key offset len) := by
  unfold readRange
  split
  · rename_i empty
    subst empty
    exact ⟨rfl, nil_prefix⟩
  rename_i some
  have pos := Nat.pos_of_ne_zero some
  split
  · exact readCoalesced_keeps.find (fun _ right => right) (readBlockRange_keeps pos inside)
  · exact readBlockRange_keeps pos inside

theorem put_eq {compression : Compression}
    (holds : archive.object (.versioned key) = some (codec.encodePersistedBlock block compression))
    (fits : block.length ≤ cfg.blockSize) : block = archive.block key := by
  obtain ⟨used, same⟩ := archive.framed key _ holds
  have first : codec.decompressFramed (codec.encodePersistedBlock block compression) cfg.blockSize =
      some block := Codec.decompressFramed_encode compression fits
  rw [same, Codec.decompressFramed_encode used (archive.fits key)] at first
  exact (some.inj first).symm

theorem writeFreshVectored_keeps (offset : Nat) (chunks : List (List UInt8)) :
    Keeps archive (writeFreshVectored cfg codec key offset chunks) fun _ => True := by
  unfold writeFreshVectored
  split
  · trivial
  refine safe_call trivial fun stored holds => ?_
  split
  · rename_i done
    have holds := holds done
    cases parsed : parsePersistedHeader (codec.encodePersistedBlock
        (replicate offset 0 ++ chunks.flatten) cfg.compression) with
    | framed compression =>
      refine safe_call (fun same bytes there => ?_) fun _ _ => ?_
      · cases same
        rw [holds] at there
        cases there
        exact parsed
      split
      · rename_i cached
        have whole := put_eq holds cached.2
        refine safe_call whole fun _ _ => ?_
        split
        · exact safe_call whole fun _ _ => trivial
        · trivial
      · trivial
    | incomplete | notFramed | invalid => trivial
  · trivial

end BrewFs.Chunk.ObjectBlockStore
