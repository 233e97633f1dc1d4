import TempoRollup.Lib.Lowest
import TempoRollup.Node.Cache

set_option relaxedAutoImplicit false
set_option autoImplicit false
set_option maxRecDepth 20000

/-!
# Deliveries to the cache

What the cache of blocks holds when blocks are delivered to it in some order and some of them more
than once, and when this depends only on which blocks were delivered.

## Main definitions

* `BlockCache.heights` — the known heights.
* `BlockCache.deliver` — a delivery, with a record of the blocks delivered so far.
* `BlockCache.HoldsLowest` — the cache holds the lowest blocks that were delivered.
* `BlockCache.SparesLast` — a delivery does not cost the cache its last block.

## Main results

* `BlockCache.HoldsLowest.getByHeight_congr` — what the cache holds then depends only on the set of
  the blocks delivered.
* `BlockCache.holdsLowest_iff` — the cache holds the lowest blocks after every delivery exactly if
  no delivery costs it its last block.

## Design

`insert` at capacity removes the last block before it is known whether the height of the new one is
known already.
-/

namespace TempoRollup.Node.BlockCache

variable {P : Primitives}

/-! ## What the cache holds -/

/-- The known heights. -/
def heights (self : BlockCache) : Finset BlockHeight := self.blockHashHeights.keys.toFinset

/-- A delivery: the blocks delivered so far, and the cache. -/
def deliver (P : Primitives) (state : List Block × BlockCache) (block : Block) :
    List Block × BlockCache :=
  (block :: state.1, insert P block state.2)

/-- The heights of the delivered blocks that are not below the confirmed one. -/
def wanted (confirmed : BlockHeight) (delivered : List Block) : Finset BlockHeight :=
  (delivered.map Block.height).toFinset.filter fun height => confirmed ≤ height

/-- **The cache holds the lowest blocks**: the known heights are the lowest ones of the delivered
blocks, as many as there is room for, and the blocks of these heights, and no others, are stored
under their hashes and found by their heights. -/
structure HoldsLowest (P : Primitives) (confirmed : BlockHeight) (room : ℕ) (delivered : List Block)
    (cache : BlockCache) : Prop where
  lowest : Lowest.IsLowest room (wanted confirmed delivered) cache.heights
  blocks : ∀ (hash : CryptoHash) block, cache.blocks[hash]? = some block ↔
    block ∈ delivered ∧ block.hash P = hash ∧ block.height ∈ cache.heights
  getByHeight : ∀ (height : BlockHeight) block, cache.getByHeight height = some block ↔
    block ∈ delivered ∧ block.height = height ∧ height ∈ cache.heights

/-- A delivery does not cost a cache at capacity its last block: the height is new, or no known
height is greater. -/
def SparesLast (self : BlockCache) (block : Block) : Prop :=
  self.AtCapacity → block.height ∈ self.heights → ∀ height ∈ self.heights, height ≤ block.height

/-- It is decidable whether a delivery spares the last block. -/
instance (self : BlockCache) (block : Block) : Decidable (self.SparesLast block) :=
  inferInstanceAs (Decidable (self.maxCacheSize ≤ self.blocks.size → block.height ∈ self.heights →
    ∀ height ∈ self.heights, height ≤ block.height))

/-- There is one block per height. -/
def OnePerHeight (blocks : List Block) : Prop :=
  ∀ b ∈ blocks, ∀ b' ∈ blocks, b.height = b'.height → b = b'

section Holds

variable {confirmed : BlockHeight} {room : ℕ} {delivered delivered' : List Block}
  {self other : BlockCache}

/-- A height is known when it has a hash. -/
lemma mem_heights {height : BlockHeight} :
    height ∈ self.heights ↔ ∃ hash, self.blockHashHeights[height]? = some hash :=
  Indexed.mem_keys_iff

/-- A height is wanted when a block of it was delivered and it is not below the confirmed one. -/
lemma mem_wanted {height : BlockHeight} :
    height ∈ wanted confirmed delivered ↔
      (∃ block ∈ delivered, block.height = height) ∧ confirmed ≤ height := by
  rw [wanted, Finset.mem_filter, List.mem_toFinset, List.mem_map]

/-- **The content depends only on the set delivered**, not on the order or on repetitions. -/
theorem HoldsLowest.getByHeight_congr (h : HoldsLowest P confirmed room delivered self)
    (h' : HoldsLowest P confirmed room delivered' other)
    (hsame : ∀ block, block ∈ delivered ↔ block ∈ delivered') (height : BlockHeight) :
    self.getByHeight height = other.getByHeight height := by
  have hwanted : wanted confirmed delivered = wanted confirmed delivered' := by
    ext height
    simp only [mem_wanted, hsame]
  have hheights : self.heights = other.heights := by
    have hlowest := h.lowest
    rw [hwanted] at hlowest
    exact hlowest.unique h'.lowest
  apply Option.ext
  intro block
  rw [h.getByHeight, h'.getByHeight, hsame, hheights]

/-- A block below the confirmed height is not wanted. -/
lemma wanted_cons_of_lt {block : Block} (hold : block.height < confirmed) :
    wanted confirmed (block :: delivered) = wanted confirmed delivered := by
  rw [wanted, List.map_cons, List.toFinset_cons, Finset.filter_insert, if_neg (not_le.2 hold)]
  rfl

/-- A further block that is not below the confirmed height has its height wanted. -/
lemma wanted_cons_of_le {block : Block} (hheight : confirmed ≤ block.height) :
    wanted confirmed (block :: delivered) =
      Insert.insert block.height (wanted confirmed delivered) := by
  rw [wanted, List.map_cons, List.toFinset_cons, Finset.filter_insert, if_pos hheight]
  rfl

/-- Storing a block makes its height known. -/
lemma heights_store (block : Block) :
    (self.store P block).heights = Insert.insert block.height self.heights := by
  ext height
  rw [mem_heights, Finset.mem_insert, mem_heights]
  change (∃ hash, (self.blockHashHeights.insert block.height (block.hash P))[height]? =
    some hash) ↔ _
  rw [Std.TreeMap.getElem?_insert]
  split_ifs with heq
  · rw [Std.LawfulEqCmp.compare_eq_iff_eq] at heq
    exact iff_of_true ⟨_, rfl⟩ (.inl heq.symm)
  · rw [Std.LawfulEqCmp.compare_eq_iff_eq] at heq
    exact ⟨.inr, fun h => h.resolve_left fun h => heq h.symm⟩

/-- Erasing a height makes it unknown. -/
lemma heights_erase (blocks : Std.TreeMap CryptoHash Block) (last : BlockHeight) :
    ({ self with
      blocks := blocks
      blockHashHeights := self.blockHashHeights.erase last } : BlockCache).heights =
        self.heights.erase last := by
  ext height
  rw [mem_heights, Finset.mem_erase, mem_heights]
  change (∃ hash, (self.blockHashHeights.erase last)[height]? = some hash) ↔ _
  rw [Std.TreeMap.getElem?_erase]
  split_ifs with heq
  · rw [Std.LawfulEqCmp.compare_eq_iff_eq] at heq
    exact iff_of_false (fun h => by obtain ⟨_, h⟩ := h; cases h) fun h => h.1 heq.symm
  · rw [Std.LawfulEqCmp.compare_eq_iff_eq] at heq
    exact ⟨fun h => ⟨fun h => heq h.symm, h⟩, fun h => h.2⟩

end Holds

/-! ## One delivery -/

section Deliveries

variable {blocks : Set Block} {self : BlockCache} {block : Block}

/-- `insert` leaves the capacity as it is. -/
lemma maxCacheSize_insert (block : Block) :
    (insert P block self).maxCacheSize = self.maxCacheSize := by
  have hremove : ∀ (cache : BlockCache) hash,
      (cache.remove hash).maxCacheSize = cache.maxCacheSize := by
    intro cache hash
    unfold remove
    split <;> rfl
  unfold insert
  dsimp only
  split_ifs
  · rfl
  · rfl
  · exact hremove _ _
  · rfl

/-- A cache is at capacity when it knows as many heights. -/
lemma Stored.atCapacity_iff (h : Stored P blocks self) :
    self.AtCapacity ↔ self.maxCacheSize ≤ self.heights.card := by
  rw [AtCapacity, heights, Indexed.card_keys, h.bijection.size_eq]

/-- **The known heights after `insert`.** -/
lemma Stored.heights_insert_cases (h : Stored P blocks self) (block : Block) :
    (block.height < self.height ∧ (insert P block self).heights = self.heights) ∨
    (self.height ≤ block.height ∧ self.AtCapacity ∧
      (∀ height ∈ self.heights, height < block.height) ∧
      (insert P block self).heights = self.heights) ∨
    (self.height ≤ block.height ∧ ¬ self.AtCapacity ∧
      (insert P block self).heights = Insert.insert block.height self.heights) ∨
    (self.height ≤ block.height ∧ self.AtCapacity ∧
      ∃ last ∈ self.heights, (∀ height ∈ self.heights, height ≤ last) ∧ block.height ≤ last ∧
        (insert P block self).heights =
          Insert.insert block.height (self.heights.erase last)) := by
  rcases @insert_cases P self block h.bijection.found h.exists_known with
    ⟨hold, heq⟩ | ⟨hheight, hfull, hbeyond, heq⟩ | ⟨hheight, hroom, heq⟩ |
      ⟨hheight, hfull, hash, last, hlast, -, hle, hlow, heq, hremoved⟩
  · exact .inl ⟨hold, by rw [heq]⟩
  · refine .inr (.inl ⟨hheight, hfull, fun height hknown => ?_, by rw [heq]; rfl⟩)
    obtain ⟨hash, hh⟩ := mem_heights.1 hknown
    exact hbeyond height hash hh
  · refine .inr (.inr (.inl ⟨hheight, hroom, ?_⟩))
    rw [heq, heights_store]
    rfl
  · refine .inr (.inr (.inr ⟨hheight, hfull, last.height, mem_heights.2 ⟨hash, hlast⟩, ?_, hlow,
      ?_⟩))
    · intro height hknown
      obtain ⟨hash', hh⟩ := mem_heights.1 hknown
      exact hle height hash' hh
    · rw [heq, hremoved, heights_store]
      exact congrArg (Insert.insert block.height) (@heights_erase (self.see block) _ last.height)

/-- The invariant of the deliveries, all of them among the given blocks. -/
structure Kept (P : Primitives) (all : List Block) (confirmed : BlockHeight) (room : ℕ)
    (state : List Block × BlockCache) : Prop where
  stored : Stored P {block | block ∈ state.1} state.2
  among : ∀ block ∈ state.1, block ∈ all
  lowest : Lowest.IsLowest room (wanted confirmed state.1) state.2.heights
  height_eq : state.2.height = confirmed
  size_eq : state.2.maxCacheSize = room

variable {all : List Block} {confirmed : BlockHeight} {room : ℕ} {state : List Block × BlockCache}

/-- A known height is that of a stored block. -/
lemma Kept.exists_block (h : Kept P all confirmed room state) {height : BlockHeight}
    {hash : CryptoHash} (hknown : state.2.blockHashHeights[height]? = some hash) :
    ∃ block ∈ state.1, block.height = height ∧ block.hash P = hash ∧
      state.2.blocks[hash]? = some block := by
  obtain ⟨block, hblock, hheight⟩ := h.stored.bijection.found _ _ hknown
  exact ⟨block, h.stored.known _ _ hblock, hheight, (h.stored.bijection.indexed _ _ hblock).1,
    hblock⟩

/-- Under the invariant, the cache holds the lowest blocks. -/
lemma Kept.holdsLowest (h : Kept P all confirmed room state) (hone : OnePerHeight all) :
    HoldsLowest P confirmed room state.1 state.2 := by
  refine ⟨h.lowest, fun hash block => ⟨fun hblock => ?_, ?_⟩, fun height block => ?_⟩
  · obtain ⟨hhash, hindex⟩ := h.stored.bijection.indexed _ _ hblock
    exact ⟨h.stored.known _ _ hblock, hhash, mem_heights.2 ⟨hash, hindex⟩⟩
  · rintro ⟨hmem, rfl, hknown⟩
    obtain ⟨hash, hindex⟩ := mem_heights.1 hknown
    obtain ⟨block', hmem', hheight, rfl, hblock'⟩ := h.exists_block hindex
    rw [hone block' (h.among _ hmem') block (h.among _ hmem) hheight] at hblock'
    exact hblock'
  · unfold BlockCache.getByHeight
    rcases hindex : state.2.blockHashHeights[height]? with _ | hash
    · refine iff_of_false (fun h => by cases h) ?_
      rintro ⟨-, -, hknown⟩
      obtain ⟨hash, hh⟩ := mem_heights.1 hknown
      rw [hindex] at hh
      cases hh
    · obtain ⟨block', hmem', hheight, -, hblock'⟩ := h.exists_block hindex
      rw [Option.bind_some, hblock', Option.some.injEq]
      constructor
      · rintro rfl
        exact ⟨hmem', hheight, mem_heights.2 ⟨hash, hindex⟩⟩
      · rintro ⟨hmem, hheight', -⟩
        exact hone block' (h.among _ hmem') block (h.among _ hmem) (hheight.trans hheight'.symm)

/-- **The step of a delivery**: exactly those that spare the last block keep the lowest ones. -/
lemma Kept.deliver_iff (h : Kept P all confirmed room state) (hone : OnePerHeight all)
    (hhash : HashesTellHeights P {block | block ∈ all}) (hblock : block ∈ all) :
    (state.2.SparesLast block → Kept P all confirmed room (deliver P state block)) ∧
      (HoldsLowest P confirmed room (deliver P state block).1 (deliver P state block).2 →
        state.2.SparesLast block) := by
  have hamong : ∀ b ∈ block :: state.1, b ∈ all := List.forall_mem_cons.2 ⟨hblock, h.among⟩
  -- there is no other block at the height, so the maps stay in bijection
  have hstored : Stored P {b | b ∈ block :: state.1} (insert P block state.2) := by
    refine (Stored.insert_iff ⟨h.stored.toSynced, fun hash b hb =>
      List.mem_cons_of_mem _ (h.stored.known hash b hb), h.stored.size_pos⟩
      (fun b hb b' hb' => hhash b (hamong b hb) b' (hamong b' hb')) List.mem_cons_self).1
        (.inr (.inl fun hash hh => ?_))
    obtain ⟨b, hb, hheight, rfl, -⟩ := h.exists_block hh
    rw [hone b (h.among _ hb) block hblock hheight]
  have hkept : Lowest.IsLowest room (wanted confirmed (block :: state.1))
      (insert P block state.2).heights → Kept P all confirmed room (deliver P state block) :=
    fun hlowest => ⟨hstored, hamong, hlowest, (height_insert block).trans h.height_eq,
      (maxCacheSize_insert block).trans h.size_eq⟩
  have hcapacity := h.stored.atCapacity_iff
  rw [h.size_eq] at hcapacity
  have hlowest := h.lowest
  rcases h.stored.heights_insert_cases block with ⟨hold, heq⟩ | ⟨hheight, hfull, hbeyond, heq⟩ |
      ⟨hheight, hroom, heq⟩ | ⟨hheight, hfull, last, hlast, hmax, hle, heq⟩
  · -- an old block: its height is not known
    rw [h.height_eq] at hold
    refine ⟨fun _ => hkept ?_, fun _ _ hknown => ?_⟩
    · rw [heq, wanted_cons_of_lt hold]
      exact hlowest
    · exact absurd (mem_wanted.1 (hlowest.subset hknown)).2 (not_le.2 hold)
  · rw [h.height_eq] at hheight
    refine ⟨fun _ => hkept ?_, fun _ _ _ height hknown => (hbeyond height hknown).le⟩
    rw [heq, wanted_cons_of_le hheight]
    exact hlowest.insert_beyond (hcapacity.1 hfull) hbeyond
  · rw [h.height_eq] at hheight
    refine ⟨fun _ => hkept ?_, fun _ hfull => absurd hfull hroom⟩
    rw [heq, wanted_cons_of_le hheight]
    exact hlowest.insert_of_lt (not_le.1 fun hle => hroom (hcapacity.2 hle)) block.height
  · -- the last block makes place
    rw [h.height_eq] at hheight
    have hiff := hlowest.insert_erase_iff (hcapacity.1 hfull) hlast hmax hle
    rw [← wanted_cons_of_le hheight, ← heq] at hiff
    refine ⟨fun hspares => hkept (hiff.2 fun hknown => ?_),
      fun hholds _ hknown height hheight' => ?_⟩
    · exact le_antisymm hle (hspares hfull hknown last hlast)
    · rw [hiff.1 hholds.lowest hknown]
      exact hmax height hheight'

end Deliveries

/-! ## All deliveries -/

section Runs

variable {start : Block} {room : ℕ}

/-- A new cache holds its first block. -/
lemma kept_new {all : List Block} (hroom : 0 < room) (hstart : start ∈ all)
    (hhash : HashesTellHeights P {block | block ∈ all}) :
    Kept P all start.height room ([start], new P start room) := by
  have hsub : HashesTellHeights P {block | block ∈ [start]} := by
    intro b hb b' hb'
    rw [List.mem_singleton.1 hb, List.mem_singleton.1 hb']
    exact hhash start hstart start hstart
  refine ⟨stored_new hroom hsub (List.mem_singleton.2 rfl), fun b hb => ?_, ?_, ?_, ?_⟩
  · rw [List.mem_singleton.1 hb]
    exact hstart
  · have hwanted : wanted start.height [start] = {start.height} := by
      rw [wanted_cons_of_le le_rfl]
      rfl
    have hheights : (new P start room).heights = {start.height} := by
      rw [new_eq hroom, heights_store]
      rfl
    rw [hwanted, hheights]
    exact Lowest.isLowest_singleton hroom start.height
  · rw [new_eq hroom]
    rfl
  · rw [new_eq hroom]
    rfl

/-- A cache without room that holds nothing, above height zero. -/
structure Void (confirmed : BlockHeight) (state : List Block × BlockCache) : Prop where
  height_eq : state.2.height = confirmed
  size_eq : state.2.maxCacheSize = 0
  blocks_eq : state.2.blocks = ∅
  heights_eq : state.2.blockHashHeights = ∅

/-- A cache without blocks holds the lowest ones while none is wanted. -/
lemma Void.holdsLowest {confirmed : BlockHeight} {state : List Block × BlockCache}
    (h : Void confirmed state) : HoldsLowest P confirmed 0 state.1 state.2 := by
  have hheights : state.2.heights = ∅ := by
    rw [heights, h.heights_eq]
    rfl
  refine ⟨?_, fun hash block => ?_, fun height block => ?_⟩
  · rw [hheights]
    exact Lowest.isLowest_zero _
  · rw [h.blocks_eq, hheights]
    simp
  · rw [BlockCache.getByHeight, h.heights_eq, hheights]
    simp

/-- An empty map has no greatest entry. -/
lemma maxEntry_empty :
    Std.TreeMap.maxEntry? (∅ : Std.TreeMap BlockHeight CryptoHash) = none := by
  rw [Indexed.maxEntry?_eq_getLast?]
  rfl

/-- What a cache without room does with a block above height zero. -/
lemma insert_of_void {self : BlockCache} {block : Block} (hsize : self.maxCacheSize = 0)
    (hheights : self.blockHashHeights = ∅) (hpos : 0 < block.height) :
    insert P block self = self ∨ insert P block self = self.see block := by
  unfold insert see
  split_ifs
  · exact .inl rfl
  · refine .inr ?_
    simp only [hheights, maxEntry_empty, hsize, Option.getD_none, ge_iff_le, Nat.zero_le,
      decide_true, Bool.true_and, hpos, if_true]

/-- Without room, every delivery leaves the cache without blocks. -/
lemma Void.deliver {confirmed : BlockHeight} {state : List Block × BlockCache}
    (h : Void confirmed state) (hpos : 0 < confirmed) (block : Block) :
    Void confirmed (deliver P state block) := by
  by_cases hold : block.height < state.2.height
  · have heq : insert P block state.2 = state.2 := by
      unfold insert
      rw [if_pos hold]
    rw [BlockCache.deliver, heq]
    exact ⟨h.height_eq, h.size_eq, h.blocks_eq, h.heights_eq⟩
  · have hheight : 0 < block.height := by
      rw [h.height_eq, not_lt] at hold
      exact hpos.trans_le hold
    rcases @insert_of_void P _ block h.size_eq h.heights_eq hheight with heq | heq
    · rw [BlockCache.deliver, heq]
      exact ⟨h.height_eq, h.size_eq, h.blocks_eq, h.heights_eq⟩
    · rw [BlockCache.deliver, heq]
      exact ⟨h.height_eq, h.size_eq, h.blocks_eq, h.heights_eq⟩

/-- A cache before its first block. -/
def beforeStart (start : Block) (room : ℕ) : BlockCache where
  height := start.height
  maxHeight := start.height
  blocks := ∅
  blockHashHeights := ∅
  maxCacheSize := room

/-- A new cache without room is empty above height zero. -/
lemma void_new (hpos : 0 < start.height) : Void start.height ([start], new P start 0) := by
  rcases @insert_of_void P (beforeStart start 0) start rfl rfl hpos with heq | heq
  · rw [show new P start 0 = _ from heq]
    exact ⟨rfl, rfl, rfl, rfl⟩
  · rw [show new P start 0 = _ from heq]
    exact ⟨rfl, rfl, rfl, rfl⟩

/-- At height zero it holds its first block all the same. -/
lemma heights_new_zero (hzero : start.height = 0) : (new P start 0).heights = {0} := by
  have hnew : new P start 0 = (beforeStart start 0).store P start := by
    have hmax : Std.TreeMap.maxEntry? (beforeStart start 0).blockHashHeights = none :=
      maxEntry_empty
    change insert P start (beforeStart start 0) = _
    unfold insert
    rw [if_neg (show ¬ (beforeStart start 0).height > start.height from lt_irrefl _)]
    simp only [hmax, Option.getD_none, hzero, gt_iff_lt, lt_irrefl, decide_false, Bool.and_false,
      Bool.false_eq_true, if_false]
    rw [hzero.symm]
    simp [beforeStart, store, remove]
  rw [hnew, heights_store, hzero]
  rfl

/-- **Deliveries.** Blocks with one block per height are delivered to a cache, in any order and any
number of times. After each delivery the cache holds the lowest of them exactly if it has room for
a block, or starts above height zero, and no delivery costs it its last block.

**Proof sketch.** By `Runs.forall_states_iff`, with the invariant `Kept` for a cache with room and
`Void` for one without. Without room and from height zero the first state already fails, as the
cache holds the block it started from. -/
theorem holdsLowest_iff (deliveries : List Block) (hone : OnePerHeight (start :: deliveries))
    (hhash : HashesTellHeights P {block | block ∈ start :: deliveries}) :
    (∀ state ∈ Runs.states (deliver P) ([start], new P start room) deliveries,
        HoldsLowest P start.height room state.1 state.2) ↔
      (room ≠ 0 ∨ start.height ≠ 0) ∧
        Runs.Along (deliver P) (fun state block => state.2.SparesLast block)
          ([start], new P start room) deliveries := by
  rcases Nat.eq_zero_or_pos room with rfl | hroom
  · by_cases hzero : start.height = 0
    · refine iff_of_false (fun h => ?_) fun h => h.1.elim (fun h => h rfl) fun h => h hzero
      have hcard := (h _ (Runs.self_mem_states _ _)).lowest.card_eq
      rw [heights_new_zero hzero, Finset.card_singleton, Nat.zero_min] at hcard
      cases hcard
    · -- nothing is ever stored
      have hpos : 0 < start.height := Nat.pos_of_ne_zero hzero
      rw [and_iff_right (.inr hzero)]
      refine @Runs.forall_states_iff _ _ (deliver P) (Void start.height)
        (fun state => HoldsLowest P start.height 0 state.1 state.2) _ (fun _ => True)
        (fun state h => h.holdsLowest) (fun state block _ h _ => h.deliver hpos block)
        (fun state block _ h _ _ hknown => ?_) _ (void_new hpos) deliveries fun _ _ => trivial
      rw [heights, h.heights_eq] at hknown
      cases hknown
  · rw [and_iff_right (.inl hroom.ne')]
    refine @Runs.forall_states_iff _ _ (deliver P) (Kept P (start :: deliveries) start.height room)
      (fun state => HoldsLowest P start.height room state.1 state.2) _
      (fun block => block ∈ start :: deliveries) (fun state h => h.holdsLowest hone)
      (fun state block hblock h => (h.deliver_iff hone hhash hblock).1)
      (fun state block hblock h => (h.deliver_iff hone hhash hblock).2) _
      (kept_new hroom List.mem_cons_self hhash) deliveries
      fun block hblock => List.mem_cons_of_mem _ hblock

end Runs

/-! ### The first block comes again -/

namespace Sample

/-- The first block and a block of height one. -/
def twoBlocks : List Block := [.genesis, emptyBlock 1 0, .genesis]

/-- The two blocks have different heights. -/
lemma onePerHeight_twoBlocks : OnePerHeight twoBlocks := by
  unfold OnePerHeight
  decide

/-- Their hashes tell their heights. -/
lemma hashesTellHeights_twoBlocks :
    HashesTellHeights primitives {block | block ∈ twoBlocks} := by
  change ∀ b ∈ twoBlocks, ∀ b' ∈ twoBlocks, b.hash primitives = b'.hash primitives →
    b.height = b'.height
  decide

end Sample

/-- With room for three blocks it does no harm. -/
theorem holdsLowest_iff_twoBlocks :
    HashesTellHeights Sample.primitives
        {block | block ∈ .genesis :: [Sample.emptyBlock 1 0, .genesis]} ∧
      ∀ state ∈ Runs.states (deliver Sample.primitives)
          ([.genesis], new Sample.primitives .genesis 3) [Sample.emptyBlock 1 0, .genesis],
        HoldsLowest Sample.primitives 0 3 state.1 state.2 := by
  refine ⟨Sample.hashesTellHeights_twoBlocks, ?_⟩
  refine (holdsLowest_iff [Sample.emptyBlock 1 0, .genesis] Sample.onePerHeight_twoBlocks
    Sample.hashesTellHeights_twoBlocks).2 ⟨by decide, ?_, ?_, trivial⟩
  · decide
  · decide

/-- **A block that is lost.** With room for two blocks, the first block comes again when both are
there, and the other one is gone. -/
theorem not_holdsLowest_of_redelivery :
    OnePerHeight (.genesis :: [Sample.emptyBlock 1 0, .genesis]) ∧
      HashesTellHeights Sample.primitives
        {block | block ∈ .genesis :: [Sample.emptyBlock 1 0, .genesis]} ∧
      ¬ ∀ state ∈ Runs.states (deliver Sample.primitives)
          ([.genesis], new Sample.primitives .genesis 2) [Sample.emptyBlock 1 0, .genesis],
        HoldsLowest Sample.primitives 0 2 state.1 state.2 := by
  refine ⟨Sample.onePerHeight_twoBlocks, Sample.hashesTellHeights_twoBlocks, fun h => ?_⟩
  have hfirst := (Kept.deliver_iff (kept_new (by decide) List.mem_cons_self
    Sample.hashesTellHeights_twoBlocks) Sample.onePerHeight_twoBlocks
    Sample.hashesTellHeights_twoBlocks (List.mem_cons_of_mem _ List.mem_cons_self)).1
      (show (new Sample.primitives .genesis 2).SparesLast (Sample.emptyBlock 1 0) by decide)
  have hsecond := (hfirst.deliver_iff Sample.onePerHeight_twoBlocks
    Sample.hashesTellHeights_twoBlocks List.mem_cons_self).2 (h _ (Runs.foldl_mem_states _ _))
  exact absurd hsecond (by decide)

end TempoRollup.Node.BlockCache
