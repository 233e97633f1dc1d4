import TempoRollup.Lib.Indexed
import TempoRollup.Lib.Runs
import TempoRollup.Node.Block

set_option relaxedAutoImplicit false
set_option autoImplicit false
set_option maxRecDepth 20000

/-!
# The block cache

`node/src/cache.rs`: the last confirmed block and the blocks received beyond it, by hash and by
height.

## Main definitions

* `BlockCache`, `BlockCache.insert`, `BlockCache.confirm`, `BlockCache.remove`.
* `BlockCache.getRange`, `BlockCache.isOutOfSync`, `BlockCache.getNextCommitBlock`.

## Main results

* `BlockCache.isOutOfSync_isPanic` — when it panics.
* `BlockCache.Anchored.keeps_of_getNextCommitBlock` — the tick loop meets the condition of its calls.
-/

open Exec

namespace TempoRollup.Node

/-- `BlockCache`. -/
structure BlockCache where
  height : BlockHeight
  maxHeight : BlockHeight
  blocks : Std.TreeMap CryptoHash Block
  blockHashHeights : Std.TreeMap BlockHeight CryptoHash
  maxCacheSize : ℕ

namespace BlockCache

variable {ε : Type} (P : Primitives)

/-- `remove`. -/
def remove (hash : CryptoHash) (self : BlockCache) : BlockCache :=
  match self.blocks[hash]? with
  | none => self
  | some block =>
    { self with
      blocks := self.blocks.erase hash
      blockHashHeights := self.blockHashHeights.erase block.height }

/-- `insert`. -/
def insert (block : Block) (self : BlockCache) : BlockCache :=
  -- old blocks are not added
  if self.height > block.height then self
  else
    let self := { self with maxHeight := max self.maxHeight block.height }
    let (maxHeight, maxHash) := self.blockHashHeights.maxEntry?.getD (0, 0)
    let cacheAtCapacity : Bool := self.blocks.size ≥ self.maxCacheSize
    if cacheAtCapacity && block.height > maxHeight then self
    else
      let self := if cacheAtCapacity then self.remove maxHash else self
      { self with
        blockHashHeights := self.blockHashHeights.insert block.height (block.hash P)
        blocks := self.blocks.insert (block.hash P) block }

/-- `BlockCache::new`. -/
def new (startBlock : Block) (maxCacheSize : ℕ) : BlockCache :=
  insert P startBlock
    { height := startBlock.height
      maxHeight := startBlock.height
      blocks := ∅
      blockHashHeights := ∅
      maxCacheSize := maxCacheSize }

/-- The removal of one height, in `confirm`. -/
def removeHeight (self : BlockCache) (height : BlockHeight) : BlockCache :=
  match self.blockHashHeights[height]? with
  | none => self
  | some hash =>
    { self with
      blockHashHeights := self.blockHashHeights.erase height
      blocks := self.blocks.erase hash }

/-- `confirm`. -/
def confirm (height : BlockHeight) (self : BlockCache) : BlockCache :=
  let heightsToRemove := self.blockHashHeights.keys.filter fun h => h < height
  heightsToRemove.foldl removeHeight { self with height := height }

/-- `hash`, of the confirmed block. -/
def hash (self : BlockCache) : Outcome ε CryptoHash :=
  Outcome.ofOption self.blockHashHeights[self.height]?

/-- `get_range`: the range of a map panics when it is inverted. -/
def getRange (start stop : BlockHeight) (self : BlockCache) : Outcome ε (List Block) :=
  if start > stop then .panic
  else
    .ok <| (self.blockHashHeights.toList.filter fun entry =>
      start ≤ entry.1 ∧ entry.1 < stop).filterMap
      fun entry => self.blocks[entry.2]?

/-- `get_by_height`. -/
def getByHeight (height : BlockHeight) (self : BlockCache) : Option Block :=
  self.blockHashHeights[height]?.bind fun hash => self.blocks[hash]?

/-- `is_out_of_sync`. -/
def isOutOfSync (self : BlockCache) : Outcome ε Bool :=
  match self.blockHashHeights.maxKey? with
  | none => .panic
  | some last =>
    if self.maxHeight > last then .ok true
    else
      let start := self.height.next
      .ok <| (List.range' start (self.maxHeight + 1 - start)).any fun height =>
        !self.blockHashHeights.contains height

/-- `get_next_commit_block`. -/
def getNextCommitBlock (self : BlockCache) : Option Block := self.getByHeight self.height.next

/-- `is_out_of_sync` panics exactly when no height is known. -/
theorem isOutOfSync_isPanic (self : BlockCache) :
    (self.isOutOfSync : Outcome ε Bool).isPanic = self.blockHashHeights.isEmpty := by
  have hmax : self.blockHashHeights.isEmpty = self.blockHashHeights.maxKey?.isNone := by
    rw [Bool.eq_iff_iff, Option.isNone_iff_eq_none, Std.TreeMap.maxKey?_eq_none_iff]
  rw [hmax]
  unfold isOutOfSync
  cases self.blockHashHeights.maxKey? with
  | none => rfl
  | some last =>
    simp only
    split <;> rfl

/-! ## What a call changes -/

section Calls

variable {P}

/-- The end of `insert`: the block is stored by its hash, and its hash by its height. -/
def store (P : Primitives) (block : Block) (self : BlockCache) : BlockCache :=
  { self with
    blockHashHeights := self.blockHashHeights.insert block.height (block.hash P)
    blocks := self.blocks.insert (block.hash P) block }

/-- The cache has seen the height of a block. -/
def see (block : Block) (self : BlockCache) : BlockCache :=
  { self with maxHeight := max self.maxHeight block.height }

/-- The cache is at capacity. -/
def AtCapacity (self : BlockCache) : Prop := self.maxCacheSize ≤ self.blocks.size

/-- Each known height leads to a block of that height. -/
abbrev Found (self : BlockCache) : Prop :=
  Indexed.Found Block.height self.blocks self.blockHashHeights

variable {self : BlockCache} {block : Block}

/-- **What `insert` does**, when a cache at capacity knows some height: an old block is dropped;
at capacity, a block beyond all others is only seen, and any other takes the place of the last
one.

**Proof sketch.** By the branches of `insert`: whether the block is old, whether the cache is at
capacity, and whether the block is beyond the last known height. -/
lemma insert_cases (hfound : self.Found)
    (hknown : self.AtCapacity →
      ∃ (h : BlockHeight) (hash : CryptoHash), self.blockHashHeights[h]? = some hash) :
    (block.height < self.height ∧ insert P block self = self) ∨
    (self.height ≤ block.height ∧ self.AtCapacity ∧
      (∀ (h : BlockHeight) hash, self.blockHashHeights[h]? = some hash → h < block.height) ∧
      insert P block self = self.see block) ∨
    (self.height ≤ block.height ∧ ¬ self.AtCapacity ∧
      insert P block self = (self.see block).store P block) ∨
    (self.height ≤ block.height ∧ self.AtCapacity ∧
      ∃ (hash : CryptoHash) (last : Block), self.blockHashHeights[last.height]? = some hash ∧
        self.blocks[hash]? = some last ∧
        (∀ (h : BlockHeight) hash, self.blockHashHeights[h]? = some hash → h ≤ last.height) ∧
        block.height ≤ last.height ∧
        insert P block self = ((self.see block).remove hash).store P block ∧
        (self.see block).remove hash = { self.see block with
          blocks := self.blocks.erase hash
          blockHashHeights := self.blockHashHeights.erase last.height }) := by
  by_cases hold : block.height < self.height
  · refine .inl ⟨hold, ?_⟩
    unfold insert
    rw [if_pos hold]
  rw [not_lt] at hold
  by_cases hfull : self.AtCapacity
  · have hcap : decide (self.blocks.size ≥ self.maxCacheSize) = true := decide_eq_true hfull
    obtain ⟨known, knownHash, hknown⟩ := hknown hfull
    have hmax : ∃ entry, self.blockHashHeights.maxEntry? = some entry := by
      rcases hentry : self.blockHashHeights.maxEntry? with _ | entry
      · rw [Indexed.getElem?_of_maxEntry?_eq_none hentry] at hknown
        cases hknown
      · exact ⟨entry, rfl⟩
    obtain ⟨⟨maxHeight, maxHash⟩, hentry⟩ := hmax
    obtain ⟨hlast, hbound⟩ := Indexed.of_maxEntry?_eq_some hentry
    have hle : ∀ (h : BlockHeight) hash, self.blockHashHeights[h]? = some hash → h ≤ maxHeight := by
      intro h hash hh
      rcases hbound h hash hh with rfl | hlt
      · exact le_refl _
      · exact (Nat.compare_eq_lt.1 hlt).le
    by_cases hbeyond : maxHeight < block.height
    · refine .inr (.inl ⟨hold, hfull, fun h hash hh => (hle h hash hh).trans_lt hbeyond, ?_⟩)
      unfold insert see
      rw [if_neg (not_lt.2 hold)]
      simp only [hentry, Option.getD_some, hcap, Bool.true_and, hbeyond, decide_true, if_true]
    · obtain ⟨last, hblock, rfl⟩ := hfound maxHeight maxHash hlast
      refine .inr (.inr (.inr ⟨hold, hfull, maxHash, last, hlast, hblock, hle,
        not_lt.1 hbeyond, ?_, ?_⟩))
      · unfold insert see store
        rw [if_neg (not_lt.2 hold)]
        simp only [hentry, Option.getD_some, hcap, Bool.true_and, hbeyond, decide_false,
          Bool.false_eq_true, if_false, if_true]
      · unfold remove see
        rw [hblock]
  · refine .inr (.inr (.inl ⟨hold, hfull, ?_⟩))
    have hcap : decide (self.blocks.size ≥ self.maxCacheSize) = false := decide_eq_false hfull
    unfold insert see store
    rw [if_neg (not_lt.2 hold)]
    simp only [hcap, Bool.false_and, Bool.false_eq_true, if_false]

/-- `insert` and `remove` leave the confirmed height as it is. -/
lemma height_remove (hash : CryptoHash) : (self.remove hash).height = self.height := by
  unfold remove
  split <;> rfl

/-- An insertion does not change the confirmed height. -/
lemma height_insert (block : Block) : (insert P block self).height = self.height := by
  unfold insert
  dsimp only
  split_ifs
  · rfl
  · rfl
  · exact height_remove _
  · rfl

/-- **The first block** is stored in a cache with room for it. -/
lemma new_eq {startBlock : Block} {maxCacheSize : ℕ} (hsize : 0 < maxCacheSize) :
    new P startBlock maxCacheSize =
      ({ height := startBlock.height, maxHeight := startBlock.height, blocks := ∅,
         blockHashHeights := ∅,
         maxCacheSize := maxCacheSize } : BlockCache).store P startBlock := by
  have hcap : decide ((∅ : Std.TreeMap CryptoHash Block).size ≥ maxCacheSize) = false := by
    rw [decide_eq_false_iff_not, Std.TreeMap.size_emptyc]
    omega
  unfold new insert store
  rw [if_neg (lt_irrefl _)]
  simp only [hcap, Bool.false_and, Bool.false_eq_true, if_false, max_self]

/-- What is known after the removal of a height. -/
lemma getElem?_removeHeight (height h : BlockHeight) :
    (self.removeHeight height).blockHashHeights[h]? =
      if height = h then none else self.blockHashHeights[h]? := by
  unfold removeHeight
  split
  · next hnone =>
    split_ifs with heq
    · rw [← heq, hnone]
    · rfl
  · rw [Std.TreeMap.getElem?_erase]
    simp only [Std.LawfulEqCmp.compare_eq_iff_eq]

/-- The removal of a height changes the two maps only. -/
lemma removeHeight_frame (height : BlockHeight) :
    (self.removeHeight height).height = self.height ∧
      (self.removeHeight height).maxHeight = self.maxHeight ∧
      (self.removeHeight height).maxCacheSize = self.maxCacheSize := by
  unfold removeHeight
  split <;> exact ⟨rfl, rfl, rfl⟩

/-- The removal of a height is the removal of a block, when the height leads to one. -/
lemma removeHeight_eq (hfound : self.Found) (height : BlockHeight) :
    self.removeHeight height = self ∨
      ∃ hash block, self.blocks[hash]? = some block ∧
        self.removeHeight height = { self with
          blocks := self.blocks.erase hash
          blockHashHeights := self.blockHashHeights.erase block.height } := by
  unfold removeHeight
  split
  · exact .inl rfl
  · next hash hhash =>
    obtain ⟨block, hblock, rfl⟩ := hfound height hash hhash
    exact .inr ⟨hash, block, hblock, rfl⟩

/-- **What is known after `confirm`**: the heights from the confirmed one on. -/
lemma getElem?_confirm (height h : BlockHeight) :
    (self.confirm height).blockHashHeights[h]? =
      if h < height then none else self.blockHashHeights[h]? := by
  have hfold : ∀ (heights : List BlockHeight) (cache : BlockCache),
      (heights.foldl removeHeight cache).blockHashHeights[h]? =
        if h ∈ heights then none else cache.blockHashHeights[h]? := by
    intro heights
    induction heights with
    | nil => simp
    | cons first heights ih =>
      intro cache
      rw [List.foldl_cons, ih, getElem?_removeHeight]
      by_cases hfirst : first = h
      · simp [hfirst]
      · have hne : h ≠ first := fun heq => hfirst heq.symm
        simp [hfirst, hne]
  unfold confirm
  rw [hfold]
  by_cases hlt : h < height
  · rw [if_pos hlt]
    split_ifs with hmem
    · rfl
    · -- a lower height that is not removed was not known
      rcases hget : self.blockHashHeights[h]? with _ | hash
      · rfl
      · have hkey : h ∈ self.blockHashHeights.keys := by
          rw [Std.TreeMap.mem_keys, Std.TreeMap.mem_iff_isSome_getElem?, hget]
          rfl
        exact absurd (List.mem_filter.2 ⟨hkey, by simpa using hlt⟩) hmem
  · rw [if_neg hlt, if_neg]
    intro hmem
    exact hlt (of_decide_eq_true (List.mem_filter.1 hmem).2)

/-- `confirm` sets the height, and changes the two maps otherwise. -/
lemma confirm_frame (height : BlockHeight) :
    (self.confirm height).height = height ∧
      (self.confirm height).maxHeight = self.maxHeight ∧
      (self.confirm height).maxCacheSize = self.maxCacheSize := by
  unfold confirm
  refine List.foldlRecOn (motive := fun cache : BlockCache => cache.height = height ∧
    cache.maxHeight = self.maxHeight ∧ cache.maxCacheSize = self.maxCacheSize) _ removeHeight
    ⟨rfl, rfl, rfl⟩ ?_
  rintro cache ⟨hheight, hmax, hsize⟩ h -
  obtain ⟨hheight', hmax', hsize'⟩ := cache.removeHeight_frame h
  exact ⟨hheight'.trans hheight, hmax'.trans hmax, hsize'.trans hsize⟩

/-- **Induction over `confirm`.** What the removal of blocks keeps, `confirm` keeps. -/
lemma confirm_induction {motive : BlockCache → Prop}
    (hfound : ∀ cache, motive cache → cache.Found)
    (hremove : ∀ cache hash block, motive cache → cache.blocks[hash]? = some block →
      motive { cache with
        blocks := cache.blocks.erase hash
        blockHashHeights := cache.blockHashHeights.erase block.height })
    {height : BlockHeight} (hstart : motive { self with height := height }) :
    motive (self.confirm height) := by
  unfold confirm
  refine List.foldlRecOn _ removeHeight hstart ?_
  intro cache hcache h _
  rcases removeHeight_eq (hfound cache hcache) h with heq | ⟨hash, block, hblock, heq⟩
  · rw [heq]
    exact hcache
  · rw [heq]
    exact hremove cache hash block hcache hblock

end Calls

/-! ## Runs of the cache -/

/-- A call that changes the cache. -/
inductive CacheCall
  /-- A block was received or proposed. -/
  | insert (block : Block)
  /-- A block was committed, proposed or fast synced. -/
  | confirm (height : BlockHeight)
  /-- A block was found to be invalid. -/
  | remove (block : Block)

/-- One call. -/
def step (P : Primitives) (self : BlockCache) : CacheCall → BlockCache
  | .insert block => self.insert P block
  | .confirm height => self.confirm height
  | .remove block => self.remove (block.hash P)

/-- The first block, and the blocks that are inserted. -/
def inserted (startBlock : Block) (calls : List CacheCall) : Set Block :=
  {block | block = startBlock ∨ .insert block ∈ calls}

/-- The hashes of these blocks tell their heights, as long as no two messages with the same
Keccak digest are found. -/
def HashesTellHeights (P : Primitives) (blocks : Set Block) : Prop :=
  ∀ b ∈ blocks, ∀ b' ∈ blocks, b.hash P = b'.hash P → b.height = b'.height

/-! ### What every call keeps -/

section Tracked

variable {P}

/-- The stored blocks are among the given ones and stand under their hashes, known heights lead
to blocks of that height, and none is below the confirmed one. -/
structure Tracked (P : Primitives) (blocks : Set Block) (cache : BlockCache) : Prop where
  known : ∀ (hash : CryptoHash) block, cache.blocks[hash]? = some block →
    block ∈ blocks ∧ block.hash P = hash
  found : cache.Found
  low : ∀ (h : BlockHeight) hash, cache.blockHashHeights[h]? = some hash → cache.height ≤ h

variable {blocks : Set Block} {self : BlockCache} {block : Block}

/-- The removal of a stored block. -/
lemma Tracked.erase (h : Tracked P blocks self) {hash : CryptoHash}
    (hblock : self.blocks[hash]? = some block) :
    Tracked P blocks { self with
      blocks := self.blocks.erase hash
      blockHashHeights := self.blockHashHeights.erase block.height } := by
  refine ⟨?_, Indexed.Found.erase h.found hblock, ?_⟩
  · intro hash' block' hblock'
    rw [Std.TreeMap.getElem?_erase] at hblock'
    split_ifs at hblock'
    exact h.known hash' block' hblock'
  · intro height hash' hh
    rw [Std.TreeMap.getElem?_erase] at hh
    split_ifs at hh
    exact h.low height hash' hh

/-- Removing a block keeps the cache tracked. -/
lemma Tracked.remove (h : Tracked P blocks self) (hash : CryptoHash) :
    Tracked P blocks (self.remove hash) := by
  unfold BlockCache.remove
  split
  · exact h
  · next hblock => exact h.erase hblock

/-- Seeing a block keeps the cache tracked. -/
lemma Tracked.see (h : Tracked P blocks self) (block : Block) :
    Tracked P blocks (self.see block) :=
  ⟨h.known, h.found, h.low⟩

/-- The storing of a block that is not old. -/
lemma Tracked.store (h : Tracked P blocks self) (hhash : HashesTellHeights P blocks)
    (hmem : block ∈ blocks) (hheight : self.height ≤ block.height) :
    Tracked P blocks (self.store P block) := by
  refine ⟨?_, ?_, ?_⟩
  · intro hash' block' hblock'
    change (self.blocks.insert (block.hash P) block)[hash']? = some block' at hblock'
    rw [Std.TreeMap.getElem?_insert] at hblock'
    split_ifs at hblock' with heq
    · cases hblock'
      exact ⟨hmem, Std.LawfulEqCmp.compare_eq_iff_eq.1 heq⟩
    · exact h.known hash' block' hblock'
  · refine Indexed.Found.insert h.found ?_
    intro block' hblock'
    obtain ⟨hmem', hident⟩ := h.known _ _ hblock'
    exact hhash block' hmem' block hmem hident
  · intro height hash hh
    change (self.blockHashHeights.insert block.height (block.hash P))[height]? = some hash at hh
    rw [Std.TreeMap.getElem?_insert] at hh
    split_ifs at hh with heq
    · rw [Std.LawfulEqCmp.compare_eq_iff_eq] at heq
      rw [← heq]
      exact hheight
    · exact h.low height hash hh

/-- Inserting a block keeps the cache tracked. -/
lemma Tracked.insert (h : Tracked P blocks self) (hhash : HashesTellHeights P blocks)
    (hmem : block ∈ blocks) : Tracked P blocks (insert P block self) := by
  unfold BlockCache.insert
  split_ifs with hold
  · exact h
  · have hheight : self.height ≤ block.height := not_lt.1 hold
    dsimp only
    split_ifs
    · exact h.see block
    · refine Tracked.store ((h.see block).remove _) hhash hmem ?_
      rw [height_remove]
      exact hheight
    · exact (h.see block).store hhash hmem hheight

/-- Confirming a height keeps the cache tracked. -/
lemma Tracked.confirm (h : Tracked P blocks self) (height : BlockHeight) :
    Tracked P blocks (self.confirm height) := by
  have hmaps := @confirm_induction self (fun cache => cache.Found ∧
      ∀ (hash : CryptoHash) block, cache.blocks[hash]? = some block →
        block ∈ blocks ∧ block.hash P = hash) (fun cache hcache => hcache.1) (by
    rintro cache hash block ⟨hfound, hcache⟩ hblock
    refine ⟨Indexed.Found.erase hfound hblock, fun hash' block' hblock' => ?_⟩
    rw [Std.TreeMap.getElem?_erase] at hblock'
    split_ifs at hblock'
    exact hcache hash' block' hblock') height ⟨h.found, h.known⟩
  refine ⟨hmaps.2, hmaps.1, ?_⟩
  intro h' hash hh
  rw [getElem?_confirm] at hh
  split_ifs at hh with hlt
  rw [(self.confirm_frame height).1]
  exact not_lt.1 hlt

/-- A new cache. -/
lemma tracked_new {startBlock : Block} {maxCacheSize : ℕ} (hsize : 0 < maxCacheSize)
    (hhash : HashesTellHeights P blocks) (hmem : startBlock ∈ blocks) :
    Tracked P blocks (new P startBlock maxCacheSize) := by
  rw [new_eq hsize]
  refine Tracked.store ⟨?_, ?_, ?_⟩ hhash hmem (le_refl _)
  · intro hash block hblock
    simp at hblock
  · intro i k hi
    simp at hi
  · intro height hash hh
    simp at hh

/-- **The next block** has the next height. -/
lemma Tracked.getNextCommitBlock (h : Tracked P blocks self)
    (hblock : self.getNextCommitBlock = some block) :
    block.height = self.height.next ∧ self.height ≤ block.height ∧ block ∈ blocks ∧
      self.blockHashHeights[block.height]? = some (block.hash P) ∧
      self.blocks[block.hash P]? = some block := by
  unfold BlockCache.getNextCommitBlock getByHeight at hblock
  rcases hget : self.blockHashHeights[self.height.next]? with _ | hash
  · rw [hget] at hblock
    cases hblock
  · rw [hget] at hblock
    have hstored : self.blocks[hash]? = some block := hblock
    obtain ⟨found, hfound, hheight⟩ := h.found _ _ hget
    rw [hstored] at hfound
    cases hfound
    obtain ⟨hmem, hhash⟩ := h.known _ _ hstored
    refine ⟨hheight, ?_, hmem, ?_, ?_⟩
    · rw [hheight]
      exact h.low _ _ hget
    · rw [hheight, hhash]
      exact hget
    · rw [hhash]
      exact hstored

end Tracked

/-! ### The two maps in bijection -/

section Bijection

variable {P}

/-- The two maps are in bijection, and the cache is not over its capacity. -/
structure Synced (P : Primitives) (cache : BlockCache) : Prop where
  bijection :
    Indexed.InBijection (Block.hash P) Block.height cache.blocks cache.blockHashHeights
  size_le : cache.blocks.size ≤ cache.maxCacheSize

/-- The invariant behind it: the stored blocks are among the given ones. -/
structure Stored (P : Primitives) (blocks : Set Block) (cache : BlockCache) : Prop extends
    Synced P cache where
  known : ∀ (hash : CryptoHash) block, cache.blocks[hash]? = some block → block ∈ blocks
  size_pos : 0 < cache.maxCacheSize

/-- The insertion of a block leaves no other block of its height behind: it is old, or its
height is free or has that very hash, or the cache is at capacity and drops the block at that
height as its last one. -/
def Admissible (P : Primitives) (self : BlockCache) (block : Block) : Prop :=
  block.height < self.height ∨
    (∀ hash, self.blockHashHeights[block.height]? = some hash → hash = block.hash P) ∨
    (self.AtCapacity ∧
      ∀ (h : BlockHeight) hash, self.blockHashHeights[h]? = some hash → h ≤ block.height)

variable {blocks : Set Block} {self : BlockCache} {block : Block}

/-- A cache at capacity knows some height. -/
lemma Stored.exists_known (h : Stored P blocks self) (hfull : self.AtCapacity) :
    ∃ (height : BlockHeight) (hash : CryptoHash), self.blockHashHeights[height]? = some hash := by
  have hne : self.blocks.isEmpty = false := by
    rw [Std.TreeMap.isEmpty_eq_size_eq_zero]
    have hpos : 0 < self.blocks.size := lt_of_lt_of_le h.size_pos hfull
    simpa using hpos.ne'
  obtain ⟨hash, hmem⟩ := Std.TreeMap.isEmpty_eq_false_iff_exists_mem.1 hne
  rw [Std.TreeMap.mem_iff_isSome_getElem?, Option.isSome_iff_exists] at hmem
  obtain ⟨stored, hstored⟩ := hmem
  exact ⟨_, hash, (h.bijection.indexed hash stored hstored).2⟩

/-- The removal of a stored block. -/
lemma Stored.erase (h : Stored P blocks self) {hash : CryptoHash}
    (hblock : self.blocks[hash]? = some block) :
    Stored P blocks { self with
      blocks := self.blocks.erase hash
      blockHashHeights := self.blockHashHeights.erase block.height } := by
  refine ⟨⟨h.bijection.erase hblock, Std.TreeMap.size_erase_le.trans h.size_le⟩, ?_, h.size_pos⟩
  intro hash' block' hblock'
  rw [Std.TreeMap.getElem?_erase] at hblock'
  split_ifs at hblock' with heq
  exact h.known hash' block' hblock'

/-- The storing of a block, where there is room for it. -/
lemma Stored.store (h : Stored P blocks self) (hhash : HashesTellHeights P blocks)
    (hmem : block ∈ blocks) (hroom : self.blocks.size < self.maxCacheSize)
    (hfree : ∀ hash, self.blockHashHeights[block.height]? = some hash → hash = block.hash P) :
    Stored P blocks (self.store P block) := by
  refine ⟨⟨h.bijection.insert hfree ?_, Std.TreeMap.size_insert_le.trans hroom⟩, ?_, h.size_pos⟩
  · intro block' hblock'
    exact hhash block' (h.known _ _ hblock') block hmem (h.bijection.indexed _ _ hblock').1
  · intro hash' block' hblock'
    change (self.blocks.insert (block.hash P) block)[hash']? = some block' at hblock'
    rw [Std.TreeMap.getElem?_insert] at hblock'
    split_ifs at hblock' with heq
    · cases hblock'
      exact hmem
    · exact h.known hash' block' hblock'

/-- Seeing a block keeps the stored blocks and their index. -/
lemma Stored.see (h : Stored P blocks self) (block : Block) : Stored P blocks (self.see block) :=
  ⟨⟨h.bijection, h.size_le⟩, h.known, h.size_pos⟩

/-- After the removal of a stored block there is room. -/
lemma size_erase_lt {hash : CryptoHash} (hblock : self.blocks[hash]? = some block) :
    (self.blocks.erase hash).size < self.blocks.size := by
  have hmem : hash ∈ self.blocks := by
    rw [Std.TreeMap.mem_iff_isSome_getElem?, hblock]
    rfl
  have hcontains : self.blocks.contains hash = true := Std.TreeMap.contains_iff_mem.2 hmem
  have hpos : self.blocks.size ≠ 0 := by
    intro hzero
    have hempty : self.blocks.isEmpty = true := by
      rw [Std.TreeMap.isEmpty_eq_size_eq_zero, hzero]
      rfl
    rw [Std.TreeMap.isEmpty_iff_forall_not_mem] at hempty
    exact hempty hash hmem
  rw [Std.TreeMap.size_erase, if_pos hcontains]
  omega

/-- **The step of `insert`**: exactly the admissible insertions keep the maps in bijection. -/
lemma Stored.insert_iff (h : Stored P blocks self) (hhash : HashesTellHeights P blocks)
    (hmem : block ∈ blocks) :
    (self.Admissible P block → Stored P blocks (insert P block self)) ∧
      (Synced P (insert P block self) → self.Admissible P block) := by
  rcases @insert_cases P self block h.bijection.found h.exists_known with
    ⟨hold, heq⟩ | ⟨-, hfull, hbeyond, heq⟩ | ⟨hheight, hroom, heq⟩ |
      ⟨hheight, hfull, hash, last, hlast, hblock, hle, hlow, heq, hremoved⟩
  · rw [heq]
    exact ⟨fun _ => h, fun _ => .inl hold⟩
  · rw [heq]
    exact ⟨fun _ => h.see block,
      fun _ => .inr (.inr ⟨hfull, fun height hash hh => (hbeyond height hash hh).le⟩)⟩
  · rw [heq]
    refine ⟨fun hadmissible => (h.see block).store hhash hmem (not_le.1 hroom) ?_,
      fun hsynced => .inr (.inl fun hash hh => h.bijection.eq_of_insert hsynced.bijection hh)⟩
    rcases hadmissible with hold | hfree | ⟨hfull, -⟩
    · exact absurd hold (not_lt.2 hheight)
    · exact hfree
    · exact absurd hfull hroom
  · rw [heq, hremoved]
    have herased := (h.see block).erase hblock
    refine ⟨fun hadmissible => ?_, fun hsynced => ?_⟩
    · refine herased.store hhash hmem ((size_erase_lt hblock).trans_le h.size_le) ?_
      intro hash' hh'
      change (self.blockHashHeights.erase last.height)[block.height]? = some hash' at hh'
      rw [Std.TreeMap.getElem?_erase] at hh'
      split_ifs at hh' with hne
      rcases hadmissible with hold | hfree | ⟨-, htop⟩
      · exact absurd hold (not_lt.2 hheight)
      · exact hfree hash' hh'
      · -- the block is at the height of the one that is dropped
        rw [Std.LawfulEqCmp.compare_eq_iff_eq] at hne
        exact absurd (le_antisymm (htop _ _ hlast) hlow) hne
    · by_cases hsame : last.height = block.height
      · exact .inr (.inr ⟨hfull, fun height hash' hh => hsame ▸ hle height hash' hh⟩)
      · refine .inr (.inl fun hash' hh => ?_)
        refine herased.bijection.eq_of_insert hsynced.bijection ?_
        change (self.blockHashHeights.erase last.height)[block.height]? = some hash'
        rw [Std.TreeMap.getElem?_erase, if_neg]
        · exact hh
        · rw [Std.LawfulEqCmp.compare_eq_iff_eq]
          exact hsame

/-- Removing a block keeps the other blocks and their index. -/
lemma Stored.remove (h : Stored P blocks self) (hash : CryptoHash) :
    Stored P blocks (self.remove hash) := by
  unfold BlockCache.remove
  split
  · exact h
  · next hblock => exact h.erase hblock

/-- Confirming a height keeps the stored blocks and their index. -/
lemma Stored.confirm (h : Stored P blocks self) (height : BlockHeight) :
    Stored P blocks (self.confirm height) := by
  refine confirm_induction (motive := Stored P blocks) (fun cache hcache => hcache.bijection.found)
    (fun cache hash block hcache hblock => hcache.erase hblock) ?_
  exact ⟨⟨h.bijection, h.size_le⟩, h.known, h.size_pos⟩

/-- A new cache holds its first block. -/
lemma stored_new {startBlock : Block} {maxCacheSize : ℕ} (hsize : 0 < maxCacheSize)
    (hhash : HashesTellHeights P blocks) (hmem : startBlock ∈ blocks) :
    Stored P blocks (new P startBlock maxCacheSize) := by
  rw [new_eq hsize]
  refine Stored.store ⟨⟨Indexed.inBijection_empty, ?_⟩, ?_, hsize⟩ hhash hmem ?_ ?_
  · rw [Std.TreeMap.size_emptyc]
    exact Nat.zero_le _
  · intro hash block hblock
    simp at hblock
  · rw [Std.TreeMap.size_emptyc]
    exact hsize
  · intro hash hh
    simp at hh

/-- The condition on a call. -/
def AdmissibleCall (P : Primitives) (self : BlockCache) : CacheCall → Prop
  | .insert block => self.Admissible P block
  | .confirm _ => True
  | .remove _ => True

/-- **The two maps over a run.** In a run of the cache the two maps are in bijection and within
the capacity in every state, exactly when every insertion is admissible.

**Proof sketch.** By `Runs.forall_states_iff`: an insertion keeps the bijection exactly if it is
admissible (`Stored.insert_iff`), and the other calls always do. -/
theorem synced_iff_admissible {startBlock : Block} {maxCacheSize : ℕ} (hsize : 1 ≤ maxCacheSize)
    (calls : List CacheCall)
    (hhash : HashesTellHeights P (inserted startBlock calls)) :
    (∀ cache ∈ Runs.states (step P) (new P startBlock maxCacheSize) calls, Synced P cache) ↔
      Runs.Along (step P) (AdmissibleCall P) (new P startBlock maxCacheSize) calls := by
  refine @Runs.forall_states_iff _ _ (step P) (Stored P (inserted startBlock calls)) (Synced P)
    (AdmissibleCall P)
    (fun call => ∀ block, call = .insert block → block ∈ inserted startBlock calls)
    (fun cache h => h.toSynced) ?_ ?_ _ (stored_new hsize hhash (.inl rfl)) calls ?_
  · intro cache call hvalid h hgood
    cases call with
    | insert block => exact (h.insert_iff hhash (hvalid block rfl)).1 hgood
    | confirm height => exact h.confirm height
    | remove block => exact h.remove _
  · intro cache call hvalid h hsynced
    cases call with
    | insert block => exact (h.insert_iff hhash (hvalid block rfl)).2 hsynced
    | confirm height => trivial
    | remove block => trivial
  · rintro call hcall block rfl
    exact .inr hcall

end Bijection

/-! ### Two blocks of the same height -/

namespace Sample

/-- Primitives whose digest is the sum of the bytes. -/
def primitives : Primitives where
  poseidon _ := 0
  keccak256 bytes := BitVec.ofNat 256 (bytes.map BitVec.toNat).sum
  verifyProof _ _ := some false
  fromCompact _ := true
  recoverEcdsa _ _ := none
  signEcdsa _ := .default

/-- A block without transactions. -/
def emptyBlock (height : BlockHeight) (rootHash : Element) : Block where
  content :=
    { header := { height := height, lastBlockHash := 0, epochId := 0, lastFinalBlockHash := 0,
                  approvals := [] }
      state := { rootHash := rootHash, txns := [] } }
  signature := .default

/-- A block is received twice and committed. -/
def calls : List CacheCall :=
  [.insert (emptyBlock 1 0), .insert (emptyBlock 1 0), .confirm 1, .remove (emptyBlock 2 0)]

/-- The blocks of the sample are the genesis block and one other. -/
lemma inserted_calls {block : Block} (h : block ∈ inserted .genesis calls) :
    block = .genesis ∨ block = emptyBlock 1 0 := by
  rcases h with rfl | h
  · exact .inl rfl
  · simp only [calls, List.mem_cons, CacheCall.insert.injEq, reduceCtorEq, List.not_mem_nil,
      or_false] at h
    exact .inr (h.elim id id)

/-- Their hashes tell their heights. -/
lemma hashesTellHeights_calls : HashesTellHeights primitives (inserted .genesis calls) := by
  intro b hb b' hb' heq
  rcases inserted_calls hb with rfl | rfl <;> rcases inserted_calls hb' with rfl | rfl
  · rfl
  · exact absurd heq (by decide)
  · exact absurd heq (by decide)
  · rfl

end Sample

/-- A block that is received twice is stored once. -/
theorem synced_iff_admissible_sample :
    HashesTellHeights Sample.primitives (inserted .genesis Sample.calls) ∧
      ∀ cache ∈ Runs.states (step Sample.primitives) (new Sample.primitives .genesis 10)
        Sample.calls, Synced Sample.primitives cache := by
  refine ⟨Sample.hashesTellHeights_calls, ?_⟩
  refine (synced_iff_admissible (by decide) Sample.calls Sample.hashesTellHeights_calls).2
    ⟨.inr (.inl ?_), .inr (.inl ?_), trivial, trivial, trivial⟩
  · intro hash hh
    rw [show (new Sample.primitives .genesis 10).blockHashHeights[(Sample.emptyBlock 1 0).height]? =
      none by decide] at hh
    cases hh
  · intro hash hh
    rw [show ((new Sample.primitives .genesis 10).step Sample.primitives
      (.insert (Sample.emptyBlock 1 0))).blockHashHeights[(Sample.emptyBlock 1 0).height]? =
        some ((Sample.emptyBlock 1 0).hash Sample.primitives) by decide] at hh
    exact (Option.some.inj hh).symm

/-- **A block that is left behind**: two blocks of height 1 are received, the second takes the
height, and the first is never found again. -/
theorem not_synced_of_same_height :
    ¬ ∀ cache ∈ Runs.states (step Sample.primitives) (new Sample.primitives .genesis 10000)
      [.insert (Sample.emptyBlock 1 0), .insert (Sample.emptyBlock 1 1)],
        Synced Sample.primitives cache := by
  intro h
  have hlast := h ((((new Sample.primitives .genesis 10000).step Sample.primitives
    (.insert (Sample.emptyBlock 1 0))).step Sample.primitives
      (.insert (Sample.emptyBlock 1 1)))) (by simp [Runs.states])
  have hindexed := (hlast.bijection.indexed ((Sample.emptyBlock 1 0).hash Sample.primitives)
    (Sample.emptyBlock 1 0) (by decide)).2
  exact absurd hindexed (by decide)

/-! ### The confirmed block -/

section Confirmed

variable {P}

/-- What `hash` and `is_out_of_sync` are to answer: they return, and the cache is out of sync
exactly when some height beyond the confirmed one, up to the greatest seen, has no block. -/
structure Answers (cache : BlockCache) : Prop where
  hash : ∃ hash, (cache.hash : Outcome Empty CryptoHash) = .ok hash
  isOutOfSync : ∃ outOfSync, (cache.isOutOfSync : Outcome Empty Bool) = .ok outOfSync ∧
    (outOfSync = true ↔
      ∃ h, cache.height < h ∧ h ≤ cache.maxHeight ∧ cache.getByHeight h = none)

/-- The invariant behind it: the confirmed height is known, and no known height is beyond the
greatest seen. -/
structure Anchored (P : Primitives) (blocks : Set Block) (cache : BlockCache) : Prop extends
    Tracked P blocks cache where
  high : ∀ (h : BlockHeight) hash, cache.blockHashHeights[h]? = some hash → h ≤ cache.maxHeight
  confirmed : ∃ hash, cache.blockHashHeights[cache.height]? = some hash
  maxHeight_lt : cache.maxHeight < U64

variable {blocks : Set Block} {self : BlockCache} {block : Block}

/-- A height has no block exactly when it is not known. -/
lemma getByHeight_eq_none_iff (hfound : self.Found) (h : BlockHeight) :
    self.getByHeight h = none ↔ self.blockHashHeights[h]? = none := by
  unfold getByHeight
  rcases hget : self.blockHashHeights[h]? with _ | hash
  · simp
  · obtain ⟨block, hblock, -⟩ := hfound h hash hget
    simp [hblock]

/-- A height is unknown when there is no hash for it. -/
lemma contains_eq_false_iff (h : BlockHeight) :
    self.blockHashHeights.contains h = false ↔ self.blockHashHeights[h]? = none := by
  rw [← Std.TreeMap.isSome_getElem?_eq_contains, Option.isSome_eq_false_iff,
    Option.isNone_iff_eq_none]

/-- The heights beyond one height, up to another. -/
lemma mem_range'_succ (low high h : ℕ) :
    h ∈ List.range' (low + 1) (high + 1 - (low + 1)) ↔ low < h ∧ h ≤ high := by
  rw [List.mem_range'_1]
  omega

/-- The greatest known height, which exists. -/
lemma Anchored.maxKey (h : Anchored P blocks self) :
    ∃ last, self.blockHashHeights.maxKey? = some last ∧ self.height ≤ last ∧
      ∀ height hash, self.blockHashHeights[height]? = some hash → height ≤ last := by
  obtain ⟨hash, hconfirmed⟩ := h.confirmed
  have hmem : ∀ (height : BlockHeight) hash, self.blockHashHeights[height]? = some hash →
      height ∈ self.blockHashHeights := by
    intro height hash hget
    rw [Std.TreeMap.mem_iff_isSome_getElem?, hget]
    rfl
  rcases hmax : self.blockHashHeights.maxKey? with _ | last
  · rw [Std.TreeMap.maxKey?_eq_none_iff, Std.TreeMap.isEmpty_iff_forall_not_mem] at hmax
    exact absurd (hmem _ _ hconfirmed) (hmax _)
  · have hle : ∀ (height : BlockHeight) hash, self.blockHashHeights[height]? = some hash →
        height ≤ last := by
      intro height hash hget
      have := (Std.TreeMap.maxKey?_eq_some_iff_mem_and_forall.1 hmax).2 height (hmem _ _ hget)
      exact Nat.isLE_compare.1 this
    exact ⟨last, rfl, hle _ _ hconfirmed, hle⟩

/-- **When the cache answers**: the confirmed height is not the last of its type.

**Proof sketch.** The next height wraps around to zero at the end of the type, and then the answer
is wrong, since nothing is beyond. Below that, the cache is out of sync exactly if something beyond
the next height is known. -/
lemma Anchored.answers_iff (h : Anchored P blocks self) :
    Answers self ↔ self.height + 1 < U64 := by
  obtain ⟨hash, hconfirmed⟩ := h.confirmed
  obtain ⟨last, hmax, hlast, hle⟩ := h.maxKey
  have hheight : self.height < U64 := (h.high _ _ hconfirmed).trans_lt h.maxHeight_lt
  constructor
  · rintro ⟨-, outOfSync, hok, hiff⟩
    by_contra htop
    -- the next height wraps around to zero
    have hnext : BlockHeight.next self.height = 0 := by
      unfold BlockHeight.next
      rw [show self.height + 1 = U64 from
        le_antisymm (Nat.succ_le_of_lt hheight) (not_lt.1 htop), Nat.mod_self]
    have hfalse : outOfSync = false := by
      rw [← Bool.not_eq_true, hiff]
      rintro ⟨height, hlow, hhigh, -⟩
      exact absurd (hhigh.trans_lt h.maxHeight_lt)
        (not_lt.2 ((not_lt.1 htop).trans (Nat.succ_le_of_lt hlow)))
    have hzero : self.blockHashHeights.contains 0 = false := by
      rw [contains_eq_false_iff]
      rcases hget : self.blockHashHeights[0]? with _ | hash
      · rfl
      · rw [Nat.le_zero.1 (h.low _ _ hget)] at htop
        exact absurd (by decide) htop
    unfold isOutOfSync at hok
    rw [hmax] at hok
    simp only at hok
    split_ifs at hok with hlt
    · cases hok
      cases hfalse
    · rw [hnext, hfalse, Outcome.ok.injEq, List.any_eq_false] at hok
      refine hok 0 ?_ (by rw [hzero]; rfl)
      rw [List.mem_range'_1]
      exact ⟨le_refl _, by rw [Nat.zero_add, Nat.sub_zero]; exact Nat.succ_pos _⟩
  · intro hnext
    have hnext' : BlockHeight.next self.height = self.height + 1 := Nat.mod_eq_of_lt hnext
    refine ⟨⟨hash, ?_⟩, ?_⟩
    · unfold BlockCache.hash
      rw [hconfirmed]
      rfl
    · unfold isOutOfSync
      rw [hmax]
      simp only
      split_ifs with hlt
      · refine ⟨true, rfl, fun _ => ⟨self.maxHeight, lt_of_le_of_lt hlast hlt, le_refl _, ?_⟩,
          fun _ => rfl⟩
        rw [getByHeight_eq_none_iff h.found]
        rcases hget : self.blockHashHeights[self.maxHeight]? with _ | hash
        · rfl
        · exact absurd (hle _ _ hget) (not_le.2 hlt)
      · refine ⟨_, rfl, ?_⟩
        rw [hnext', List.any_eq_true]
        simp only [mem_range'_succ, getByHeight_eq_none_iff h.found, Bool.not_eq_true',
          contains_eq_false_iff, and_assoc]

/-- **The step of `insert`.** The confirmed block is never lost: it is the first one, so that it
is dropped only for another block of its height.

**Proof sketch.** By `insert_cases`. Only the last known block is ever taken out; if it is the
confirmed one, the new block has its height and stands for it. -/
lemma Anchored.insert (h : Anchored P blocks self) (hhash : HashesTellHeights P blocks)
    (hmem : block ∈ blocks) (hu64 : block.height < U64) :
    Anchored P blocks (insert P block self) := by
  have htracked := h.toTracked.insert hhash hmem
  have hseen : (self.see block).maxHeight < U64 := max_lt h.maxHeight_lt hu64
  have hhigh : ∀ (height : BlockHeight) hash, self.blockHashHeights[height]? = some hash →
      height ≤ (self.see block).maxHeight :=
    fun height hash hh => le_max_of_le_left (h.high height hash hh)
  obtain ⟨confirmedHash, hconfirmed⟩ := h.confirmed
  rcases @insert_cases P self block h.found fun _ => ⟨_, h.confirmed⟩ with
    ⟨-, heq⟩ | ⟨-, -, -, heq⟩ | ⟨hheight, -, heq⟩ |
      ⟨hheight, -, hash, last, hlast, hblock, hle, hlow, heq, hremoved⟩
  · rw [heq]
    exact h
  · rw [heq] at htracked ⊢
    exact ⟨htracked, hhigh, h.confirmed, hseen⟩
  · rw [heq] at htracked ⊢
    refine ⟨htracked, ?_, ?_, hseen⟩
    · intro height hash hh
      change (self.blockHashHeights.insert block.height (block.hash P))[height]? = some hash at hh
      rw [Std.TreeMap.getElem?_insert] at hh
      split_ifs at hh with heq
      · rw [← Std.LawfulEqCmp.compare_eq_iff_eq.1 heq]
        exact le_max_right _ _
      · exact hhigh height hash hh
    · change ∃ hash, (self.blockHashHeights.insert block.height (block.hash P))[self.height]? =
        some hash
      rw [Std.TreeMap.getElem?_insert]
      split_ifs
      · exact ⟨_, rfl⟩
      · exact ⟨confirmedHash, hconfirmed⟩
  · rw [heq, hremoved] at htracked ⊢
    refine ⟨htracked, ?_, ?_, hseen⟩
    · intro height hash' hh
      change ((self.blockHashHeights.erase last.height).insert block.height
        (block.hash P))[height]? = some hash' at hh
      rw [Std.TreeMap.getElem?_insert] at hh
      split_ifs at hh with heq
      · rw [← Std.LawfulEqCmp.compare_eq_iff_eq.1 heq]
        exact le_max_right _ _
      · rw [Std.TreeMap.getElem?_erase] at hh
        split_ifs at hh
        exact hhigh height hash' hh
    · change ∃ hash', ((self.blockHashHeights.erase last.height).insert block.height
        (block.hash P))[self.height]? = some hash'
      rw [Std.TreeMap.getElem?_insert]
      split_ifs with hne
      · exact ⟨_, rfl⟩
      · refine ⟨confirmedHash, ?_⟩
        rw [Std.TreeMap.getElem?_erase, if_neg]
        · exact hconfirmed
        · rw [Std.LawfulEqCmp.compare_eq_iff_eq] at hne ⊢
          exact fun hsame => hne (le_antisymm (hlow.trans hsame.le) hheight)

/-- **The step of `confirm`**, of a height that is known. -/
lemma Anchored.confirm (h : Anchored P blocks self) {height : BlockHeight}
    (hknown : ∃ hash, self.blockHashHeights[height]? = some hash) :
    Anchored P blocks (self.confirm height) := by
  obtain ⟨hheight, hmax, -⟩ := self.confirm_frame height
  refine ⟨h.toTracked.confirm height, ?_, ?_, ?_⟩
  · intro h' hash hh
    rw [getElem?_confirm] at hh
    split_ifs at hh with hlt
    rw [hmax]
    exact h.high h' hash hh
  · rw [hheight, getElem?_confirm, if_neg (lt_irrefl _)]
    exact hknown
  · rw [hmax]
    exact h.maxHeight_lt

/-- **The step of `remove`**, of a block that is not the confirmed one. -/
lemma Anchored.remove (h : Anchored P blocks self) {hash : CryptoHash}
    (hother : ∀ stored, self.blocks[hash]? = some stored → stored.height ≠ self.height) :
    Anchored P blocks (self.remove hash) := by
  have htracked := h.toTracked.remove hash
  unfold BlockCache.remove at htracked ⊢
  cases hstored : self.blocks[hash]? with
  | none => exact h
  | some stored =>
    rw [hstored] at htracked
    refine ⟨htracked, ?_, ?_, h.maxHeight_lt⟩
    · intro height hash' hh
      rw [Std.TreeMap.getElem?_erase] at hh
      split_ifs at hh
      exact h.high height hash' hh
    · obtain ⟨confirmedHash, hconfirmed⟩ := h.confirmed
      refine ⟨confirmedHash, ?_⟩
      rw [Std.TreeMap.getElem?_erase, if_neg]
      · exact hconfirmed
      · rw [Std.LawfulEqCmp.compare_eq_iff_eq]
        exact hother stored hstored

/-- A new cache has its confirmed block. -/
lemma anchored_new {startBlock : Block} {maxCacheSize : ℕ} (hsize : 0 < maxCacheSize)
    (hhash : HashesTellHeights P blocks) (hmem : startBlock ∈ blocks)
    (hu64 : startBlock.height < U64) : Anchored P blocks (new P startBlock maxCacheSize) := by
  have htracked := tracked_new hsize hhash hmem
  rw [new_eq hsize] at htracked ⊢
  refine ⟨htracked, ?_, ?_, hu64⟩
  · intro height hash hh
    change ((∅ : Std.TreeMap BlockHeight CryptoHash).insert startBlock.height
      (startBlock.hash P))[height]? = some hash at hh
    rw [Std.TreeMap.getElem?_insert] at hh
    split_ifs at hh with heq
    · exact (Std.LawfulEqCmp.compare_eq_iff_eq.1 heq).ge
    · simp at hh
  · exact ⟨_, Std.TreeMap.getElem?_insert_self⟩

/-- The condition on a call: a height is confirmed only if it has a block (and is not the last
of its type), and the confirmed block is not removed. -/
def Keeps (P : Primitives) (self : BlockCache) : CacheCall → Prop
  | .insert _ => True
  | .confirm height =>
    (∃ hash, self.blockHashHeights[height]? = some hash) ∧ height + 1 < U64
  | .remove block =>
    ∀ stored, self.blocks[block.hash P]? = some stored → stored.height ≠ self.height

/-- **The calls of the tick loop meet the condition**, when nothing comes between them: the next
block can be confirmed or removed. -/
theorem Anchored.keeps_of_getNextCommitBlock (h : Anchored P blocks self)
    (hnext : self.height + 1 < U64) (hblock : self.getNextCommitBlock = some block)
    (hu64 : block.height + 1 < U64) :
    self.Keeps P (.confirm block.height) ∧ self.Keeps P (.remove block) := by
  obtain ⟨hheight, -, -, hindex, hstored⟩ := h.toTracked.getNextCommitBlock hblock
  refine ⟨⟨⟨_, hindex⟩, hu64⟩, fun stored hstored' => ?_⟩
  rw [hstored] at hstored'
  cases hstored'
  rw [hheight, show self.height.next = self.height + 1 from Nat.mod_eq_of_lt hnext]
  exact Nat.succ_ne_self _

/-- **The confirmed block over a run.** In a run of the cache `hash` and `is_out_of_sync` return,
the latter with the right answer, in every state, exactly when every height that is confirmed
has a block at that time, and the confirmed block is never removed.

**Proof sketch.** By `Runs.forall_states_iff` with the invariant `Anchored`: the confirmed height is
known, and the stored blocks stand under their hashes. A step that meets the condition keeps it; one
that does not takes the hash of the confirmed height away. -/
theorem answers_iff_keeps {startBlock : Block} {maxCacheSize : ℕ} (hsize : 1 ≤ maxCacheSize)
    (calls : List CacheCall) (hhash : HashesTellHeights P (inserted startBlock calls))
    (hu64 : ∀ block ∈ inserted startBlock calls, block.height < U64) :
    (∀ cache ∈ Runs.states (step P) (new P startBlock maxCacheSize) calls, Answers cache) ↔
      startBlock.height + 1 < U64 ∧
        Runs.Along (step P) (Keeps P) (new P startBlock maxCacheSize) calls := by
  have hnew := anchored_new hsize hhash (.inl rfl) (hu64 startBlock (.inl rfl))
  have hheight : (new P startBlock maxCacheSize).height = startBlock.height := by
    rw [new_eq hsize]
    rfl
  have hstart : (∀ cache ∈ Runs.states (step P) (new P startBlock maxCacheSize) calls,
      Answers cache) → startBlock.height + 1 < U64 := by
    intro h
    have hfirst := (hnew.answers_iff).1 (h _ (Runs.self_mem_states _ _))
    rwa [hheight] at hfirst
  rw [← and_iff_right_of_imp hstart]
  refine and_congr_right fun hstart => ?_
  refine @Runs.forall_states_iff _ _ (step P)
    (fun cache => Anchored P (inserted startBlock calls) cache ∧ cache.height + 1 < U64) Answers
    (Keeps P) (fun call => ∀ block, call = .insert block → block ∈ inserted startBlock calls)
    (fun cache h => h.1.answers_iff.2 h.2) ?_ ?_ _ ⟨hnew, by rw [hheight]; exact hstart⟩ calls ?_
  · rintro cache call hvalid ⟨h, hnext⟩ hkeeps
    cases call with
    | insert block =>
      have hmem := hvalid block rfl
      exact ⟨h.insert hhash hmem (hu64 block hmem), (height_insert block).symm ▸ hnext⟩
    | confirm height =>
      refine ⟨h.confirm hkeeps.1, ?_⟩
      rw [step, (cache.confirm_frame height).1]
      exact hkeeps.2
    | remove block => exact ⟨h.remove hkeeps, (height_remove (block.hash P)).symm ▸ hnext⟩
  · rintro cache call hvalid ⟨h, hnext⟩ hanswers
    cases call with
    | insert block => trivial
    | confirm height =>
      have hknown : ∃ hash, cache.blockHashHeights[height]? = some hash := by
        obtain ⟨hash, hok⟩ := hanswers.hash
        unfold step BlockCache.hash at hok
        rw [(cache.confirm_frame height).1, getElem?_confirm, if_neg (lt_irrefl _)] at hok
        rcases hget : cache.blockHashHeights[height]? with _ | hash
        · rw [hget] at hok
          cases hok
        · exact ⟨hash, rfl⟩
      refine ⟨hknown, ?_⟩
      have hbound := (h.confirm hknown).answers_iff.1 hanswers
      rwa [(cache.confirm_frame height).1] at hbound
    | remove block =>
      intro stored hstored hsame
      obtain ⟨hash, hok⟩ := hanswers.hash
      have hremoved : cache.step P (.remove block) = { cache with
          blocks := cache.blocks.erase (block.hash P)
          blockHashHeights := cache.blockHashHeights.erase stored.height } := by
        change cache.remove (block.hash P) = _
        unfold BlockCache.remove
        rw [hstored]
      rw [hremoved, BlockCache.hash, hsame, Std.TreeMap.getElem?_erase_self] at hok
      cases hok
  · rintro call hcall block rfl
    exact .inr hcall

end Confirmed

/-- A block is received, received again and committed, and the cache answers all along. -/
theorem answers_iff_keeps_sample :
    HashesTellHeights Sample.primitives (inserted .genesis Sample.calls) ∧
      ∀ cache ∈ Runs.states (step Sample.primitives) (new Sample.primitives .genesis 10)
        Sample.calls, Answers cache := by
  refine ⟨Sample.hashesTellHeights_calls, ?_⟩
  refine (answers_iff_keeps (by decide) Sample.calls Sample.hashesTellHeights_calls ?_).2
    ⟨by decide, trivial, trivial, ⟨⟨(Sample.emptyBlock 1 0).hash Sample.primitives,
      by decide⟩, by decide⟩, ?_, trivial⟩
  · intro block hblock
    rcases Sample.inserted_calls hblock with rfl | rfl <;> decide
  · intro stored hstored
    have hnone : ((((new Sample.primitives .genesis 10).step Sample.primitives
        (.insert (Sample.emptyBlock 1 0))).step Sample.primitives
          (.insert (Sample.emptyBlock 1 0))).step Sample.primitives (.confirm 1)).blocks[
            (Sample.emptyBlock 2 0).hash Sample.primitives]? = none := by decide
    rw [hnone] at hstored
    cases hstored

/-- **A confirmed height without a block**: the fast sync of a block of height 5 confirms height
4, after which both functions panic; when the block is received, `hash` still does. -/
theorem not_answers_of_fastSync :
    let confirmed := (new Sample.primitives .genesis 10000).step Sample.primitives (.confirm 4)
    let received := confirmed.step Sample.primitives (.insert (Sample.emptyBlock 5 0))
    (confirmed.isOutOfSync : Outcome Empty Bool) = .panic ∧
      (confirmed.hash : Outcome Empty CryptoHash) = .panic ∧
      (received.hash : Outcome Empty CryptoHash) = .panic ∧
      ¬ ∀ cache ∈ Runs.states (step Sample.primitives) (new Sample.primitives .genesis 10000)
        [.confirm 4, .insert (Sample.emptyBlock 5 0)], Answers cache := by
  intro confirmed received
  have hpanic : (confirmed.hash : Outcome Empty CryptoHash) = .panic := by decide
  refine ⟨?_, hpanic, by decide, fun h => ?_⟩
  · have hempty := isOutOfSync_isPanic (ε := Empty) confirmed
    rw [show confirmed.blockHashHeights.isEmpty = true by decide] at hempty
    cases hsync : (confirmed.isOutOfSync : Outcome Empty Bool) with
    | ok b =>
      rw [hsync] at hempty
      cases hempty
    | err e => exact e.elim
    | panic => rfl
  · obtain ⟨hash, hok⟩ := (h confirmed (.tail _ (.head _))).hash
    rw [hpanic] at hok
    cases hok

end BlockCache

end TempoRollup.Node
