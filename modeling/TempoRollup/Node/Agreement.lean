import TempoRollup.Contract.Signatures
import TempoRollup.Node.Transaction

set_option relaxedAutoImplicit false
set_option autoImplicit false

/-!
# The node and the contract

What the node decides from its own state, against what the contract decides when the block is
rolled up: which validators may sign a block, and which roots a transaction may refer to.

## Main definitions

* `ofPublic` — the validator sets as the client of the contract holds them.
* `BlockChain`, `rolledRoots` — a chain of blocks, and the roots that are rolled up for it.

## Main results

* `verifyBlock2_validators` — the contract verifies a block with the validators that the node
  asks for its height.
* `containsRootHashes_of_validateTxn` — the roots that a node accepts as recent are among those
  of the contract when the block is rolled up.
-/

open Exec

namespace TempoRollup.Node

open Contract (Storage ChainCall BlockExternal BlockProof)

/-! ## Validators -/

/-- `get_validator_sets`: what the client makes of the answer of `getValidatorSets`. -/
def ofPublic (sets : List Contract.PublicValidatorSet) : List ValidatorSet :=
  sets.map fun set => ⟨set.validFrom, set.validators⟩

/-- A registered set is valid from a height of 64 bits on. -/
def FitsU64 : ChainCall → Prop
  | .setValidators _ validFrom _ => validFrom < U64
  | _ => True

/-- **`validators_for_height`** selects the set before those that are not valid yet. -/
lemma validatorsForHeight_eq {ε : Type} {before after : List ValidatorSet} {set : ValidatorSet}
    {height : BlockHeight} (hfits : ∀ v ∈ before ++ set :: after, v.validFrom < U64)
    (hvalid : set.validFrom ≤ height) (hlater : ∀ v ∈ after, height < v.validFrom) :
    (validatorsForHeight (before ++ set :: after) height : Outcome ε (List Address)) =
      .ok set.validators := by
  have hany : ((before ++ set :: after).any fun v => v.validFrom ≥ U64) = false := by
    rw [List.any_eq_false]
    intro v hv
    simpa using hfits v hv
  have hafter : (after.filter fun v => height ≥ v.validFrom) = [] := by
    rw [List.filter_eq_nil_iff]
    intro v hv
    simpa using hlater v hv
  have hfilter : ((before ++ set :: after).filter fun v => height ≥ v.validFrom) =
      (before.filter fun v => height ≥ v.validFrom) ++ [set] := by
    rw [List.filter_append, List.filter_cons_of_pos (by simpa using hvalid), hafter]
  rw [validatorsForHeight, hany, if_neg Bool.false_ne_true, hfilter, List.getLast?_append,
    List.getLast?_singleton]
  rfl

/-- `validators_for_height` does not panic where one set is valid from height zero. -/
lemma validatorsForHeight_ne_panic {ε : Type} {sets : List ValidatorSet}
    (hfits : ∀ v ∈ sets, v.validFrom < U64) (hstart : ∃ v ∈ sets, v.validFrom = 0)
    (height : BlockHeight) :
    (validatorsForHeight sets height : Outcome ε (List Address)) ≠ .panic := by
  have hany : (sets.any fun v => v.validFrom ≥ U64) = false := by
    rw [List.any_eq_false]
    intro v hv
    simpa using hfits v hv
  obtain ⟨first, hmem, hzero⟩ := hstart
  have hne : (sets.filter fun v => height ≥ v.validFrom) ≠ [] :=
    List.ne_nil_of_mem (List.mem_filter.2 ⟨hmem, by simp [hzero]⟩)
  rw [validatorsForHeight, hany, if_neg Bool.false_ne_true, List.getLast?_eq_some_getLast hne]
  simp

/-- What holds of the validator sets throughout a run. -/
lemma sets_of_run {s₀ : Storage} (h : s₀.Sets)
    (hfits : ∀ set ∈ s₀.validatorSets, set.validFrom < U64) {calls : List ChainCall}
    (hcalls : ∀ call ∈ calls, FitsU64 call)
    (hheights : Runs.Along Storage.step (fun s call => call.NotBelow s) s₀ calls) :
    ∀ s ∈ Runs.states Storage.step s₀ calls,
      s.Sets ∧ ∀ set ∈ s.validatorSets, set.validFrom < U64 := by
  refine @Runs.forall_states _ _ Storage.step
    (fun s => s.Sets ∧ ∀ set ∈ s.validatorSets, set.validFrom < U64) _ FitsU64
    (fun s call hcall hs hgood => ⟨hs.1.step hgood, fun set hset => ?_⟩) s₀ ⟨h, hfits⟩ calls
    hcalls hheights
  rcases Storage.mem_validatorSets_step hset with hmem | ⟨isOwner, rfl⟩
  · exact hs.2 set hmem
  · exact hcall

/-- **The validators of a block.** In every state of a run of the contract whose blocks are
verified at non-decreasing heights, a block at a height that is not below them is verified with
the last registered set that is valid at its height, and `validators_for_height` selects this set
from the list that `getValidatorSets` returns; it does not panic at any height.

**Proof sketch.** The registered sets are sorted by the height they are valid from, start at zero
and fit in 64 bits, in every state of the run (`sets_of_run`). The contract's index moves to the
last set that is valid (`Sets.getValidators_update`), and the node's search finds the same one
(`validatorsForHeight_eq`). -/
theorem verifyBlock2_validators {ε : Type} {prover : Address} {initialValidators : List Address}
    {emptyMerkleTreeRootHash : Element} {u : Unit} {s₀ s : Storage} {calls : List ChainCall}
    (hinit : Contract.initializeRollup prover initialValidators emptyMerkleTreeRootHash .empty =
      (.ok u, s₀))
    (hfits : ∀ call ∈ calls, FitsU64 call)
    (hheights : Runs.Along Storage.step (fun s call => call.NotBelow s) s₀ calls)
    (hs : s ∈ Runs.states Storage.step s₀ calls) :
    ∃ sets, s.getValidatorSets 0 = some sets ∧
      (∀ height, (validatorsForHeight (ofPublic sets) height : Outcome ε (List Address)) ≠
        .panic) ∧
      ∀ height, s.blockHeight ≤ height → ∃ before after set,
        s.validatorSets = before ++ set :: after ∧ set.validFrom ≤ height ∧
        (∀ later ∈ after, height < later.validFrom) ∧
        (∀ (ext : BlockExternal) (block : BlockProof), block.height = height →
          s.provers ext.msgSender = true →
          Contract.verifyBlock2 ext block s =
            Contract.verifyWith ext set block (s.updateValidatorSetIndex height)) ∧
        (validatorsForHeight (ofPublic sets) height : Outcome ε (List Address)) =
          .ok set.validatorsArray := by
  obtain ⟨⟨first, -, hzero, -, hview⟩, -⟩ := Contract.initializeRollup_eq_ok hinit
  have hfirst : ∀ set ∈ s₀.validatorSets, set.validFrom < U64 := by
    intro set hset
    have heq : s₀.validatorSets = [first] := (Prod.ext_iff.1 hview).1
    rw [heq] at hset
    rw [List.mem_singleton.1 hset, hzero]
    exact Nat.two_pow_pos 64
  obtain ⟨hsets, hfits⟩ := sets_of_run (Storage.sets_of_view hzero hview) hfirst hfits hheights s hs
  refine ⟨s.validatorSets.map fun set => ⟨set.validatorsArray, set.validFrom⟩, rfl,
    fun height => validatorsForHeight_ne_panic ?_ ?_ height, fun height hheight => ?_⟩
  · intro v hv
    simp only [ofPublic, List.map_map, List.mem_map] at hv
    obtain ⟨set, hset, rfl⟩ := hv
    exact hfits set hset
  · obtain ⟨first, hmem, hzero⟩ := Option.map_eq_some_iff.1 hsets.first
    refine ⟨⟨first.validFrom, first.validatorsArray⟩, ?_, hzero⟩
    simp only [ofPublic, List.map_map, List.mem_map]
    exact ⟨first, List.mem_of_mem_head? hmem, rfl⟩
  · obtain ⟨before, after, set, heq, -, hused, hvalid, hlater⟩ := hsets.getValidators_update hheight
    refine ⟨before, after, set, heq, hvalid, hlater, fun ext block hblock hprover => ?_, ?_⟩
    · rw [← hused, ← hblock, Contract.verifyBlock2, Program.run_bind]
      simp [hprover, Program.ensure, Program.run_bind]
    · have hmap : ofPublic (s.validatorSets.map fun set =>
          ⟨set.validatorsArray, set.validFrom⟩) =
          (before.map fun set => ⟨set.validFrom, set.validatorsArray⟩) ++
            ⟨set.validFrom, set.validatorsArray⟩ ::
              after.map fun set => ⟨set.validFrom, set.validatorsArray⟩ := by
        rw [heq]
        simp only [ofPublic, List.map_map, List.map_append, List.map_cons]
        rfl
      rw [hmap]
      refine validatorsForHeight_eq (fun v hv => ?_) hvalid (fun v hv => ?_)
      · rw [← hmap] at hv
        simp only [ofPublic, List.map_map, List.mem_map] at hv
        obtain ⟨set, hset, rfl⟩ := hv
        exact hfits set hset
      · obtain ⟨later, hmem, rfl⟩ := List.mem_map.1 hv
        exact hlater later hmem

/-- Two more blocks after the registration of four validators, and a set that is valid from height
nine on. -/
def laterCalls : List ChainCall :=
  [.verifyBlock2 Contract.sampleExternal Contract.signedBlock,
    .setValidators true 9 [4],
    .verifyBlock2 Contract.sampleExternal (Contract.sampleBlock 3 11 12 [0, 2, 3])]

/-- The contract after a block of one validator and two of four validators. -/
def verified : Storage :=
  (Contract.sampleCalls ++ laterCalls).foldl Storage.step Contract.sampleStorage

/-- All three blocks are verified. -/
lemma verified_eq : verified.blockHeight = 3 ∧ verified.currentRootHash = 12 ∧
    verified.getValidatorSets 0 = some [⟨[5], 0⟩, ⟨[8, 6, 5, 7], 2⟩, ⟨[4], 9⟩] := by
  decide +kernel

/-- Sets of validators are registered before and after blocks are verified: the next blocks are
verified with the second set, which is the one that the node asks, and those from height nine on
with the third. -/
theorem verifyBlock2_validators_second :
    ∃ sets, verified.getValidatorSets 0 = some sets ∧
      (∀ height, (validatorsForHeight (ofPublic sets) height : Outcome Error (List Address)) ≠
        .panic) ∧
      ∀ height, 3 ≤ height → ∃ set ∈ verified.validatorSets,
        set.validatorsArray = (if height < 9 then [8, 6, 5, 7] else [4]) ∧
        (validatorsForHeight (ofPublic sets) height : Outcome Error (List Address)) =
          .ok set.validatorsArray ∧
        ∀ (ext : BlockExternal) (block : BlockProof), block.height = height →
          verified.provers ext.msgSender = true →
          Contract.verifyBlock2 ext block verified =
            Contract.verifyWith ext set block (verified.updateValidatorSetIndex height) := by
  obtain ⟨hheight, -, hpublic⟩ := verified_eq
  have hfits : ∀ call ∈ Contract.sampleCalls ++ laterCalls, FitsU64 call := by
    simp only [Contract.sampleCalls, laterCalls, List.cons_append, List.nil_append,
      List.forall_mem_cons, FitsU64]
    exact ⟨trivial, by decide, trivial, by decide, trivial, by simp⟩
  have hheights : Runs.Along Storage.step (fun s call => call.NotBelow s) Contract.sampleStorage
      (Contract.sampleCalls ++ laterCalls) := by
    refine ⟨?_, trivial, ?_, trivial, ?_, trivial⟩
    all_goals
      change Storage.blockHeight _ ≤ _
      decide +kernel
  obtain ⟨sets, hsets, hpanic, hactive⟩ := @verifyBlock2_validators Error 1 [5] 9 ()
    Contract.sampleStorage verified (Contract.sampleCalls ++ laterCalls) rfl hfits hheights
    (Runs.foldl_mem_states _ _)
  obtain rfl : sets = _ := Option.some.inj (hsets.symm.trans hpublic)
  refine ⟨_, hsets, hpanic, fun height hge => ?_⟩
  obtain ⟨before, after, set, heq, -, -, hverify, hnode⟩ := hactive height (hheight ▸ hge)
  refine ⟨set, heq ▸ by simp, ?_, hnode, hverify⟩
  have hselected : (validatorsForHeight (ofPublic [⟨[5], 0⟩, ⟨[8, 6, 5, 7], 2⟩, ⟨[4], 9⟩]) height :
      Outcome Error (List Address)) = .ok (if height < 9 then [8, 6, 5, 7] else [4]) := by
    have hsmall : ∀ v ∈ ofPublic [⟨[5], 0⟩, ⟨[8, 6, 5, 7], 2⟩, ⟨[4], 9⟩], v.validFrom < U64 := by
      decide
    split_ifs with hlt
    · exact @validatorsForHeight_eq Error [⟨0, [5]⟩] [⟨9, [4]⟩] ⟨2, [8, 6, 5, 7]⟩ height hsmall
        (Nat.le_of_succ_le hge) (by simpa using hlt)
    · exact @validatorsForHeight_eq Error [⟨0, [5]⟩, ⟨2, [8, 6, 5, 7]⟩] [] ⟨9, [4]⟩ height hsmall
        (not_lt.1 hlt) (by simp)
  exact Outcome.ok.inj (hnode.symm.trans hselected)

/-! ## Recent roots -/

/-- The block has transactions. -/
def Block.nonEmpty (block : Block) : Bool := !block.content.state.txns.isEmpty

/-- A block without transactions leaves the root as it was before. -/
def Linked (root : Element) : List Block → Prop
  | [] => True
  | block :: rest =>
    (block.nonEmpty = false → block.rootHash = root) ∧ Linked block.rootHash rest

/-- The blocks of a chain over the root of the empty tree: at greater and greater heights, and
those without transactions leave the root as it was. -/
structure BlockChain (root : Element) (blocks : List Block) : Prop where
  heights : blocks.Pairwise fun a b => a.height < b.height
  linked : Linked root blocks

/-- The roots that are rolled up for the blocks, the newest first, down to that of the empty
tree. -/
def rolledRoots (root : Element) (blocks : List Block) : List Element :=
  ((blocks.filter Block.nonEmpty).map Block.rootHash).reverse ++ [root]

/-- The roots of further blocks come first. -/
lemma rolledRoots_append (root : Element) (blocks later : List Block) :
    rolledRoots root (blocks ++ later) =
      ((later.filter Block.nonEmpty).map Block.rootHash).reverse ++ rolledRoots root blocks := by
  simp [rolledRoots]

/-- The newest root that is rolled up for some blocks is that of the last of them. By induction on
the blocks before it. -/
lemma head?_rolledRoots {root : Element} {blocks : List Block} {block : Block}
    (h : Linked root (blocks ++ [block])) :
    (rolledRoots root (blocks ++ [block])).head? = some block.rootHash := by
  induction blocks generalizing root with
  | nil =>
    simp only [List.nil_append, rolledRoots]
    by_cases hne : block.nonEmpty = true
    · simp [hne]
    · have hroot := h.1 (by simpa using hne)
      simp [hne, hroot]
  | cons first rest ih =>
    have hrest := ih h.2
    by_cases hne : first.nonEmpty = true
    · have heq : rolledRoots root (first :: rest ++ [block]) =
          rolledRoots first.rootHash (rest ++ [block]) ++ [root] := by
        simp [rolledRoots, hne]
      rw [heq, List.head?_append, hrest]
      rfl
    · have hroot := h.1 (by simpa using hne)
      have heq : rolledRoots root (first :: rest ++ [block]) =
          rolledRoots first.rootHash (rest ++ [block]) := by
        simp [rolledRoots, hne, hroot]
      rw [heq, hrest]

/-- The part of a chain up to a block. -/
lemma Linked.of_append {root : Element} {blocks later : List Block}
    (h : Linked root (blocks ++ later)) : Linked root blocks := by
  induction blocks generalizing root with
  | nil => trivial
  | cons first rest ih => exact ⟨h.1, ih h.2⟩

/-- Blocks at different heights between two others are at most as many as these heights. -/
lemma length_le_of_heights {blocks : List Block} {low high : ℕ}
    (hsorted : blocks.Pairwise fun a b => a.height < b.height)
    (hlow : ∀ b ∈ blocks, low < b.height) (hhigh : ∀ b ∈ blocks, b.height < high) :
    blocks.length ≤ high - low - 1 := by
  have hnodup : (blocks.map Block.height).Nodup :=
    List.pairwise_map.2 (hsorted.imp fun hlt => hlt.ne)
  have hsub : (blocks.map Block.height).toFinset ⊆ Finset.Ioo low high := by
    intro h hh
    obtain ⟨b, hb, rfl⟩ := List.mem_map.1 (List.mem_toFinset.1 hh)
    exact Finset.mem_Ioo.2 ⟨hlow b hb, hhigh b hb⟩
  calc blocks.length = (blocks.map Block.height).toFinset.card := by
        rw [List.toFinset_card_of_nodup hnodup, List.length_map]
    _ ≤ (Finset.Ioo low high).card := Finset.card_le_card hsub
    _ = high - low - 1 := Nat.card_Ioo low high

/-- **The root of a block of the chain** is rolled up at most as many roots ago as there are
heights since the block. -/
lemma BlockChain.rolledRoots_of_mem {root : Element} {blocks : List Block}
    (h : BlockChain root blocks) {block : Block} (hmem : block ∈ blocks) {high : ℕ}
    (hhigh : ∀ b ∈ blocks, b.height < high) :
    ∃ k, k + block.height < high ∧ (rolledRoots root blocks)[k]? = some block.rootHash := by
  obtain ⟨before, after, rfl⟩ := List.append_of_mem hmem
  have hlinked : Linked root (before ++ [block]) := by
    refine @Linked.of_append _ _ after ?_
    rw [List.append_assoc, List.singleton_append]
    exact h.linked
  have hsorted := List.pairwise_cons.1 (List.pairwise_append.1 h.heights).2.1
  have hlen := length_le_of_heights hsorted.2 hsorted.1
    fun b hb => hhigh b (List.mem_append_right _ (List.mem_cons_of_mem _ hb))
  refine ⟨(after.filter Block.nonEmpty).length, ?_, ?_⟩
  · have hsum : ∀ a b c d : ℕ, a ≤ b → b ≤ c - d - 1 → d < c → a + d < c := by omega
    exact hsum _ _ _ _ (List.length_filter_le Block.nonEmpty after) hlen (hhigh block hmem)
  · have heq : before ++ block :: after = before ++ [block] ++ after := by simp
    rw [heq, rolledRoots_append, List.getElem?_append_right (by simp), List.length_reverse,
      List.length_map, Nat.sub_self, ← List.head?_eq_getElem?, head?_rolledRoots hlinked]

/-- The blocks of the store are those of the chain, at their heights. -/
def BlockStore.Within (store : BlockStore) (blocks : List Block) : Prop :=
  ∀ height block, store.get height = some block → block ∈ blocks ∧ block.height = height

/-- A root that the node finds recent enough is that of a block in its window. -/
lemma mem_recentRoots {store : BlockStore} {height : BlockHeight} {root : Element}
    (h : root ∈ recentRoots height store) :
    ∃ h' block, store.get h' = some block ∧ block.rootHash = root ∧
      height.next - RECENT_ROOT_COUNT ≤ h' ∧ h' < height.next := by
  obtain ⟨block, hblock, rfl⟩ := List.mem_map.1 h
  obtain ⟨entry, hentry, rfl⟩ := List.mem_map.1 hblock
  rw [List.mem_filter, Std.TreeMap.mem_toList_iff_getElem?_eq_some, decide_eq_true_eq] at hentry
  exact ⟨entry.1, entry.2, hentry.1, rfl, hentry.2⟩

/-- A block in the window of the next block is at most 64 heights below it. -/
lemma within_window {height high low k : ℕ} (hu64 : high < U64)
    (hheight : height = high ∨ BlockHeight.next height = high)
    (hlow : BlockHeight.next height - RECENT_ROOT_COUNT ≤ low)
    (hnext : low < BlockHeight.next height) (hk : k + low < high) : k < 64 := by
  have hwindow : ∀ next : ℕ, next = (height + 1) % 2 ^ 64 → height = high ∨ next = high →
      next - 64 ≤ low → low < next → k < 64 := by
    simp only [U64] at hu64
    omega
  exact hwindow _ rfl hheight hlow hnext

/-- **Recent roots.** The blocks of a chain are rolled up in order. Then the recent roots of
transactions that a node, which is no prover, accepts for the next block, when it validates the
block or when it takes the transaction into its mempool, are contained in the roots of the
contract when it verifies that block.

**Proof sketch.** The ring of the contract has the last roots that were rolled up
(`Storage.recent_run`). A recent root that the node accepts is that of a block among the last ones
of the chain, and as only blocks with transactions are rolled up, it is not further back in the ring
(`BlockChain.rolledRoots_of_mem`). -/
theorem containsRootHashes_of_validateTxn {P : Primitives} {storeReads : Bool} {mode : Mode}
    {prover : Address} {initialValidators : List Address} {root : Element} {u : Unit}
    {s₀ : Storage} {calls : List ChainCall} {blocks : List Block} {store : BlockStore}
    {height high : BlockHeight} {utxos : Fin 6 → Option UtxoProof}
    (hinit : Contract.initializeRollup prover initialValidators root .empty = (.ok u, s₀))
    (hcalls : ∀ call ∈ calls, call.NotSetRoot)
    (hchain : BlockChain root blocks) (hhigh : ∀ block ∈ blocks, block.height < high)
    (hrolled : (s₀.rolledUp calls).map BlockProof.newRoot =
      (blocks.filter Block.nonEmpty).map Block.rootHash)
    (hstore : store.Within blocks) (hmode : mode.isProver = false)
    (hu64 : high < U64) (hheight : height = high ∨ height.next = high)
    (hutxos : ∀ i utxo, utxos i = some utxo →
      ∃ notesTree, validateTxn P storeReads mode utxo height store notesTree = .ok ()) :
    (s₀.run calls).containsRootHashes
      (fun i => ((utxos i).map UtxoProof.recentRoot).getD Element.NULL_HASH) = true := by
  have hrecent : (s₀.run calls).roots.Recent (rolledRoots root blocks) := by
    rw [rolledRoots, ← hrolled]
    refine Storage.recent_run ?_ hcalls
    rw [(Contract.initializeRollup_eq_ok hinit).2]
    exact (RingBuffer.recent_nil _).push root
  refine (Storage.containsRootHashes_iff _ _).2 fun i => ?_
  cases hutxo : utxos i with
  | none => exact .inl rfl
  | some utxo =>
    rw [Option.map_some, Option.getD_some]
    obtain ⟨notesTree, hok⟩ := hutxos i utxo hutxo
    have hcheck := (validateTxn_eq_ok_iff.1 hok).2
    unfold checkRecentRoot at hcheck
    split_ifs at hcheck with hzero hreads hroot
    · exact .inl hzero
    · right
      rw [hmode, Bool.not_false, Bool.and_true, Bool.not_eq_true', Bool.not_eq_false,
        List.contains_iff_mem] at hroot
      obtain ⟨h', block, hget, heq, hlow, hnext⟩ := mem_recentRoots hroot
      obtain ⟨hmem, rfl⟩ := hstore h' block hget
      obtain ⟨k, hk, hslot⟩ := hchain.rolledRoots_of_mem hmem hhigh
      rw [← heq]
      exact hrecent.exists_slot (within_window hu64 hheight hlow hnext hk) hslot

/-! ### Samples -/

namespace SampleChain

/-- Primitives whose verifier accepts everything. -/
def primitives : Primitives :=
  { BlockCache.Sample.primitives with verifyProof := fun _ _ => some true }

/-- A transaction without leaves that refers to a root. -/
def utxo (recentRoot : Element) : UtxoProof where
  recentRoot := recentRoot
  mbHash := 0
  mbValue := 0
  inputLeaves := (0, 0)
  outputLeaves := (0, 0)
  proof := []

/-- The first block has a transaction, the second has none. -/
def blocks : List Block :=
  [{ BlockCache.Sample.emptyBlock 1 9 with
      content := { (BlockCache.Sample.emptyBlock 1 9).content with state := ⟨9, [utxo 0]⟩ } },
    BlockCache.Sample.emptyBlock 2 9]

/-- The second block is stored. -/
def store : BlockStore := BlockStore.empty.set (BlockCache.Sample.emptyBlock 2 9)

/-- The contract after its deployment, with one validator. -/
def deployed : Storage := (Contract.initializeRollup 1 [5] 7 .empty).2

/-- The first block is rolled up. -/
def rollUp : ChainCall :=
  .verifyBlock2
    { msgSender := 1
      txns := fun _ =>
        { msgSender := 1, transferFromReturns := true, transferReturns := true,
          approveReturns := true, resetReturns := true, isUSDCBlacklisted := fun _ => false,
          isRouterWhitelisted := fun _ => true, signerIsFrom := true,
          keccak := fun _ _ _ => 0, routerReturns := true, afterRouterCall := .initial }
      keccak256 := BlockCache.Sample.primitives.keccak256
      recover := fun _ _ _ _ => some 5
      aggregateVerifies := fun _ _ _ _ _ => true }
    { aggrProof := [], aggrInstances := fun _ => 0, oldRoot := 7, newRoot := 9,
      utxoHashes := fun _ => ⟨0, 0, 0⟩, otherHashFromBlockHash := 0, height := 1,
      signatures := [⟨0, 0, 27⟩] }

/-- The rolled up roots of the sample are those of the blocks. -/
lemma rolledUp_rollUp :
    (deployed.rolledUp [rollUp]).map BlockProof.newRoot =
      (blocks.filter Block.nonEmpty).map Block.rootHash := by
  rfl

/-- The blocks of the sample are a chain. -/
lemma blockChain : BlockChain 7 blocks where
  heights := by simp [blocks, BlockCache.Sample.emptyBlock, Block.height]
  linked := ⟨fun h => absurd h (by decide), fun _ => rfl, trivial⟩

/-- The store has the blocks of the sample only. -/
lemma store_within : store.Within blocks := by
  intro height block hget
  rw [store, BlockStore.get_set] at hget
  split_ifs at hget with hheight
  · cases hget
    exact ⟨List.mem_cons_of_mem _ (List.mem_singleton.2 rfl), hheight⟩
  · simp [BlockStore.get, BlockStore.empty] at hget

end SampleChain

open SampleChain in
/-- A transaction refers to the root of a block that was rolled up before an empty block. -/
theorem containsRootHashes_of_validateTxn_second :
    validateTxn primitives true .validator (utxo 9) 3 store .new = .ok () ∧
      (deployed.run [rollUp]).containsRootHashes (fun i => if i = 0 then 9 else 0) = true := by
  have hok : validateTxn primitives true .validator (utxo 9) 3 store .new = .ok () := by
    decide
  refine ⟨hok, ?_⟩
  have h := @containsRootHashes_of_validateTxn primitives true .validator 1 [5] 7 () deployed
    [rollUp] blocks store 3 3 (fun i => if i = 0 then some (utxo 9) else none) rfl
    (by simp [rollUp, ChainCall.NotSetRoot]) blockChain (by decide) rolledUp_rollUp store_within
    rfl (by decide) (.inl rfl)
    (fun i u hu => by
      split_ifs at hu
      cases hu
      exact ⟨.new, hok⟩)
  convert h using 2
  funext i
  split_ifs <;> rfl

open SampleChain in
/-- A prover takes every root to be recent enough. -/
theorem validateTxn_prover_any_root :
    validateTxn primitives true .prover (utxo 5) 1 BlockStore.empty .new = .ok () ∧
      (deployed.run []).containsRootHashes (fun i => if i = 0 then 5 else 0) = false := by
  decide

end TempoRollup.Node
