import TempoRollup.Node.State

set_option relaxedAutoImplicit false
set_option autoImplicit false

/-!
# Validation of transactions

`node/src/utxo.rs` and `node/src/node/transaction.rs`: what a node checks before it takes a
transaction into its mempool.

## Main definitions

* `EthView` — the answers of the Ethereum node during one validation.
* `validateTxn` — the checks against the node's own state.
* `NodeShared.validateTransaction` — the same after the checks against the contract.
* `receiveTransaction`, `submitTransaction` — the two ways into the mempool.

## Main results

* `validateTxn_eq_ok_iff`, `validateTxn_eq_panic_iff`.
* `validateTransaction_eq_ok_iff`, `validateTransaction_eq_panic_iff`.
-/

open Exec

namespace TempoRollup.Node

/-- What the Ethereum node answers during one validation: its block number, and the contract at
a height; `none` is an error of the request. -/
structure EthView where
  blockNumber : Option ℕ
  rollupAt : ℕ → Option Contract.Rollup

section Validation

variable (P : Primitives) (storeReads : Bool)

/-! ## The checks -/

/-- The roots of the last `RECENT_ROOT_COUNT` heights before the next block. -/
def recentRoots (height : BlockHeight) (blockStore : BlockStore) : List Element :=
  (blockStore.list (height.next - RECENT_ROOT_COUNT) height.next).map Block.rootHash

/-- The check of the recent root. No root is looked up when it is zero; `storeReads` says
whether the block store can be read. -/
def checkRecentRoot (mode : Mode) (utxo : UtxoProof) (height : BlockHeight)
    (blockStore : BlockStore) : Outcome Error Unit :=
  if utxo.recentRoot = Element.NULL_HASH then .ok ()
  else if !storeReads then .err .blockStore
  else if !(recentRoots height blockStore).contains utxo.recentRoot && !mode.isProver then
    .err (.utxoRootIsNotRecentEnough utxo.recentRoot (recentRoots height blockStore) (utxo.hash P))
  else .ok ()

/-- The check of a leaf, with the error for a leaf that is in the tree. -/
def checkLeaf (notesTree : PersistentMerkleTree) (inTree : Error) (leaf : Element) :
    Outcome Error Unit :=
  if leaf.toNat ≥ Element.MODULUS then .err (.invalidElementSize leaf)
  else if leaf ≠ Element.NULL_HASH ∧ notesTree.tree.containsElement leaf then .err inTree
  else .ok ()

/-- `validate_txn`. -/
def validateTxn (mode : Mode) (utxo : UtxoProof) (height : BlockHeight) (blockStore : BlockStore)
    (notesTree : PersistentMerkleTree) : Outcome Error Unit := do
  if !(← utxo.verify P) then .err .invalidProof
  checkRecentRoot P storeReads mode utxo height blockStore
  checkLeaf notesTree (.noteAlreadySpent utxo.inputLeaves.1 (utxo.hash P)) utxo.inputLeaves.1
  checkLeaf notesTree (.noteAlreadySpent utxo.inputLeaves.2 (utxo.hash P)) utxo.inputLeaves.2
  checkLeaf notesTree (.outputNoteExists utxo.outputLeaves.1) utxo.outputLeaves.1
  checkLeaf notesTree (.outputNoteExists utxo.outputLeaves.2) utxo.outputLeaves.2

/-- The leaves of a mint. -/
def UtxoProof.mintLeaves (utxo : UtxoProof) : Prop :=
  utxo.inputLeaves = (0, 0) ∧ utxo.outputLeaves.2 = 0

/-- The leaves of a burn. -/
def UtxoProof.burnLeaves (utxo : UtxoProof) : Prop :=
  utxo.inputLeaves.2 = 0 ∧ utxo.outputLeaves = (0, 0)

/-- The check of a mint's leaves is decidable. -/
instance (utxo : UtxoProof) : Decidable utxo.mintLeaves :=
  inferInstanceAs (Decidable (_ ∧ _))

/-- The check of a burn's leaves is decidable. -/
instance (utxo : UtxoProof) : Decidable utxo.burnLeaves :=
  inferInstanceAs (Decidable (_ ∧ _))

/-- The checks of `validate_transaction` against the contract at the safe height. -/
def checkContract (eth : EthView) (safeEthHeightOffset : ℕ) (utxo : UtxoProof) :
    Outcome Error Unit :=
  match eth.blockNumber with
  | none => .err .failedToGetEthBlockNumber
  | some ethBlock =>
    -- below the offset the safe height is zero
    let rollupContractAtSafeHeight := eth.rollupAt (ethBlock - safeEthHeightOffset)
    if utxo.mintLeaves then
      match rollupContractAtSafeHeight with
      | none => .err .contracts
      | some rollup =>
        if rollup.getMint utxo.outputLeaves.1 = 0 then
          .err (.mintIsNotInTheContract utxo.outputLeaves.1)
        else .ok ()
    else if utxo.burnLeaves then
      match rollupContractAtSafeHeight with
      | none => .err .contracts
      | some rollup =>
        if rollup.hasBurn utxo.inputLeaves.1 then .ok ()
        else .err (.burnIsNotInTheContract utxo.inputLeaves.1)
    else .err .invalidMintOrBurnLeaves

/-- `validate_transaction`. -/
def NodeShared.validateTransaction (eth : EthView) (self : NodeShared) (utxo : UtxoProof) :
    Outcome Error Unit := do
  if utxo.mbHash ≠ Element.NULL_HASH ∧ utxo.mbValue ≠ Element.NULL_HASH then
    checkContract eth self.config.safeEthHeightOffset utxo
  validateTxn P storeReads self.config.mode utxo self.height self.blockStore self.notesTree

/-- `receive_transaction`: an invalid transaction is logged and dropped. -/
def receiveTransaction (eth : EthView) (txn : UtxoProof) : Call Unit := fun self =>
  match self.validateTransaction P storeReads eth txn with
  | .ok () => (.ok (), { self with mempool := self.mempool.add (txn.hash P) txn txn.leaves })
  | .err _ => (.ok (), self)
  | .panic => (.panic, self)

/-- The end of `submit_transaction_and_wait`, up to the wait: a transaction that was validated is
sent to the peers and added with the caller's channel. While a mint or burn is not in the
contract yet, the source waits and validates again. -/
def submitTransaction (eth : EthView) (waiter : Waiter) (utxo : UtxoProof) : Call Unit := do
  let self ← Program.get
  Program.lift (self.validateTransaction P storeReads eth utxo)
  emit (.sendAll (.transaction utxo))
  Program.modify fun self =>
    { self with mempool := self.mempool.addWait (utxo.hash P) utxo utxo.leaves waiter }

end Validation

/-! ## What is accepted -/

section Accepted

variable {P : Primitives} {storeReads : Bool}

/-- A valid transaction that is received goes to the mempool. -/
lemma receiveTransaction_of_ok {self : NodeShared} {eth : EthView} {txn : UtxoProof}
    (h : self.validateTransaction P storeReads eth txn = .ok ()) :
    (receiveTransaction P storeReads eth txn self).2 =
      { self with mempool := self.mempool.add (txn.hash P) txn txn.leaves } := by
  rw [receiveTransaction, h]

/-- Both parts of a sequence of checks return. -/
lemma then_eq_ok_iff {ε α : Type} {o : Outcome ε Unit} {o' : Outcome ε α} {a : α} :
    (do o; o') = .ok a ↔ o = .ok () ∧ o' = .ok a := by
  rw [Outcome.bind_eq_ok]
  exact ⟨fun ⟨_, h, h'⟩ => ⟨h, h'⟩, fun ⟨h, h'⟩ => ⟨(), h, h'⟩⟩

/-- A sequence of checks panics when one of them does. -/
lemma then_eq_panic_iff {ε α : Type} {o : Outcome ε Unit} {o' : Outcome ε α} :
    (do o; o') = .panic ↔ o = .panic ∨ (o = .ok () ∧ o' = .panic) := by
  cases o <;> simp

/-- A leaf passes when it is canonical and, if it is not null, not in the tree. -/
lemma checkLeaf_eq_ok_iff {notesTree : PersistentMerkleTree} {inTree : Error} {leaf : Element} :
    checkLeaf notesTree inTree leaf = .ok () ↔
      leaf.toNat < Element.MODULUS ∧
        (leaf ≠ Element.NULL_HASH → notesTree.tree.containsElement leaf = false) := by
  unfold checkLeaf
  split_ifs with hsize hmem
  · simp [hsize]
  · simp only [false_iff, not_and, not_forall]
    exact fun _ => ⟨hmem.1, by simp [hmem.2]⟩
  · simp only [true_iff]
    exact ⟨by omega, fun hne => by simpa using fun h => hmem ⟨hne, h⟩⟩

/-- Checking a leaf does not panic. -/
lemma checkLeaf_ne_panic (notesTree : PersistentMerkleTree) (inTree : Error) (leaf : Element) :
    checkLeaf notesTree inTree leaf ≠ .panic := by
  unfold checkLeaf
  split_ifs <;> simp

/-- Checking the recent root does not panic. -/
lemma checkRecentRoot_ne_panic (mode : Mode) (utxo : UtxoProof) (height : BlockHeight)
    (blockStore : BlockStore) :
    checkRecentRoot P storeReads mode utxo height blockStore ≠ .panic := by
  unfold checkRecentRoot
  split_ifs <;> simp

/-- Checking the contract does not panic. -/
lemma checkContract_ne_panic (eth : EthView) (offset : ℕ) (utxo : UtxoProof) :
    checkContract eth offset utxo ≠ .panic := by
  unfold checkContract
  split
  · simp
  · dsimp only
    split_ifs
    · split
      · simp
      · split_ifs <;> simp
    · split
      · simp
      · split_ifs <;> simp
    · simp

/-- A transaction that the verifier accepts, with leaves that are field elements and not in the
tree. -/
structure Acceptable (P : Primitives) (notesTree : PersistentMerkleTree) (utxo : UtxoProof) :
    Prop where
  proof : P.verifyProof utxo.proof (utxo.instances.map Element.toBase) = some true
  canonical : ∀ leaf ∈ utxo.leaves, leaf.toNat < Element.MODULUS
  new : ∀ leaf ∈ utxo.leaves, leaf ≠ Element.NULL_HASH →
    notesTree.tree.containsElement leaf = false

variable {mode : Mode} {utxo : UtxoProof} {height : BlockHeight} {blockStore : BlockStore}
  {notesTree : PersistentMerkleTree}

/-- The first check, of the proof. -/
lemma verify_bind {α : Type} (rest : Outcome Error α) :
    (do if !(← utxo.verify P) then .err .invalidProof
        rest) =
      match P.verifyProof utxo.proof (utxo.instances.map Element.toBase) with
      | some true => rest
      | some false => .err .invalidProof
      | none => .panic := by
  unfold UtxoProof.verify
  rcases P.verifyProof utxo.proof (utxo.instances.map Element.toBase) with _ | _ | _ <;> rfl

/-- **What `validate_txn` accepts.** -/
theorem validateTxn_eq_ok_iff :
    validateTxn P storeReads mode utxo height blockStore notesTree = .ok () ↔
      Acceptable P notesTree utxo ∧
        checkRecentRoot P storeReads mode utxo height blockStore = .ok () := by
  unfold validateTxn
  rw [verify_bind]
  constructor
  · intro h
    split at h
    · next hproof =>
      simp only [then_eq_ok_iff, checkLeaf_eq_ok_iff] at h
      obtain ⟨hroot, ⟨h1, h1'⟩, ⟨h2, h2'⟩, ⟨h3, h3'⟩, h4, h4'⟩ := h
      refine ⟨⟨hproof, ?_, ?_⟩, hroot⟩
      · simp only [UtxoProof.leaves, List.forall_mem_cons]
        exact ⟨h1, h2, h3, h4, by simp⟩
      · simp only [UtxoProof.leaves, List.forall_mem_cons]
        exact ⟨h1', h2', h3', h4', by simp⟩
    · cases h
    · cases h
  · rintro ⟨⟨hproof, hcanon, hnew⟩, hroot⟩
    simp only [UtxoProof.leaves, List.forall_mem_cons] at hcanon hnew
    rw [hproof]
    simp only [then_eq_ok_iff, checkLeaf_eq_ok_iff]
    exact ⟨hroot, ⟨hcanon.1, hnew.1⟩, ⟨hcanon.2.1, hnew.2.1⟩, ⟨hcanon.2.2.1, hnew.2.2.1⟩,
      hcanon.2.2.2.1, hnew.2.2.2.1⟩

/-- **When `validate_txn` panics**: exactly when the verifier returns an error. -/
theorem validateTxn_eq_panic_iff :
    validateTxn P storeReads mode utxo height blockStore notesTree = .panic ↔
      P.verifyProof utxo.proof (utxo.instances.map Element.toBase) = none := by
  unfold validateTxn
  rw [verify_bind]
  split
  · next h =>
    simp [h, then_eq_panic_iff, checkLeaf_ne_panic, checkRecentRoot_ne_panic]
  · next h => simp [h]
  · next h => simp [h]

variable {eth : EthView} {self : NodeShared}

/-- **What `validate_transaction` accepts.** -/
theorem validateTransaction_eq_ok_iff :
    self.validateTransaction P storeReads eth utxo = .ok () ↔
      (utxo.mbHash ≠ 0 → utxo.mbValue ≠ 0 →
        checkContract eth self.config.safeEthHeightOffset utxo = .ok ()) ∧
      Acceptable P self.notesTree utxo ∧
        checkRecentRoot P storeReads self.config.mode utxo self.height self.blockStore =
          .ok () := by
  unfold NodeShared.validateTransaction
  split_ifs with hmb
  · rw [then_eq_ok_iff, validateTxn_eq_ok_iff]
    exact and_congr_left fun _ => ⟨fun h _ _ => h, fun h => h hmb.1 hmb.2⟩
  · rw [validateTxn_eq_ok_iff]
    exact ⟨fun h => ⟨fun h1 h2 => absurd ⟨h1, h2⟩ hmb, h⟩, fun h => h.2⟩

/-- **When `validate_transaction` panics**: when it reaches the verifier and that returns an
error. -/
theorem validateTransaction_eq_panic_iff :
    self.validateTransaction P storeReads eth utxo = .panic ↔
      (utxo.mbHash ≠ 0 → utxo.mbValue ≠ 0 →
        checkContract eth self.config.safeEthHeightOffset utxo = .ok ()) ∧
      P.verifyProof utxo.proof (utxo.instances.map Element.toBase) = none := by
  unfold NodeShared.validateTransaction
  split_ifs with hmb
  · rw [then_eq_panic_iff, validateTxn_eq_panic_iff]
    constructor
    · rintro (h | h)
      · exact absurd h (checkContract_ne_panic _ _ _)
      · exact ⟨fun _ _ => h.1, h.2⟩
    · intro h
      exact .inr ⟨h.1 hmb.1 hmb.2, h.2⟩
  · rw [validateTxn_eq_panic_iff]
    exact ⟨fun h => ⟨fun h1 h2 => absurd ⟨h1, h2⟩ hmb, h⟩, fun h => h.2⟩

/-- **What the checks against the contract accept**: a mint or a burn whose leaf is registered
at the safe height. -/
lemma checkContract_eq_ok {offset : ℕ} (h : checkContract eth offset utxo = .ok ()) :
    ∃ ethBlock rollup, eth.blockNumber = some ethBlock ∧
      eth.rollupAt (ethBlock - offset) = some rollup ∧
      ((utxo.mintLeaves ∧ rollup.getMint utxo.outputLeaves.1 ≠ 0) ∨
        (utxo.burnLeaves ∧ rollup.hasBurn utxo.inputLeaves.1 = true)) := by
  unfold checkContract at h
  split at h
  · cases h
  · next ethBlock hblock =>
    dsimp only at h
    split_ifs at h with hmint hburn
    · split at h
      · cases h
      · next rollup hrollup =>
        split_ifs at h with hzero
        exact ⟨ethBlock, rollup, hblock, hrollup, .inl ⟨hmint, hzero⟩⟩
    · split at h
      · cases h
      · next rollup hrollup =>
        split_ifs at h with hhas
        exact ⟨ethBlock, rollup, hblock, hrollup, .inr ⟨hburn, hhas⟩⟩

end Accepted

end TempoRollup.Node
