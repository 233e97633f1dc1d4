import TempoRollup.Contract.Vault
import TempoRollup.Circuits.Accumulated
import TempoRollup.Node.Settlement

set_option relaxedAutoImplicit false
set_option autoImplicit false

/-!
# The backing of the notes

What the notes of the rollup are worth, against the tokens of the contract. The circuits keep the
value of the notes in the tree equal to what blocks minted less what they burned; the contract
keeps its tokens equal to what was paid in less what it paid out. Here the two accounts are joined,
over all runs of the contract: a mint of a block is a registered one, no two blocks settle the
same mint, and a burn of a block is worth what the contract pays for it.

The account of the circuits is that of the witnesses behind the verified blocks. It is assumed of
each of these that it has witnesses, `BlockProof.Aggregates`, since the contract verifies the
outermost proof only; and of routers what `Env.RoutersOpen` says.

## Main definitions

* `RollsUpTxns` — what a block shows of its transactions.
* `Vault.SettledBy` — the log of the contract settles what transactions mint and burn.
* `Vault.Backed` — the invariant.

## Main results

* `BlockProof.Aggregates.txns` — the transactions behind a verified block.
* `Vault.SettledBy.verifyTxn` — one transaction, in the circuit and in the contract.
* `Vault.Backed.verifyBlock2` — one block.
* `Vault.notes_backed` — the unspent notes and the mints that are not settled are covered by the
  balance.
-/

open Exec ConstraintSystem
open TempoRollup.Circuits

namespace TempoRollup.Contract

/-! ## The transactions behind a block -/

section Txns

variable {env : ConstraintSystem.Env Fr} {depth : ℕ}

/-- The three public hashes of a transaction of a block. -/
def UtxoHashes.toBase (hashes : UtxoHashes) : List Fr :=
  [hashes.recentRoot.toBase, hashes.mb.toBase, hashes.value.toBase]

/-- The public inputs of a transaction that the block shows. -/
def publicHashes (t : TxnAssignment depth) : List Fr :=
  [t.instances.getD 0 0, t.instances.getD 1 0, t.instances.getD 2 0]

/-- The leaves among seven public inputs. -/
lemma drop_eq_leaves {t : TxnAssignment depth} (h : t.instances.length = 7) :
    t.instances.drop 3 = t.leaves := by
  have hrow : ∀ i, t.instances.getD (3 + i) 0 = (t.instances.drop 3).getD i 0 := by
    intro i
    rw [List.getD_eq_getElem?_getD, List.getD_eq_getElem?_getD, List.getElem?_drop]
  have hlen : (t.instances.drop 3).length = 4 := by
    rw [List.length_drop, h]
  obtain ⟨a, b, c, d, heq⟩ := List.length_eq_four.1 hlen
  rw [TxnAssignment.leaves, hrow 0, hrow 1, hrow 2, hrow 3, heq]
  rfl

/-- The leaves of UTXO proofs with seven public inputs each. -/
lemma utxoLeafs_map {ts : List (TxnAssignment depth)} (h : ∀ t ∈ ts, t.instances.length = 7) :
    utxoLeafs (ts.map TxnAssignment.instances) = ts.flatMap TxnAssignment.leaves := by
  rw [utxoLeafs, List.flatMap_map]
  exact List.flatMap_congr fun t ht => drop_eq_leaves (h t ht)

/-- Leaves that lead from the root of a tree are inserted in a tree whose messages are hashed. By
induction on the leaves. -/
lemma treeHashed_of_insertsTo (hinj : Set.InjOn env.hash env.hashed) {oldRoot newRoot : Fr}
    {leafs : List Fr} (h : InsertsTo env depth oldRoot leafs newRoot) {T : ℕ → Fr}
    (hT : TreeHashed env depth T) (hroot : treeRoot env depth T = oldRoot) :
    TreeHashed env depth (insertLeaves depth T leafs) := by
  induction leafs generalizing T oldRoot with
  | nil => exact hT
  | cons leaf leafs ih =>
    rw [InsertsTo] at h
    rw [insertLeaves, List.foldl_cons]
    split_ifs at h with h0
    · have htree : insertLeaf depth T leaf = T := if_pos h0
      rw [htree]
      exact ih h hT hroot
    · obtain ⟨w, rfl, hw, hold, hrest⟩ := h
      have htree : insertLeaf depth T w.leaf = Function.update T (slotOf depth w.leaf) w.leaf :=
        if_neg h0
      obtain ⟨-, hnew, hT'⟩ := w.sound hinj hw hT (hroot.trans hold)
      rw [htree]
      exact ih hrest hT' hnew.symm

/-- What a block shows of its transactions, and where their leaves lead. -/
structure RollsUpTxns (env : ConstraintSystem.Env Fr) (block : BlockProof)
    (ts : List (TxnAssignment depth)) : Prop where
  satisfied : ∀ t ∈ ts, t.Satisfied env
  shows : ts.map publicHashes = (List.finRange 6).map fun i => (block.utxoHashes i).toBase
  canonical : ∀ i, (block.utxoHashes i).value.toNat < Element.MODULUS
  inserts : InsertsTo env depth block.oldRoot.toBase (ts.flatMap TxnAssignment.leaves)
    block.newRoot.toBase

/-- A group with a witness rolls up its three transactions. -/
lemma GroupColumns.rollUps {column : List Fr} (h : GroupColumns env depth [column]) :
    RollUps env depth 3 (fun utxo => UtxoColumns env depth [utxo]) column := by
  obtain ⟨agg, instances, cells, hinstances, hshape, hsat⟩ := h
  obtain rfl : column = instances := List.head_eq_of_cons_eq hinstances
  exact AggregateUtxo.rollsUp rfl hshape hsat

/-- The witness of an aggregation. -/
lemma AggregationColumns.aggregates {AGG_N rows : ℕ} {below : List (List Fr) → Prop}
    {column : List Fr} (h : AggregationColumns env AGG_N rows below [column]) :
    ∃ (agg : AggregateAgg AGG_N) (cells : AggregateCells),
      (∀ snark ∈ agg.aggregates, snark.numInstance = [rows]) ∧
      agg.enforceConstraints below { env with instances := column } cells := by
  obtain ⟨agg, instances, cells, hinstances, hshape, hsat⟩ := h
  obtain rfl : column = instances := List.head_eq_of_cons_eq hinstances
  exact ⟨agg, cells, hshape, hsat⟩

/-- The contract's rows show the hashes of six transactions whose values are in them. -/
lemma AggregateVerifier.Rows.shows {aggrInstances : Fin 12 → Element} {oldRoot newRoot : Element}
    {utxoHashes : Fin 6 → UtxoHashes} {rows : List Fr}
    (h : AggregateVerifier.Rows aggrInstances oldRoot newRoot utxoHashes rows)
    {ts : List (TxnAssignment depth)} (hlen : ts.length = 6)
    (hcolumns : ∀ utxo ∈ ts.map TxnAssignment.instances, utxo.length = 7)
    (hvalues : HasValues rows 14 (ts.map TxnAssignment.instances)) :
    ts.map publicHashes = (List.finRange 6).map fun i => (utxoHashes i).toBase := by
  refine List.ext_getElem (by simp [hlen]) fun k hk hk' => ?_
  rw [List.length_map] at hk
  rw [List.length_map, List.length_finRange] at hk'
  have hget : (ts.map TxnAssignment.instances)[k]? = some ts[k].instances := by
    rw [List.getElem?_map, List.getElem?_eq_getElem hk]
    rfl
  have hvalue : ∀ c, c < 3 → _ := fun c hc =>
    hvalues (3 * k + c) _ (getElem?_utxoValues hcolumns hget hc)
  simp only [List.getElem_map, List.getElem_finRange, publicHashes, UtxoHashes.toBase]
  rw [← hvalue 0 (by decide), ← hvalue 1 (by decide), ← hvalue 2 (by decide)]
  exact congrArg₂ List.cons (h.recentRoot ⟨k, hk'⟩)
    (congrArg₂ List.cons (h.mb ⟨k, hk'⟩) (congrArg (List.cons · []) (h.value ⟨k, hk'⟩)))

/-- There is a satisfying assignment for each of some columns of UTXO proofs. -/
lemma exists_assignments {utxos : List (List Fr)}
    (h : ∀ utxo ∈ utxos, UtxoColumns env depth [utxo]) :
    ∃ ts : List (TxnAssignment depth), (∀ t ∈ ts, t.Satisfied env) ∧
      ts.map TxnAssignment.instances = utxos := by
  have hrange : utxos ∈ Set.range (List.map fun t : {t : TxnAssignment depth // t.Satisfied env} =>
      t.1.instances) := by
    rw [Set.range_list_map]
    intro utxo hmem
    obtain ⟨t, ht, hsat⟩ := h utxo hmem
    exact ⟨⟨t, hsat⟩, (List.head_eq_of_cons_eq ht).symm⟩
  obtain ⟨ts, rfl⟩ := hrange
  refine ⟨ts.map Subtype.val, fun t ht => ?_, List.map_map⟩
  obtain ⟨t, -, rfl⟩ := List.mem_map.1 ht
  exact t.2

/-- **The transactions behind a block** whose proofs have witnesses: six satisfying assignments of
the UTXO circuit, with the hashes of the block, whose leaves lead from its old root to its new one.

**Proof sketch.** Each group rolls up its three transactions (`GroupColumns.rollUps`), the inner
aggregation rolls up those of both groups, since it links their roots, and the outer one passes them
on (`AggregateAgg.rollUps_nested`). The contract has checked that the values are canonical, so that
a field element stands for one of them only. -/
theorem BlockProof.Aggregates.txns {block : BlockProof} (h : block.Aggregates env depth)
    {plonkVerifier : Bytes → List Element → Bool}
    (hverify : AggregateVerifier.verify plonkVerifier block.aggrProof block.aggrInstances
      block.oldRoot block.newRoot block.utxoHashes = true) :
    ∃ ts : List (TxnAssignment depth), RollsUpTxns env block ts := by
  simp only [AggregateVerifier.verify, Bool.and_eq_true, List.all_eq_true, List.mem_finRange,
    true_imp_iff, AggregateVerifier.isValidFieldElement, decide_eq_true_eq] at hverify
  obtain ⟨⟨-, hcanonical⟩, -⟩ := hverify
  obtain ⟨self, rows, cells, hrows, hshape, hsat⟩ := h
  obtain rfl : block.publicInputs = rows := List.head_eq_of_cons_eq hrows
  obtain ⟨utxos, hcount, hutxos, hrolls⟩ := AggregateAgg.rollUps_nested
    (fun _ => GroupColumns.rollUps) (fun _ => AggregationColumns.aggregates) hshape hsat
  have hcolumns : ∀ utxo ∈ utxos, utxo.length = 7 := fun utxo hmem => (hutxos utxo hmem).1
  obtain ⟨ts, hts, rfl⟩ := exists_assignments fun utxo hmem => (hutxos utxo hmem).2
  have hargs : AggregateVerifier.Rows block.aggrInstances block.oldRoot block.newRoot
      block.utxoHashes block.publicInputs :=
    AggregateVerifier.getD_instances block.aggrProof _ _ _ _
  refine ⟨ts, hts, hargs.shows ?_ hcolumns hrolls.values, fun i => (hcanonical i).2, ?_⟩
  · simpa using hcount
  · have hinserts := hrolls.inserts
    rwa [hargs.old, hargs.new,
      utxoLeafs_map fun t ht => hcolumns _ (List.mem_map_of_mem ht)] at hinserts

/-! ## One transaction -/

/-- What a settled key says about the transaction that names it: the mint of the transaction. -/
structure NamesMint (env : ConstraintSystem.Env Fr) (t : TxnAssignment depth) (mb : Element)
    (amount : ℕ) : Prop where
  minted : t.mintValue = amount
  burned : t.burnValue = 0
  leaf : mb.toBase ∈ t.leaves
  ne_zero : mb.toBase ≠ 0

section Names

variable {t : TxnAssignment depth} {mb value : Element}

/-- The public hashes of a transaction are those of a block. -/
structure ShownAs (t : TxnAssignment depth) (mb value : Element) : Prop where
  mb : t.instances.getD 1 0 = mb.toBase
  value : t.instances.getD 2 0 = value.toBase

/-- A canonical value that is not zero is not zero in the field. -/
lemma toBase_ne_zero_of_canonical (hcanon : value.toNat < Element.MODULUS) (hne : value ≠ 0) :
    value.toBase ≠ 0 := by
  intro hzero
  have hval := val_checked hcanon
  rw [hzero, ZMod.val_zero] at hval
  exact hne (BitVec.eq_of_toNat_eq hval.symm)

/-- A transaction without value mints and burns nothing. -/
lemma values_eq_zero (hshown : ShownAs t mb value) (hzero : value = 0) :
    t.mintValue = 0 ∧ t.burnValue = 0 := by
  have hvalue : t.mbValue = 0 := by
    rw [TxnAssignment.mbValue, hshown.value, hzero, Element.toBase_zero, ZMod.val_zero]
  constructor
  · rw [TxnAssignment.mintValue, hvalue, ite_self]
  · rw [TxnAssignment.burnValue, hvalue, ite_self]

/-- **A settled mint** is the mint of the transaction: its key is no nullifier, and the registered
amount is the value of its note. -/
lemma namesMint_of_mintOf (hcf : env.CollisionFree) (hsat : t.Satisfied env)
    (hshown : ShownAs t mb value) (hcanon : value.toNat < Element.MODULUS) (hne : value ≠ 0)
    (hof : MintOf env.hash env.hashed mb value.toNat) : NamesMint env t mb value.toNat := by
  obtain ⟨w, hw, hx, hcells, hleaves⟩ := t.exists_witness hsat
  have hvalue : w.mbValue = value.toBase := hx.mbValue.trans hshown.value
  have hmb : w.mbHash env.hash = mb.toBase := hx.mbHash.trans hshown.mb
  have hne' := toBase_ne_zero_of_canonical hcanon hne
  have hnat : value.toNat ≠ 0 := fun h => hne (BitVec.eq_of_toNat_eq h)
  have hmb0 : mb.toBase ≠ 0 := by
    intro hzero
    obtain ⟨n, hmem, hcm, hamount⟩ := hof
    rw [hzero, Circuits.NoteWitness.cm_eq_zero_iff hcf hmem] at hcm
    rw [hcm, ZMod.val_zero] at hamount
    exact hnat hamount.symm
  have hmint : w.isMint = true := by
    refine (Node.isMint_or_isBurn (hvalue ▸ hne')).resolve_right fun hburn => ?_
    rw [Node.mbHash_of_isBurn hburn] at hmb
    refine Node.not_mintOf_nullifier hcf hw.in1.of_instances (fun hzero => hmb0 ?_) hmb _ hof
    rw [← hmb, Circuits.InputWitness.nullifier, if_pos hzero]
  have hburn : w.isBurn = false := by
    by_contra h
    rw [Circuits.UtxoWitness.not_isMint_of_isBurn (by simpa using h)] at hmint
    cases hmint
  refine ⟨?_, ?_, ?_, hmb0⟩
  · rw [t.mintValue_eq hx hcells, if_pos hmint, hvalue, val_checked hcanon]
  · rw [t.burnValue_eq hx hcells, hburn]
    rfl
  · rw [hleaves, ← hmb, Node.mbHash_of_isMint hmint]
    simp [Circuits.UtxoWitness.leaves]

/-- **A settled burn** is the burn of the transaction: its key is no commitment. -/
lemma values_of_burnOf (hcf : env.CollisionFree) (hsat : t.Satisfied env)
    (hshown : ShownAs t mb value) (hcanon : value.toNat < Element.MODULUS) (hne : value ≠ 0)
    (hof : BurnOf env.hash env.hashed mb value.toNat) :
    t.mintValue = 0 ∧ t.burnValue = value.toNat := by
  obtain ⟨w, hw, hx, hcells, hleaves⟩ := t.exists_witness hsat
  have hvalue : w.mbValue = value.toBase := hx.mbValue.trans hshown.value
  have hmb : w.mbHash env.hash = mb.toBase := hx.mbHash.trans hshown.mb
  have hne' := toBase_ne_zero_of_canonical hcanon hne
  obtain ⟨n, hn, hnull, -⟩ := hof
  have hburn : w.isBurn = true := by
    refine (Node.isMint_or_isBurn (hvalue ▸ hne')).resolve_left fun hmint => ?_
    have hmem : n.nullifierMessage env.hash ∈ env.hashed := hn.nullifier_mem
    have hcm : w.out1.cm env.hash = env.hash (n.nullifierMessage env.hash) := by
      rw [← Node.mbHash_of_isMint hmint, hmb, ← hnull]
      rfl
    rw [Circuits.NoteWitness.cm] at hcm
    split_ifs at hcm with hzero
    · exact hcf.ne_zero _ hmem hcm.symm
    · exact Node.message_ne_nullifierMessage w.out1 _ _ _ _ (hcf.hash_inj hw.out1_mem hmem hcm)
  constructor
  · rw [t.mintValue_eq hx hcells, Circuits.UtxoWitness.not_isMint_of_isBurn hburn]
    rfl
  · rw [t.burnValue_eq hx hcells, if_pos hburn, hvalue, val_checked hcanon]

end Names

end Txns

/-! ## What transactions settle -/

namespace Vault

section Settled

variable {T : Type} {token : ERC20 T} {contract : Address} {verifiers : Verifiers}
  {plonkVerifier : Bytes → List Element → Bool} {env : ConstraintSystem.Env Fr} {depth : ℕ}
  {ts : List (TxnAssignment depth)} {w w' : World T}

/-- The log of the contract settles what the transactions mint and burn: each mint under the
commitment that it inserts, and only mints that are registered. -/
structure SettledBy (ts : List (TxnAssignment depth)) (w : World T) : Prop where
  mints : Bank.total (Bank.settledMints w.events) = (ts.map TxnAssignment.mintValue).sum
  burns : Bank.total (Bank.settledBurns w.events) = (ts.map TxnAssignment.burnValue).sum
  leaves : ((Bank.settledMints w.events).map fun entry => entry.1.toBase).Sublist
    (ts.flatMap TxnAssignment.leaves)
  ne_zero : ∀ entry ∈ Bank.settledMints w.events, entry.1.toBase ≠ 0
  registered : Bank.settledMints w.events ⊆ Bank.registeredMints w.events

/-- What others do, who settle nothing, leaves the settlement as it was. -/
lemma SettledBy.of_settled_eq (h : SettledBy ts w) (hsettled : Bank.settled w' = Bank.settled w)
    (hevents : w.events <+: w'.events) : SettledBy ts w' := by
  rw [Bank.settled, Bank.settled, Prod.mk.injEq] at hsettled
  obtain ⟨hmints, hburns⟩ := hsettled
  refine ⟨by rw [hmints, h.mints], by rw [hburns, h.burns], hmints ▸ h.leaves, hmints ▸ h.ne_zero,
    ?_⟩
  rw [hmints]
  exact fun entry hmem => (hevents.filterMap _).subset (h.registered hmem)

/-- One more transaction, with what it settles. -/
lemma SettledBy.append (h : SettledBy ts w) (hevents : w.events <+: w'.events)
    {t : TxnAssignment depth} (mints burns : List (Element × ℕ))
    (hsettled : Bank.settled w' =
      (Bank.settledMints w.events ++ mints, Bank.settledBurns w.events ++ burns))
    (hmints : Bank.total mints = t.mintValue) (hburns : Bank.total burns = t.burnValue)
    (hnames : ∀ entry ∈ mints, entry.1.toBase ≠ 0 ∧ entry ∈ Bank.registeredMints w.events)
    (hleaves : (mints.map fun entry => entry.1.toBase).Sublist t.leaves) :
    SettledBy (ts ++ [t]) w' := by
  rw [Bank.settled, Prod.mk.injEq] at hsettled
  obtain ⟨hsettledMints, hsettledBurns⟩ := hsettled
  refine ⟨?_, ?_, ?_, ?_, ?_⟩
  · rw [hsettledMints, Bank.total_append, h.mints, hmints]
    simp
  · rw [hsettledBurns, Bank.total_append, h.burns, hburns]
    simp
  · rw [hsettledMints, List.map_append, List.flatMap_append, List.flatMap_singleton]
    exact h.leaves.append hleaves
  · rw [hsettledMints]
    exact List.forall_mem_append.2 ⟨h.ne_zero, fun entry hmem => (hnames entry hmem).1⟩
  · rw [hsettledMints]
    refine List.append_subset.2 ⟨fun entry hmem => ?_, fun entry hmem => ?_⟩
    · exact (hevents.filterMap _).subset (h.registered hmem)
    · exact (hevents.filterMap _).subset (hnames entry hmem).2

/-- A burn that is executed has the value of the note behind its key. -/
lemma burnOf_of_executes {envT : Env T} {mb : Element} {value : ℕ} {success : Bool}
    (h : Bank.Executes token contract envT w mb value (true, success) w')
    (hinv : Inv env.hash env.hashed w.rollup) : BurnOf env.hash env.hashed mb value := by
  have hrouter : w.rollup.burnsKind mb = 1 → (w.rollup.burnsToRouter mb).amount = value →
      BurnOf env.hash env.hashed mb value := by
    intro hkind hamount
    rw [← hamount]
    exact (hinv.routers mb (by rw [hkind]; decide)).2
  cases h with
  | unknown hkind hkind' => exact absurd (hinv.routers mb hkind).1 hkind'
  | address hkind hne hamount ht => exact hamount ▸ hinv.burns mb hne
  | refused hkind hne hamount => exact hamount ▸ hinv.burns mb hne
  | router hkind hamount => exact hrouter hkind hamount
  | blacklisted hkind hamount => exact hrouter hkind hamount
  | returned hkind hamount => exact hrouter hkind hamount

/-- What the contract knows before a transaction is settled. -/
structure Knows (env : ConstraintSystem.Env Fr) (w : World T) : Prop where
  inv : Inv env.hash env.hashed w.rollup
  logged : Bank.MintsLogged w

/-- Runs keep what the contract knows. -/
lemma Knows.reaches (h : Knows env w) (hs : verifiers.Sound env.hash env.hashed)
    {allowed : Bool → Entry → Prop} {inner : Bool}
    (hrun : Bank.Reaches token contract verifiers allowed inner w w') : Knows env w' :=
  ⟨(hrun.simulates.grows hs).inv h.inv, hrun.mintsLogged h.logged⟩

/-- **One transaction of a block**, in the circuit and in the contract: what the contract settles is
what the transaction mints or burns.

**Proof sketch.** By cases on what the call settled. A value of zero settles nothing, and the
transaction neither mints nor burns. A settled mint has the amount that was registered under its
commitment, which the commitment determines; a settled burn has the value of the burned note. -/
theorem SettledBy.verifyTxn (h : SettledBy ts w) (hknows : Knows env w) (hcf : env.CollisionFree)
    {t : TxnAssignment depth} {mb value : Element} (hsat : t.Satisfied env)
    (hshown : ShownAs t mb value) (hcanon : value.toNat < Element.MODULUS) {envT : Env T}
    (hrouter : ∀ router calldata w, Bank.settled (envT.router router calldata w).2 = Bank.settled w)
    {u : Unit} (hok : Bank.verifyTxn token contract envT mb value w = (.ok u, w'))
    (hevents : w.events <+: w'.events) : SettledBy (ts ++ [t]) w' := by
  rcases Bank.verifyTxn_settles hrouter hok with ⟨hzero, hsettled⟩ | ⟨hne, hamount, hsettled⟩ |
    ⟨hne, ⟨success, w₁, hexec⟩, hsettled⟩
  · obtain ⟨hmint, hburn⟩ := values_eq_zero hshown hzero
    refine h.append hevents [] [] ?_ hmint.symm hburn.symm nofun
      (List.nil_sublist _)
    rw [hsettled, List.append_nil, List.append_nil]
    rfl
  · have hnat : value.toNat ≠ 0 := fun h => hne (BitVec.eq_of_toNat_eq h)
    have hof : MintOf env.hash env.hashed mb value.toNat :=
      hamount ▸ hknows.inv.mints mb (hamount.trans_ne hnat)
    have hnames := namesMint_of_mintOf hcf hsat hshown hcanon hne hof
    refine h.append hevents [(mb, value.toNat)] [] ?_ ?_ hnames.burned.symm
      ?_ ?_
    · rw [hsettled, List.append_nil]
    · rw [hnames.minted]
      simp [Bank.total]
    · rw [List.forall_mem_singleton]
      exact ⟨hnames.ne_zero, (hknows.logged.mem_iff _ _).2 ⟨hnat, hamount⟩⟩
    · exact List.singleton_sublist.2 hnames.leaf
  · have hof := burnOf_of_executes hexec ⟨hknows.inv.mints, hknows.inv.burns, hknows.inv.routers⟩
    obtain ⟨hmint, hburn⟩ := values_of_burnOf hcf hsat hshown hcanon hne hof
    refine h.append hevents [] [(mb, value.toNat)] ?_ hmint.symm ?_ nofun
      (List.nil_sublist _)
    · rw [hsettled, List.append_nil]
    · rw [hburn]
      simp [Bank.total]

/-- No two transactions settle the same mint. -/
lemma SettledBy.nodup (h : SettledBy ts w)
    (hfills : FillsEmpty depth (fun _ => 0) (ts.flatMap TxnAssignment.leaves)) :
    (Bank.settledMints w.events).Nodup := by
  have hsub := h.leaves.filter (p := fun leaf => decide (leaf ≠ 0))
  rw [List.filter_eq_self.2] at hsub
  · exact (hfills.nodup.sublist hsub).of_map _
  · intro leaf hleaf
    obtain ⟨entry, hentry, rfl⟩ := List.mem_map.1 hleaf
    exact decide_eq_true (h.ne_zero entry hentry)

/-- **The transactions of a block**, one after the other. By induction on the transactions. -/
lemma SettledBy.verifyTxns {envs : Fin 6 → Env T} {utxoHashes : Fin 6 → UtxoHashes}
    (hs : verifiers.Sound env.hash env.hashed) (hcf : env.CollisionFree)
    (hsigner : ∀ i, (envs i).signer ≠ contract)
    (hrouter : ∀ i, (envs i).RoutersOpen token contract verifiers)
    (hcanon : ∀ i, (utxoHashes i).value.toNat < Element.MODULUS)
    {new : List (TxnAssignment depth)} {is : List (Fin 6)}
    (hshows : List.Forall₂ (fun t i => publicHashes t = (utxoHashes i).toBase) new is)
    (hsat : ∀ t ∈ new, t.Satisfied env) (h : SettledBy ts w) (hknows : Knows env w) {u : Unit}
    (hok : Vault.verifyTxns token contract envs utxoHashes is w = (.ok u, w')) :
    SettledBy (ts ++ new) w' := by
  induction hshows generalizing ts w with
  | nil =>
    obtain ⟨-, rfl⟩ := Program.pure_eq_ok.1 hok
    rwa [List.append_nil]
  | @cons t i new is hshow hshows ih =>
    obtain ⟨hfirstSat, hsat⟩ := List.forall_mem_cons.1 hsat
    obtain ⟨_, w₁, hfirst, hrest⟩ := Program.bind_eq_ok.1 hok
    have hstep : Bank.Reaches token contract verifiers (fun _ _ => True) false w w₁ :=
      reaches_verifyTxn hsigner hrouter (.refl false w) hfirst
    have hshown : ShownAs t (utxoHashes i).mb (utxoHashes i).value := by
      simp only [publicHashes, UtxoHashes.toBase, List.cons.injEq, and_true] at hshow
      exact ⟨hshow.2.1, hshow.2.2⟩
    have hsettled := h.verifyTxn hknows hcf hfirstSat hshown (hcanon i)
      (fun router calldata w => (hrouter i router calldata w).settled_eq) hfirst
      hstep.extends_events
    rw [List.append_cons]
    exact ih hsat hsettled (hknows.reaches hs hstep) hrest

/-! ## The invariant -/

/-- The tree of the notes of some transactions. -/
def noteTree (ts : List (TxnAssignment depth)) : ℕ → Fr :=
  insertLeaves depth (fun _ => 0) (ts.flatMap TxnAssignment.leaves)

/-- The commitments that some transactions consume. -/
def consumedBy (ts : List (TxnAssignment depth)) : List Fr := ts.flatMap TxnAssignment.consumed

/-- The tree of the notes of further transactions. -/
lemma noteTree_append (ts new : List (TxnAssignment depth)) :
    noteTree (ts ++ new) =
      insertLeaves depth (noteTree ts) (new.flatMap TxnAssignment.leaves) := by
  rw [noteTree, List.flatMap_append, insertLeaves_append]
  rfl

/-- **The invariant of the contract**, for the transactions behind its verified blocks and the trees
of its roots: the current root is that of the notes of all transactions, the transactions keep the
balance of notes, and the log settles what they mint and burn. -/
structure Backed (env : ConstraintSystem.Env Fr) (blocks : List BlockProof) (v : Vault T)
    (ts : List (TxnAssignment depth)) (history : List (ℕ → Fr)) : Prop where
  satisfied : ∀ t ∈ ts, t.Satisfied env
  shows : ts.map publicHashes =
    blocks.flatMap fun block => (List.finRange 6).map fun i => (block.utxoHashes i).toBase
  notes : RunInv env depth history (noteTree ts) (consumedBy ts)
    (ts.map TxnAssignment.mintValue).sum (ts.map TxnAssignment.burnValue).sum
  fills : FillsEmpty depth (fun _ => 0) (ts.flatMap TxnAssignment.leaves)
  current : noteTree ts ∈ history
  root : v.storage.currentRootHash.toBase = treeRoot env depth (noteTree ts)
  roots : ∀ j, v.storage.rootHashes j = 0 ∨
    (v.storage.rootHashes j).toBase ∈ history.map (treeRoot env depth)
  settled : SettledBy ts v.world

variable {v v' : Vault T} {blocks : List BlockProof} {history : List (ℕ → Fr)}

/-- Calls that verify no block keep the invariant, if they settle nothing. -/
lemma Backed.congr (h : Backed env blocks v ts history)
    (hroots : v'.storage.roots = v.storage.roots)
    (hsettled : SettledBy ts v'.world) : Backed env blocks v' ts history := by
  have hslots : v'.storage.rootHashes = v.storage.rootHashes := congrArg RingBuffer.slots hroots
  refine { h with root := ?_, roots := ?_, settled := hsettled }
  · rw [Storage.currentRootHash_eq, hroots, ← Storage.currentRootHash_eq]
    exact h.root
  · rw [hslots]
    exact h.roots

/-- The recent root of a transaction of a block is a root of the contract. -/
lemma Backed.recentRoot (h : Backed env blocks v ts history) {hashes : Fin 6 → UtxoHashes}
    (hcontains : v.storage.containsRootHashes (fun i => (hashes i).recentRoot) = true)
    {new : List (TxnAssignment depth)}
    (hshows : new.map publicHashes = (List.finRange 6).map fun i => (hashes i).toBase)
    {t : TxnAssignment depth} (ht : t ∈ new) :
    t.recentRoot = 0 ∨ t.recentRoot ∈ history.map (treeRoot env depth) := by
  have hmem : publicHashes t ∈ new.map publicHashes := List.mem_map_of_mem ht
  rw [hshows] at hmem
  obtain ⟨i, -, hi⟩ := List.mem_map.1 hmem
  have hrecent : (hashes i).recentRoot.toBase = t.recentRoot := List.head_eq_of_cons_eq hi
  rw [← hrecent]
  rcases (Storage.containsRootHashes_iff _ _).1 hcontains i with hzero | ⟨j, hj⟩
  · rw [hzero]
    exact .inl Element.toBase_zero
  · rw [← hj]
    rcases h.roots j with hzero | hroot
    · rw [hzero]
      exact .inl Element.toBase_zero
    · exact .inr hroot

/-- **A verified block** keeps the invariant: its transactions refer to roots of the contract, their
leaves lead from the current root to the new one, and what they mint and burn is settled.

**Proof sketch.** The proofs of the block give its transactions (`BlockProof.Aggregates.txns`).
Their leaves go into empty slots of the tree of the current root, and their recent roots are roots
that the contract had, so that the run of the circuits goes on (`RunInv.txns`); the transactions are
settled one by one. -/
theorem Backed.verifyBlock2 (h : Backed env blocks v ts history) (hknows : Knows env v.world)
    (hs : verifiers.Sound env.hash env.hashed) (hcf : env.CollisionFree) {ext : BlockExternal}
    (hverify : ext.aggregateVerifies = AggregateVerifier.verify plonkVerifier)
    {envs : Fin 6 → Env T}
    (hsigner : ∀ i, (envs i).signer ≠ contract)
    (hrouter : ∀ i, (envs i).RoutersOpen token contract verifiers)
    {block : BlockProof} (haggregates : block.Aggregates env depth)
    (hok : Verified token contract ext envs block v v') :
    ∃ new history', Backed env (blocks ++ [block]) v' (ts ++ new) history' := by
  have haccept := hok.aggregate
  rw [hverify] at haccept
  obtain ⟨new, hnew⟩ := haggregates.txns haccept
  have hT := h.notes.history_hashed _ h.current
  have hold : treeRoot env depth (noteTree ts) = block.oldRoot.toBase := by
    rw [hok.oldRoot]
    exact h.root.symm
  obtain ⟨hfills, hnewRoot⟩ := hnew.inserts.sound hcf.injOn hT hold
  have hT' := treeHashed_of_insertsTo hcf.injOn hnew.inserts hT hold
  have hstep := h.notes.txns hcf new hnew.satisfied
    (fun t ht => h.recentRoot hok.recentRoots hnew.shows ht) hfills
  rw [← noteTree_append] at hstep hT' hnewRoot
  have hshows : List.Forall₂ (fun t i => publicHashes t = (block.utxoHashes i).toBase) new
      (List.finRange 6) := by
    have heq : List.Forall₂ Eq (new.map publicHashes)
        ((List.finRange 6).map fun i => (block.utxoHashes i).toBase) := by
      rw [List.forall₂_eq_eq_eq]
      exact hnew.shows
    rwa [List.forall₂_map_left_iff, List.forall₂_map_right_iff] at heq
  have hsettled := h.settled.verifyTxns hs hcf hsigner hrouter hnew.canonical hshows hnew.satisfied
    hknows hok.txns
  have hslots : ∀ j, v'.storage.rootHashes j = block.newRoot ∨
      v'.storage.rootHashes j = v.storage.rootHashes j := by
    intro j
    have hslot : v'.storage.rootHashes j =
        Function.update v.storage.rootHashes v.storage.nextRootHashIndex block.newRoot j :=
      congrFun (congrArg RingBuffer.slots hok.roots) j
    rw [hslot]
    by_cases hj : j = v.storage.nextRootHashIndex
    · exact .inl (by rw [hj, Function.update_self])
    · exact .inr (Function.update_of_ne hj _ _)
  refine ⟨new, noteTree (ts ++ new) :: history, ?_, ?_, ?_, ?_, List.mem_cons_self, ?_, fun j => ?_,
    hsettled⟩
  · exact List.forall_mem_append.2 ⟨h.satisfied, hnew.satisfied⟩
  · rw [List.map_append, h.shows, hnew.shows, List.flatMap_append, List.flatMap_singleton]
  · have hremember := hstep.remember hT'
    simpa only [consumedBy, List.flatMap_append, List.map_append, List.sum_append] using hremember
  · rw [List.flatMap_append, fillsEmpty_append]
    exact ⟨h.fills, hfills⟩
  · rw [Storage.currentRootHash_eq, hok.roots, ← hnewRoot]
    exact congrArg Element.toBase (RingBuffer.slots_push_last v.storage.roots block.newRoot)
  · rw [List.map_cons, List.mem_cons, ← hnewRoot]
    rcases hslots j with hj | hj
    · rw [hj]
      exact .inr (.inl rfl)
    · rw [hj]
      exact (h.roots j).imp_right .inr

/-- A new contract has no mints and burns. -/
lemma toRollup_initialized {prover : Address} {validators : List Address} {root : Element}
    {s : Storage} {u : Unit}
    (h : initializeRollup prover validators root .empty = (.ok u, s)) : s.toRollup = .initial := by
  rw [initializeRollup, Program.modify_bind_eq_ok] at h
  obtain ⟨_, s₁, hset, hroot⟩ := Program.bind_eq_ok.1 h
  obtain ⟨marked, rfl, -, -⟩ := setValidatorsUnchecked_eq_ok hset
  rw [Program.modify_eq_ok] at hroot
  rw [hroot]
  rfl

/-- What is known of a contract without mints, burns and events. -/
lemma knows_initial {w : World T} (hrollup : w.rollup = .initial) (hevents : w.events = []) :
    Knows env w := by
  refine ⟨hrollup ▸ inv_initial env.hash env.hashed, ?_, fun commitment amount => ?_⟩
  · rw [hevents]
    exact List.nodup_nil
  · rw [hevents, hrollup]
    refine ⟨nofun, fun h => absurd h.2.symm h.1⟩

/-- The balance in every run: at least the registered mints, less the settled burns. -/
lemma total_registeredMints_le (hstd : token.Standard) {w₀ : World T}
    (hrollup : w₀.rollup = .initial) (hevents : w₀.events = [])
    (hallowance : ∀ spender, token.allowance w₀.token contract spender = 0)
    {allowed : Bool → Entry → Prop} {inner : Bool}
    (h : Bank.Reaches token contract verifiers allowed inner w₀ w) :
    Bank.total (Bank.registeredMints w.events) ≤
      token.balanceOf w.token contract + Bank.total (Bank.settledBurns w.events) := by
  have hbounded : Bank.Bounded token contract w₀ := by
    refine ⟨fun spender => ?_, fun k => ?_⟩
    · rw [hallowance spender]
      decide
    · rw [hrollup]
      exact (by decide : 0 < UINT256_MAX)
  have haccounts := h.accounts hstd hbounded
  have hzero : ∀ spender, token.allowance w.token contract spender = 0 := fun spender =>
    Nat.le_zero.1 ((haccounts.allowance spender).trans_eq (hallowance spender))
  have hsurplus := haccounts.surplus
  rw [Bank.surplus, Bank.surplus, Bank.free_eq_balanceOf hallowance, Bank.free_eq_balanceOf hzero,
    Bank.minted_eq_total, Bank.minted_eq_total, Bank.processed_eq_total, Bank.processed_eq_total,
    hevents] at hsurplus
  have hnone : Bank.total (Bank.registeredMints []) = 0 := rfl
  have hnone' : Bank.total (Bank.settledBurns []) = 0 := rfl
  omega

/-- A new contract, with the root of the empty tree. -/
lemma backed_initialized (hcf : env.CollisionFree) (hempty : TreeHashed env depth fun _ => 0)
    {prover : Address} {validators : List Address} {root : Element} {s : Storage} {u : Unit}
    (hinit : initializeRollup prover validators root .empty = (.ok u, s))
    (hroot : root.toBase = treeRoot env depth fun _ => 0) (t : T) :
    Backed env [] ⟨s, t, []⟩ ([] : List (TxnAssignment depth)) [fun _ => 0] := by
  have hroots := (initializeRollup_eq_ok hinit).2
  refine ⟨nofun, rfl, RunInv.empty hcf hempty, trivial, List.mem_cons_self, ?_, fun j => ?_,
    ⟨rfl, rfl, List.nil_sublist _, nofun, List.nil_subset _⟩⟩
  · rw [Storage.currentRootHash_eq, hroots]
    exact (congrArg Element.toBase (RingBuffer.slots_push_last _ root)).trans hroot
  · have hslot : s.rootHashes j = Function.update Storage.empty.rootHashes 0 root j :=
      congrFun (congrArg RingBuffer.slots hroots) j
    rw [hslot]
    by_cases hj : j = 0
    · rw [hj, Function.update_self, hroot]
      exact .inr List.mem_cons_self
    · exact .inl (Function.update_of_ne hj _ _)

/-- **The invariant in every run** whose blocks have witnesses, by induction on the run. -/
lemma Reaches.exists_backed (hs : verifiers.Sound env.hash env.hashed) (hcf : env.CollisionFree)
    (h : Reaches token contract verifiers plonkVerifier v blocks v')
    (haggregates : ∀ block ∈ blocks, block.Aggregates env depth) (hknows : Knows env v.world)
    (hv : Backed env [] v ([] : List (TxnAssignment depth)) history) :
    ∃ (ts : List (TxnAssignment depth)) (history : List (ℕ → Fr)),
      Backed env blocks v' ts history := by
  induction h with
  | refl => exact ⟨[], history, hv⟩
  | @call b blocks h env' entry hopen hsigner hrouter ih =>
    obtain ⟨ts, history, hb⟩ := ih haggregates
    refine ⟨ts, history, ?_⟩
    have hrun := (Bank.Reaches.refl false b.world).call env' entry hopen hsigner hrouter
    rcases Program.atomically_cases (onWorld (Bank.call token contract verifiers env' entry)) b
      with hsame | ⟨u, hok⟩
    · rw [hsame]
      exact hb
    · obtain ⟨w, hw, hb'⟩ := onWorld_eq_ok.1 hok
      rw [Program.atomically, hw] at hrun
      rw [hb']
      exact hb.congr rfl (hb.settled.of_settled_eq hrun.settled_eq hrun.extends_events)
  | token h t ht ih =>
    obtain ⟨ts, history, hb⟩ := ih haggregates
    exact ⟨ts, history, hb.congr rfl (hb.settled.of_settled_eq rfl (List.prefix_refl _))⟩
  | @admin b blocks h call hcall ih =>
    obtain ⟨ts, history, hb⟩ := ih haggregates
    exact ⟨ts, history, hb.congr (step_of_administers b.storage hcall).2.1
      (hb.settled.of_settled_eq rfl (List.prefix_refl _))⟩
  | @verifyBlock2 b blocks h ext hverify envs hsigner hrouter block ih =>
    obtain ⟨ts, history, hb⟩ := ih fun block hmem => haggregates block (List.mem_append_left _ hmem)
    rcases hrun : Vault.verifyBlock2 token contract ext envs block b with ⟨u | e | _, v'⟩
    · rw [hrun] at haggregates
      obtain ⟨new, history', hb'⟩ := hb.verifyBlock2 (hknows.reaches hs h.world) hs hcf hverify
        hsigner hrouter (haggregates block (List.mem_append_right _ List.mem_cons_self))
        (verifyBlock2_eq_ok hrun)
      rw [Program.atomically, hrun]
      exact ⟨ts ++ new, history', hb'⟩
    all_goals
      rw [Program.atomically, hrun]
      exact ⟨ts, history, by simpa [Outcome.isOk] using hb⟩

/-- The notes are worth the settled mints less the settled burns, and the balance is at least the
registered mints less the settled burns; a mint that is settled is a registered one. -/
lemma Backed.covered {ts : List (TxnAssignment depth)} {history : List (ℕ → Fr)}
    (hb : Backed env blocks v ts history) (hstd : token.Standard)
    (hs : verifiers.Sound env.hash env.hashed) {prover : Address} {validators : List Address}
    {root : Element} {s : Storage}
    (hinit : initializeRollup prover validators root .empty = (.ok (), s)) {t : T}
    (hallowance : ∀ spender, token.allowance t contract spender = 0)
    (h : Reaches token contract verifiers plonkVerifier ⟨s, t, []⟩ blocks v) :
    unspentValue env depth (noteTree ts) (consumedBy ts) + Bank.pendingMints v.events ≤
      token.balanceOf v.token contract := by
  have hrollup := toRollup_initialized hinit
  have hknows : Knows env (⟨s, t, []⟩ : Vault T).world := knows_initial hrollup rfl
  have hlogged := (hknows.reaches hs h.world).logged
  -- the settled mints are registered ones, each of them once
  have hmints := Bank.total_eq_add_filter (hlogged.nodup.of_map _) (hb.settled.nodup hb.fills)
    hb.settled.registered
  have hbalance : Bank.total (Bank.registeredMints v.events) ≤
      token.balanceOf v.token contract + Bank.total (Bank.settledBurns v.events) :=
    total_registeredMints_le hstd hrollup rfl hallowance h.world
  have hsettledMints : Bank.total (Bank.settledMints v.events) = _ := hb.settled.mints
  have hsettledBurns : Bank.total (Bank.settledBurns v.events) = _ := hb.settled.burns
  have hnotes := hb.notes.balance
  have hpending : Bank.total (Bank.registeredMints v.events) =
      Bank.total (Bank.settledMints v.events) + Bank.pendingMints v.events := hmints
  omega

/-- **The balance covers the notes.** In every run of the contract from its deployment without a
`setRoot`, with any callers, with routers that call back through the entries that are open to
anyone, and with provers that choose the witnesses of their proofs, let the proofs of each verified
block have witnesses on every level. Then there are transactions that satisfy their circuits, with
the hashes that the verified blocks show, such that the current root is that of the tree of their
notes and no note is consumed twice; and the notes that are not consumed, together with the
registered mints that no block has settled, are worth no more than the tokens of the contract.

**Proof sketch.** The circuits keep the value of the notes equal to what the transactions mint less
what they burn. The contract settles a mint with the amount that was registered under its
commitment, which was paid in, and only once, since a commitment is inserted only once; it settles a
burn with the value of its note. So the notes are worth the settled mints less the settled burns.
The balance is at least the registered mints less the settled burns. -/
theorem notes_backed (hstd : token.Standard) (hs : verifiers.Sound env.hash env.hashed)
    (hcf : env.CollisionFree) (hempty : TreeHashed env depth fun _ => 0) {prover : Address}
    {validators : List Address}
    {root : Element} {s : Storage}
    (hinit : initializeRollup prover validators root .empty = (.ok (), s))
    (hroot : root.toBase = treeRoot env depth fun _ => 0) {t : T}
    (hallowance : ∀ spender, token.allowance t contract spender = 0)
    (h : Reaches token contract verifiers plonkVerifier ⟨s, t, []⟩ blocks v)
    (haggregates : ∀ block ∈ blocks, block.Aggregates env depth) :
    ∃ ts : List (TxnAssignment depth),
      (∀ txn ∈ ts, txn.Satisfied env) ∧
      ts.map publicHashes =
        (blocks.flatMap fun block => (List.finRange 6).map fun i => (block.utxoHashes i).toBase) ∧
      v.storage.currentRootHash.toBase = treeRoot env depth (noteTree ts) ∧
      (consumedBy ts).Nodup ∧
      unspentValue env depth (noteTree ts) (consumedBy ts) + Bank.pendingMints v.events ≤
        token.balanceOf v.token contract := by
  obtain ⟨ts, history, hb⟩ := h.exists_backed hs hcf haggregates
    (knows_initial (toRollup_initialized hinit) rfl)
    (backed_initialized hcf hempty hinit hroot t)
  exact ⟨ts, hb.satisfied, hb.shows, hb.root, hb.notes.nodup, hb.covered hstd hs hinit hallowance h⟩

end Settled

/-! ## Assignments of aggregations -/

section Assignments

variable {env : ConstraintSystem.Env Fr} {depth : ℕ}

/-- Padding keeps the root. -/
lemma enforceInserts_padding {insert : Insert depth}
    (hround : ∀ root instances, Batch.enforceInsert 0 root insert
      { env with instances := instances }
      { newLeaf := 0, oldRoot := root, newRoot := root, isPadding := bit (decide ((0 : Fr) = 0)) })
    (root : Fr) (instances : List Fr) (n : ℕ) :
    ∃ cells, Batch.enforceInserts 0 root (List.replicate n insert)
        { env with instances := instances } cells ∧
      cells.map InsertConstraintCells.newLeaf = List.replicate n 0 ∧
      (cells.map InsertConstraintCells.newRoot).getLastD root = root := by
  induction n with
  | zero => exact ⟨[], rfl, rfl, rfl⟩
  | succ n ih =>
    obtain ⟨cells, hcells, hleafs, hroots⟩ := ih
    refine ⟨_ :: cells, ⟨_, hround root instances, cells, hcells, rfl⟩, ?_, ?_⟩
    · rw [List.map_cons, hleafs, List.replicate_succ]
    · rw [List.map_cons, List.getLastD_cons, hroots]

/-- The public inputs of an aggregation with zero limbs. -/
def column (oldRoot newRoot : Fr) (rows : List Fr) : List Fr :=
  List.replicate 12 0 ++ ([oldRoot, newRoot] ++ rows)

/-- A group of three UTXO proofs, and the insert of the prover's own code, which the assignment need
not follow. -/
def group (insert : Insert depth) (utxos : List (List Fr)) (h : utxos.length = 3) :
    AggregateUtxo 3 depth 12 where
  utxo := utxos.map fun utxo => ⟨[utxo]⟩
  insert := ⟨List.replicate 12 insert⟩
  length_utxo := by rw [List.length_map, h]
  length_inserts := List.length_replicate

/-- A group satisfies its circuit if its batch does. -/
lemma satisfied_group (hprover : env.prover = .malicious) {insert : Insert depth}
    {acceptsUtxo : List (List Fr) → Prop} {oldRoot newRoot : Fr} {utxos : List (List Fr)}
    (h : utxos.length = 3)
    (hlen : ∀ utxo ∈ utxos, utxo.length = 7) (haccepts : ∀ utxo ∈ utxos, acceptsUtxo [utxo])
    (hcells : ∃ cells, Batch.enforceInserts 0 oldRoot (List.replicate 12 insert)
        { env with instances := column oldRoot newRoot (utxoValues utxos) } cells ∧
      cells.map InsertConstraintCells.newLeaf = utxoLeafs utxos ∧
      (cells.map InsertConstraintCells.newRoot).getLastD oldRoot = newRoot) :
    (group insert utxos h).enforceConstraints acceptsUtxo env.hash
      { env with instances := column oldRoot newRoot (utxoValues utxos) }
      { aggCells := List.replicate 12 0, snarks := utxos.map fun utxo => [utxo] } := by
  obtain ⟨cells, hcells, hleafs, hroots⟩ := hcells
  refine AggregateUtxo.enforceConstraints_of
    { env with instances := column oldRoot newRoot (utxoValues utxos) } rfl hlen haccepts rfl
    ⟨(), List.cons_ne_nil _ _, oldRoot, fun hhonest => ?_, cells, hcells, rfl⟩ hleafs ?_
  · cases hprover.symm.trans hhonest
  · rw [hroots]
    exact (rowsAt_zero_iff rfl).2 rfl

/-- An aggregation. -/
def agg {AGG_N : ℕ} (columns : List (List Fr)) (h : columns.length = AGG_N) :
    AggregateAgg AGG_N where
  aggregates := columns.map fun column => ⟨[column]⟩
  length_aggregates := by rw [List.length_map, h]

/-- Linked proofs with the rows of the block satisfy the circuit. -/
lemma satisfied_agg {AGG_N : ℕ} {accepts : List (List Fr) → Prop} {columns : List (List Fr)}
    {oldRoot newRoot : Fr} {rows : List Fr} (h : columns.length = AGG_N) (hne : columns ≠ [])
    (hlen : ∀ column ∈ columns, 14 ≤ column.length)
    (haccepts : ∀ column ∈ columns, accepts [column])
    (hold : (columns.headD []).getD 12 0 = oldRoot) (hlinked : Linked oldRoot columns newRoot)
    (hrows : columns.flatMap (List.drop 14) = rows) :
    (agg columns h).enforceConstraints accepts
      { env with instances := column oldRoot newRoot rows }
      { aggCells := List.replicate 12 0, snarks := columns.map fun column => [column] } := by
  refine (AggregateAgg.enforceConstraints_iff
    { env with instances := column oldRoot newRoot rows } rfl hlen hne
    (List.replicate 12 0)).2 ⟨rfl, haccepts, newRoot, ?_⟩
  rw [hold, hrows]
  exact ⟨hlinked, (rowsAt_zero_iff rfl).2 rfl⟩

end Assignments

/-! ## A sample: a mint is rolled up -/

namespace MintRun

open TempoRollup.Circuits.Sample (env txn input padding depth_le round round_zero valid_insert
  valid_padding satisfied_txn satisfied_mint collisionFree)
open TempoRollup.Contract.AggregateVerifier (sampleMint)

/-- The public inputs of padding. -/
def samplePadding : List Fr := [0, 0, 0, 0, 0, 0, 0]

/-- The padding transaction of the sample is satisfied. -/
lemma satisfied_padding :
    (txn ⟨0, 1, input padding, input padding, padding, padding⟩ samplePadding).Satisfied env := by
  refine satisfied_txn _ _ ⟨valid_padding.with_instances _, valid_padding.with_instances _, ?_, ?_,
    ?_, ?_, ?_⟩ ⟨?_, ?_, ?_, ?_, ?_, ?_, ?_, ?_⟩
  · exact show padding.message ∈ env.hashed by decide
  · exact show padding.message ∈ env.hashed by decide
  all_goals decide

/-- The mint and the padding are public inputs of satisfying assignments. -/
lemma utxoColumns {utxo : List Fr} (h : utxo = sampleMint ∨ utxo = samplePadding) :
    UtxoColumns env 2 [utxo] := by
  rcases h with rfl | rfl
  · exact ⟨_, rfl, satisfied_mint⟩
  · exact ⟨_, rfl, satisfied_padding⟩

/-- The insert of the prover's own code, which the assignment does not follow. -/
def insert : Insert 2 := ⟨0, Circuits.Batch.samplePath⟩

/-- The mint of the first group. -/
lemma enforceInserts_mint (instances : List Fr) :
    ∃ cells, Batch.enforceInserts 0 2 (List.replicate 12 insert)
        { env with instances := instances } cells ∧
      cells.map InsertConstraintCells.newLeaf = [0, 0, 8] ++ List.replicate 9 0 ∧
      (cells.map InsertConstraintCells.newRoot).getLastD 2 = 9 := by
  obtain ⟨cells, hcells, hleafs, hroots⟩ := enforceInserts_padding (round_zero insert) 9 instances 9
  refine ⟨_ :: _ :: _ :: cells, ⟨_, round_zero _ 2 _, _, ⟨_, round_zero _ 2 _, _,
    ⟨_, round ⟨8, [0]⟩ _ 2 9 _ ?_ ?_ ?_, cells, hcells, rfl⟩, rfl⟩, rfl⟩, ?_, ?_⟩
  · exact valid_insert 8 0 false (by decide) (by decide) (by decide)
  · exact fun _ => by decide
  · decide
  · simp only [List.map_cons, hleafs]
    rfl
  · simp only [List.map_cons, List.getLastD_cons, hroots]

/-- The proofs of the first group. -/
def first : List (List Fr) := [sampleMint, samplePadding, samplePadding]

/-- The proofs of the second group. -/
def second : List (List Fr) := [samplePadding, samplePadding, samplePadding]

/-- The columns of the two groups. -/
def groups : List (List Fr) := [column 2 9 (utxoValues first), column 9 9 (utxoValues second)]

/-- Every group of the sample block has a witness. -/
lemma groupColumns {column : List Fr} (h : column ∈ groups) : GroupColumns env 2 [column] := by
  have hmint : UtxoColumns env 2 [sampleMint] := utxoColumns (.inl rfl)
  have hpadding : UtxoColumns env 2 [samplePadding] := utxoColumns (.inr rfl)
  simp only [groups, List.mem_cons, List.not_mem_nil, or_false] at h
  rcases h with rfl | rfl
  · exact ⟨group insert first rfl, _, _, rfl, by simp [group, first, Snark.numInstance, sampleMint,
      samplePadding], satisfied_group rfl rfl (by simp [first, sampleMint, samplePadding])
      (by simp [first, hmint, hpadding]) (enforceInserts_mint _)⟩
  · exact ⟨group insert second rfl, _, _, rfl,
      by simp [group, second, Snark.numInstance, samplePadding],
      satisfied_group rfl rfl (by simp [second, samplePadding]) (by simp [second, hpadding])
        (enforceInserts_padding (round_zero insert) 9 _ 12)⟩

/-- The rows of the six transactions. -/
def rows : List Fr := [0, 8, 5] ++ List.replicate 15 0

/-- The groups of the sample block are aggregated. -/
lemma aggregationColumns :
    AggregationColumns env 2 23 (GroupColumns env 2) [column 2 9 rows] := by
  refine ⟨agg groups rfl, _, _, rfl, ?_,
    satisfied_agg rfl (List.cons_ne_nil _ _) ?_ (fun _ => groupColumns) rfl ⟨rfl, rfl, rfl⟩ rfl⟩
  · simp [agg, Snark.numInstance, groups, column, utxoValues, first, second, sampleMint,
      samplePadding]
  · simp [groups, column]

/-- The proofs of the block have witnesses. -/
lemma aggregates_block : block.Aggregates env 2 := by
  have hinputs : block.publicInputs = column 2 9 rows := by decide
  rw [BlockProof.Aggregates, hinputs]
  refine ⟨agg [column 2 9 rows] rfl, _, _, rfl, ?_,
    satisfied_agg rfl (List.cons_ne_nil _ _) ?_ ?_ rfl ⟨rfl, rfl⟩ rfl⟩
  · simp [agg, Snark.numInstance, column, rows]
  · simp [column]
  · exact List.forall_mem_singleton.2 aggregationColumns

/-- A verifier that accepts the proof of the block. -/
def plonkVerifier (_ : Bytes) (instances : List Element) : Bool :=
  instances.map Element.toBase = column 2 9 rows

end MintRun

open MintRun in
/-- A mint of five tokens is registered and rolled up: the note is covered by the balance. -/
theorem notes_backed_rolledUp :
    (∃ ts : List (TxnAssignment 2), (∀ txn ∈ ts, txn.Satisfied Circuits.Sample.env) ∧
      (rolledUp Node.Sample.verifiers plonkVerifier).storage.currentRootHash.toBase =
        treeRoot Circuits.Sample.env 2 (noteTree ts) ∧
      unspentValue Circuits.Sample.env 2 (noteTree ts) (consumedBy ts) +
        Bank.pendingMints (rolledUp Node.Sample.verifiers plonkVerifier).events ≤
          Bank.Sample.token.balanceOf (rolledUp Node.Sample.verifiers plonkVerifier).token 1) ∧
      Bank.pendingMints (rolledUp Node.Sample.verifiers plonkVerifier).events = 0 ∧
      Bank.Sample.token.balanceOf (rolledUp Node.Sample.verifiers plonkVerifier).token 1 = 5 := by
  have hinit : initializeRollup 1 [3] 2 .empty = (.ok (), start.storage) := Prod.ext rfl rfl
  have hempty : TreeHashed Circuits.Sample.env 2 fun _ => 0 := by
    rintro q ⟨k, i, hk, hi, rfl⟩
    obtain rfl : k = 0 := by omega
    exact show [(0 : Fr), 0] ∈ Circuits.Sample.env.hashed by decide
  have hallowance : ∀ spender, Bank.Sample.token.allowance start.token 1 spender = 0 := by
    intro spender
    simp [Bank.Sample.token, start, Bank.Sample.start]
  obtain ⟨ts, hsat, -, hroot, -, hbacked⟩ := notes_backed Bank.Sample.standard
    Node.Sample.sound_verifiers Circuits.Sample.collisionFree hempty hinit (by decide) hallowance
    (reaches_rolledUp Node.Sample.verifiers plonkVerifier (by decide))
    (List.forall_mem_singleton.2 aggregates_block)
  exact ⟨⟨ts, hsat, hroot, hbacked⟩, by decide, by decide⟩

end Vault

end TempoRollup.Contract
