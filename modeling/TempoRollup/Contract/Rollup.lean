import TempoRollup.Circuits.MintBurn
import TempoRollup.Lib.Exec

set_option relaxedAutoImplicit false
set_option autoImplicit false

/-!
# The rollup contract

`src/rollup/RollupV6.sol` with what it inherits from `RollupV5.sol`: the registration of mints
and burns, the substitution of burns, and `verifyTxn`, which settles the mint or burn of one
transaction of a block.

## Main definitions

* `Rollup` — the storage.
* `mint`, `burn`, `burnToAddress`, `burnToRouter`, `substituteBurn`, `verifyTxn`,
  `executeBurn`.
* `Entry`, `Reaches` — the entry points, and what any calls of them make of the storage; a
  router that is called may itself call entry points before it returns.
* `Verifiers.Sound` — what a verified proof says.

## Main results

* `Reaches.grows` — every registered amount is the value of the note behind its key, and what
  is registered stays registered.
* `verifyTxn_eq_burnNotFound_iff`, `verifyTxn_of_amounts` — when a transaction is settled.

## Design

Storage mappings are functions, zero where nothing was written. Calls to other contracts are
answered by `External`, one value for each call that an entry point makes. Events are left
out.
-/

open Exec ConstraintSystem

namespace TempoRollup.Contract

/-- An address. -/
abbrev Address : Type := BitVec 160

/-- A byte string. -/
abbrev Bytes : Type := List (BitVec 8)

/-! ## Storage -/

/-- `struct Burn`. -/
structure Burn where
  /-- `to` in the source. -/
  toAddr : Address
  amount : ℕ

/-- `struct BurnToRouter`. -/
structure BurnToRouter where
  router : Address
  routerCalldata : Bytes
  amount : ℕ
  /-- If the router call fails, the funds are returned to this address. -/
  returnAddress : Address

/-- The storage of the contract that mints and burns use. -/
structure Rollup where
  mints : Element → ℕ
  burns : Element → Burn
  burnsKind : Element → Element
  burnsToRouter : Element → BurnToRouter
  substitutedBurns : Element → Bool
  rolledUpLeafs : Element → Bool

/-- Nothing is registered. -/
def Rollup.initial : Rollup where
  mints _ := 0
  burns _ := ⟨0, 0⟩
  burnsKind _ := 0
  burnsToRouter _ := ⟨0, [], 0, 0⟩
  substitutedBurns _ := false
  rolledUpLeafs _ := false

/-- `getMint`. -/
def Rollup.getMint (self : Rollup) (key : Element) : ℕ := self.mints key

/-- `hasBurn`. -/
def Rollup.hasBurn (self : Rollup) (nullifier : Element) : Bool :=
  if self.burnsKind nullifier = 0 then (self.burns nullifier).amount != 0 else true

/-- Why a call reverts. -/
inductive Revert
  /-- "Mint already exists" -/
  | mintAlreadyExists
  /-- "Burn already exists" -/
  | burnAlreadyExists
  /-- "Invalid field element" -/
  | invalidFieldElement
  /-- `VerificationFailed` -/
  | verificationFailed
  /-- "Invalid signer" -/
  | invalidSigner
  /-- "account is blacklisted by USDC" -/
  | blacklisted
  /-- "Invalid kind" -/
  | invalidKind
  /-- "Invalid return address" -/
  | invalidReturnAddress
  /-- "Router not whitelisted" -/
  | routerNotWhitelisted
  /-- "Invalid msg" -/
  | invalidMsg
  /-- "RollupV6: Invalid mint amount" -/
  | invalidMintAmount
  /-- "RollupV6: Invalid burn amount" -/
  | invalidBurnAmount
  /-- "RollupV6: Burn was not found" -/
  | burnNotFound
  /-- "RollupV6: Burn already substituted" -/
  | burnAlreadySubstituted
  /-- "RollupV6: Leaf already rolled up" -/
  | leafAlreadyRolledUp
  /-- "RollupV6: Burn failed" -/
  | burnFailed
  /-- A call to the token reverts. -/
  | tokenCallFailed
  deriving DecidableEq, Repr

/-! ## Other contracts -/

/-- The plonk verifiers behind `mintVerifier`, `burnVerifier` and `burnVerifierV2`. -/
structure Verifiers where
  mint : Bytes → List Element → Bool
  burn : Bytes → List Element → Bool
  burnTo : Bytes → List Element → Bool

/-- How other contracts answer the calls that one entry point makes, and who calls it. -/
structure External where
  msgSender : Address
  /-- The token's `transferFrom` and `receiveWithAuthorization` return. -/
  transferFromReturns : Bool
  /-- The token's `transfer` returns. -/
  transferReturns : Bool
  /-- The token's `approve` returns, before and after the router call. -/
  approveReturns : Bool
  resetReturns : Bool
  isUSDCBlacklisted : Address → Bool
  isRouterWhitelisted : Address → Bool
  /-- The second signature of `mintWithAuthorization` is that of `from`. -/
  signerIsFrom : Bool
  /-- `keccak256(abi.encode(router, routerCalldata, returnAddress))`. -/
  keccak : Address → Bytes → Address → Element
  /-- The router call succeeds. -/
  routerReturns : Bool
  /-- The storage when the router call ends: the router may call back. -/
  afterRouterCall : Rollup

/-- A call of the contract. -/
abbrev Call (α : Type) : Type := Program Rollup Revert α

/-- `verify` of the verifier contracts: the instances are field elements, and the plonk verifier
accepts them. -/
def verify (verifier : Bytes → List Element → Bool) (proof : Bytes) (instances : List Element) :
    Call Unit := do
  Program.ensure (instances.all fun x => x.toNat < Element.MODULUS) .invalidFieldElement
  Program.ensure (verifier proof instances) .verificationFailed

/-! ## Registration -/

section Entries

variable (verifiers : Verifiers) (ext : External)

/-- Write `value` to the key `key` of a mapping. -/
def set {V : Type} (mapping : Element → V) (key : Element) (value : V) : Element → V :=
  fun k => if k = key then value else mapping k

/-- `setBurnsKind`. -/
def setBurnsKind (nullifier kind : Element) : Call Unit := do
  let self ← Program.get
  Program.ensure (self.burnsKind nullifier = 0 ∧ (self.burns nullifier).amount = 0)
    .burnAlreadyExists
  Program.modify fun self => { self with burnsKind := set self.burnsKind nullifier kind }

/-- The end of `mint` and `mintWithAuthorization`. -/
def setMint (commitment value : Element) : Call Unit :=
  Program.modify fun self => { self with mints := set self.mints commitment value.toNat }

/-- `mint`. -/
def mint (proof : Bytes) (commitment value source : Element) : Call Unit := do
  let self ← Program.get
  Program.ensure (self.mints commitment = 0) .mintAlreadyExists
  verify verifiers.mint proof [commitment, value, source]
  Program.ensure ext.transferFromReturns .tokenCallFailed
  setMint commitment value

/-- `mintWithAuthorization`. -/
def mintWithAuthorization (proof : Bytes) (commitment value source : Element) : Call Unit := do
  let self ← Program.get
  Program.ensure (self.mints commitment = 0) .mintAlreadyExists
  Program.ensure ext.signerIsFrom .invalidSigner
  verify verifiers.mint proof [commitment, value, source]
  Program.ensure ext.transferFromReturns .tokenCallFailed
  setMint commitment value

/-- `burn`. -/
def burn (toAddr : Address) (proof : Bytes) (nullifier value source sig : Element) : Call Unit := do
  Program.ensure (!ext.isUSDCBlacklisted toAddr) .blacklisted
  verify verifiers.burn proof [toAddr.setWidth 256, nullifier, value, source, sig]
  setBurnsKind nullifier 0
  Program.modify fun self =>
    { self with burns := set self.burns nullifier ⟨toAddr, value.toNat⟩ }

/-- `bytes32ToAddress`. -/
def bytes32ToAddress (b : Element) : Address := b.setWidth 160

/-- `burnToAddress`. -/
def burnToAddress (kind dest : Element) (proof : Bytes) (nullifier value source sig : Element) :
    Call Unit := do
  Program.ensure (kind = 0) .invalidKind
  Program.ensure (!ext.isUSDCBlacklisted (bytes32ToAddress dest)) .blacklisted
  verify verifiers.burnTo proof [kind, dest, nullifier, value, source, sig]
  setBurnsKind nullifier kind
  Program.modify fun self =>
    { self with burns := set self.burns nullifier ⟨bytes32ToAddress dest, value.toNat⟩ }

/-- The message of a router call: the first three bits of its hash are cleared. -/
def routerMessage (router : Address) (routerCalldata : Bytes) (returnAddress : Address) :
    Element :=
  ext.keccak router routerCalldata returnAddress &&&
    0x1FFFFFFFFFFFFFFFFFFFFFFFFFFFFFFFFFFFFFFFFFFFFFFFFFFFFFFFFFFFFFFF

/-- `burnToRouter`. -/
def burnToRouter (kind msgHash : Element) (proof : Bytes) (nullifier value source sig : Element)
    (router : Address) (routerCalldata : Bytes) (returnAddress : Address) : Call Unit := do
  Program.ensure (kind = 1) .invalidKind
  Program.ensure (returnAddress ≠ 0) .invalidReturnAddress
  Program.ensure (ext.isRouterWhitelisted router) .routerNotWhitelisted
  Program.ensure (!ext.isUSDCBlacklisted returnAddress) .blacklisted
  Program.ensure (routerMessage ext router routerCalldata returnAddress = msgHash) .invalidMsg
  verify verifiers.burnTo proof [kind, msgHash, nullifier, value, source, sig]
  setBurnsKind nullifier kind
  Program.modify fun self =>
    { self with
      burnsToRouter := set self.burnsToRouter nullifier
        ⟨router, routerCalldata, value.toNat, returnAddress⟩ }

/-! ## Settlement -/

/-- `executeBurnToAddress`. -/
def executeBurnToAddress (nullifier : Element) (value : ℕ) : Call Bool := do
  let self ← Program.get
  if (self.burns nullifier).amount = 0 then pure false
  else do
    Program.ensure ((self.burns nullifier).amount = value) .invalidBurnAmount
    pure ext.transferReturns

/-- `_routerCall`. -/
def routerCall (router : Address) : Call Bool :=
  if ext.isRouterWhitelisted router then do
    Program.modify fun _ => ext.afterRouterCall
    pure ext.routerReturns
  else pure false

/-- `executeBurnToRouter`. -/
def executeBurnToRouter (nullifier : Element) (value : ℕ) : Call Bool := do
  let self ← Program.get
  let b := self.burnsToRouter nullifier
  Program.ensure (b.amount = value) .invalidBurnAmount
  Program.ensure ext.approveReturns .tokenCallFailed
  let routerCallSuccess ← routerCall ext b.router
  Program.ensure ext.resetReturns .tokenCallFailed
  if routerCallSuccess then pure true
  else if ext.isUSDCBlacklisted b.returnAddress then pure false
  else do
    Program.ensure ext.transferReturns .tokenCallFailed
    pure true

/-- `executeBurn`: whether the burn was found, and whether it was successful. -/
def executeBurn (mb : Element) (value : ℕ) : Call (Bool × Bool) := do
  let self ← Program.get
  if self.burnsKind mb = 0 then
    if (self.burns mb).amount = 0 then pure (false, false)
    else do
      let success ← executeBurnToAddress ext mb value
      pure (true, success)
  else if self.burnsKind mb = 1 then do
    let success ← executeBurnToRouter ext mb value
    pure (true, success)
  else pure (true, false)

/-- The storage with a leaf marked as rolled up. -/
def Rollup.markRolledUp (self : Rollup) (mb : Element) : Rollup :=
  { self with rolledUpLeafs := set self.rolledUpLeafs mb true }

/-- `verifyTxn`. -/
def verifyTxn (mb value : Element) : Call Unit :=
  if value = 0 then pure ()
  else do
    Program.modify fun self => self.markRolledUp mb
    let self ← Program.get
    if self.mints mb ≠ 0 then Program.ensure (self.mints mb = value.toNat) .invalidMintAmount
    else do
      let result ← executeBurn ext mb value.toNat
      Program.ensure result.1 .burnNotFound

/-- The storage with a burn marked as substituted. -/
def Rollup.markSubstituted (self : Rollup) (nullifier : Element) : Rollup :=
  { self with substitutedBurns := set self.substitutedBurns nullifier true }

/-- `substituteBurn`. -/
def substituteBurn (nullifier : Element) (amount : ℕ) : Call Unit := do
  let self ← Program.get
  Program.ensure (!self.substitutedBurns nullifier) .burnAlreadySubstituted
  Program.ensure (!self.rolledUpLeafs nullifier) .leafAlreadyRolledUp
  Program.ensure ext.transferFromReturns .tokenCallFailed
  Program.modify fun self => self.markSubstituted nullifier
  let result ← executeBurn ext nullifier amount
  Program.ensure (result.1 && result.2) .burnFailed
  -- paid back to the substitutor when the burn is rolled up
  Program.modify fun self =>
    { self with
      burnsKind := set self.burnsKind nullifier 0
      burns := set self.burns nullifier ⟨ext.msgSender, amount⟩ }

end Entries

/-! ## Runs -/

/-- The calls that change the storage of mints and burns. `verifyTxn` is called for each
transaction of a verified block. -/
inductive Entry
  | mint (proof : Bytes) (commitment value source : Element)
  | mintWithAuthorization (proof : Bytes) (commitment value source : Element)
  | burn (toAddr : Address) (proof : Bytes) (nullifier value source sig : Element)
  | burnToAddress (kind dest : Element) (proof : Bytes) (nullifier value source sig : Element)
  | burnToRouter (kind msgHash : Element) (proof : Bytes) (nullifier value source sig : Element)
    (router : Address) (routerCalldata : Bytes) (returnAddress : Address)
  | substituteBurn (nullifier : Element) (amount : ℕ)
  | verifyTxn (mb value : Element)

namespace Entry

/-- The call of an entry point. -/
def call (verifiers : Verifiers) (ext : External) : Entry → Call Unit
  | mint proof commitment value source => Contract.mint verifiers ext proof commitment value source
  | mintWithAuthorization proof commitment value source =>
    Contract.mintWithAuthorization verifiers ext proof commitment value source
  | burn toAddr proof nullifier value source sig =>
    Contract.burn verifiers ext toAddr proof nullifier value source sig
  | burnToAddress kind dest proof nullifier value source sig =>
    Contract.burnToAddress verifiers ext kind dest proof nullifier value source sig
  | burnToRouter kind msgHash proof nullifier value source sig router routerCalldata
      returnAddress =>
    Contract.burnToRouter verifiers ext kind msgHash proof nullifier value source sig router
      routerCalldata returnAddress
  | substituteBurn nullifier amount => Contract.substituteBurn ext nullifier amount
  | verifyTxn mb value => Contract.verifyTxn ext mb value

/-- The storage at the moment an entry point calls a router. -/
def atRouterCall (self : Rollup) : Entry → Rollup
  | substituteBurn nullifier _ => self.markSubstituted nullifier
  | verifyTxn mb _ => self.markRolledUp mb
  | _ => self

end Entry

/-- `Reaches verifiers a b`: calls of the entry points take the storage from `a` to `b`. A call
that reverts changes nothing. A router that is called may itself make such calls before it
returns. -/
inductive Reaches (verifiers : Verifiers) : Rollup → Rollup → Prop
  | refl (a : Rollup) : Reaches verifiers a a
  | call {a b : Rollup} (h : Reaches verifiers a b) (ext : External) (entry : Entry)
    (hrouter : Reaches verifiers (entry.atRouterCall b) ext.afterRouterCall) :
    Reaches verifiers a (Program.atomically (entry.call verifiers ext) b).2

/-! ## What verified proofs say -/

/-- The environment of an assignment with the given public inputs. -/
def publicEnv (H : List Fr → Fr) (hashed : Set (List Fr)) (instances : List Element) : Env Fr where
  prover := .malicious
  instances := instances.map Element.toBase
  hash := H
  hashed := hashed

/-- Accepted proofs come from satisfying assignments of the circuits for one note. -/
structure Verifiers.Sound (verifiers : Verifiers) (H : List Fr → Fr) (hashed : Set (List Fr)) :
    Prop where
  mint : ∀ proof instances, verifiers.mint proof instances = true →
    ∃ circuit : Circuits.Mint, circuit.notes.length = 1 ∧
      circuit.synthesize (publicEnv H hashed instances) ()
  burn : ∀ proof instances, verifiers.burn proof instances = true →
    ∃ circuit : Circuits.Burn, circuit.notes.length = 1 ∧
      circuit.synthesize (publicEnv H hashed instances) ()
  burnTo : ∀ proof instances, verifiers.burnTo proof instances = true →
    ∃ circuit : Circuits.BurnTo, circuit.notes.length = 1 ∧
      circuit.synthesize (publicEnv H hashed instances) ()

/-- The amount is the value of a note with the given commitment. -/
def MintOf (H : List Fr → Fr) (hashed : Set (List Fr)) (commitment : Element) (amount : ℕ) :
    Prop :=
  ∃ w : Circuits.NoteWitness, w.message ∈ hashed ∧ w.cm H = commitment.toBase ∧
    w.value.val = amount

/-- The amount is the value of a note with the given nullifier. -/
def BurnOf (H : List Fr → Fr) (hashed : Set (List Fr)) (nullifier : Element) (amount : ℕ) :
    Prop :=
  ∃ w : Circuits.KeyedNote, w.Valid (publicEnv H hashed []) ∧ w.nullifier H = nullifier.toBase ∧
    w.value.val = amount

section Sound

variable {verifiers : Verifiers} {H : List Fr → Fr} {hashed : Set (List Fr)} {a b : Rollup}

/-- A verifier that returns has checked that the instances are field elements, and that the proof
is accepted. -/
lemma verify_eq_ok {verifier : Bytes → List Element → Bool} {proof : Bytes}
    {instances : List Element} {u : Unit} (h : verify verifier proof instances a = (.ok u, b)) :
    (∀ x ∈ instances, x.toNat < Element.MODULUS) ∧ verifier proof instances = true ∧ b = a := by
  rw [verify, Program.ensure_bind_eq_ok, Program.ensure_eq_ok] at h
  refine ⟨fun x hx => ?_, h.2⟩
  simpa using List.all_eq_true.1 h.1 x hx

/-- An instance that was checked is the number of its field element. -/
lemma val_checked {value : Element} (h : value.toNat < Element.MODULUS) :
    value.toBase.val = value.toNat :=
  Element.val_toBase ((Element.isCanonical_iff value).2 h)

/-- A verified mint has the value of its commitment. -/
lemma Verifiers.Sound.mintOf (hs : verifiers.Sound H hashed) {proof : Bytes}
    {commitment value source : Element} {u : Unit}
    (h : verify verifiers.mint proof [commitment, value, source] a = (.ok u, b)) :
    MintOf H hashed commitment value.toNat ∧ b = a := by
  obtain ⟨hcanon, haccept, rfl⟩ := verify_eq_ok h
  obtain ⟨circuit, hlen, hsat⟩ := hs.mint proof _ haccept
  obtain ⟨note, hnote⟩ := List.length_eq_one_iff.1 hlen
  obtain ⟨w, hmem, -, hcm, hvalue, -⟩ :=
    (circuit.synthesize_iff _ ()).1 hsat (note, 0) (by simp [hnote])
  refine ⟨⟨w, hmem, hcm, ?_⟩, rfl⟩
  rw [hvalue]
  exact val_checked (hcanon value (by simp))

/-- The witness of a burn, with the nullifier and the value among the instances. -/
lemma burnOf_of_witness {w : Circuits.KeyedNote} {instances : List Element}
    {nullifier value : Element} (hw : w.Valid (publicEnv H hashed instances))
    (hnull : w.nullifier H = nullifier.toBase) (hvalue : w.value = value.toBase)
    (hlt : value.toNat < Element.MODULUS) : BurnOf H hashed nullifier value.toNat := by
  refine ⟨w, ⟨hw.message_mem, hw.nullifier_mem⟩, hnull, ?_⟩
  rw [hvalue]
  exact val_checked hlt

/-- A verified burn has the value of its nullifier. -/
lemma Verifiers.Sound.burnOf (hs : verifiers.Sound H hashed) {proof : Bytes}
    {toAddr nullifier value source sig : Element} {u : Unit}
    (h : verify verifiers.burn proof [toAddr, nullifier, value, source, sig] a = (.ok u, b)) :
    BurnOf H hashed nullifier value.toNat ∧ b = a := by
  obtain ⟨hcanon, haccept, rfl⟩ := verify_eq_ok h
  obtain ⟨circuit, hlen, hsat⟩ := hs.burn proof _ haccept
  obtain ⟨w, hw, hnull, hvalue⟩ := circuit.synthesize_exposes hsat 0 (by omega)
  exact ⟨burnOf_of_witness hw hnull hvalue (hcanon value (by simp)), rfl⟩

/-- A verified burn to an address or a router has the value of its nullifier. -/
lemma Verifiers.Sound.burnToOf (hs : verifiers.Sound H hashed) {proof : Bytes}
    {kind dest nullifier value source sig : Element} {u : Unit}
    (h : verify verifiers.burnTo proof [kind, dest, nullifier, value, source, sig] a =
      (.ok u, b)) :
    BurnOf H hashed nullifier value.toNat ∧ b = a := by
  obtain ⟨hcanon, haccept, rfl⟩ := verify_eq_ok h
  obtain ⟨circuit, hlen, hsat⟩ := hs.burnTo proof _ haccept
  obtain ⟨w, hw, hnull, hvalue⟩ := circuit.synthesize_exposes hsat 0 (by omega)
  exact ⟨burnOf_of_witness hw hnull hvalue (hcanon value (by simp)), rfl⟩

end Sound

/-! ## The invariant -/

/-- Every registered amount is the value of the note behind its key. -/
structure Inv (H : List Fr → Fr) (hashed : Set (List Fr)) (c : Rollup) : Prop where
  mints : ∀ k, c.mints k ≠ 0 → MintOf H hashed k (c.mints k)
  burns : ∀ k, (c.burns k).amount ≠ 0 → BurnOf H hashed k (c.burns k).amount
  routers : ∀ k, c.burnsKind k ≠ 0 →
    c.burnsKind k = 1 ∧ BurnOf H hashed k (c.burnsToRouter k).amount

/-- The initial storage has the invariant. -/
lemma inv_initial (H : List Fr → Fr) (hashed : Set (List Fr)) : Inv H hashed .initial :=
  ⟨fun _ h => absurd rfl h, fun _ h => absurd rfl h, fun _ h => absurd rfl h⟩

/-- No note of value zero has the nullifier. -/
def RealBurn (H : List Fr → Fr) (hashed : Set (List Fr)) (k : Element) : Prop :=
  ∀ amount, BurnOf H hashed k amount → amount ≠ 0

/-- What calls do to the storage: the invariant is kept, and what is registered stays
registered. -/
structure Grows (H : List Fr → Fr) (hashed : Set (List Fr)) (a b : Rollup) : Prop where
  inv : Inv H hashed a → Inv H hashed b
  mints : ∀ k, a.mints k ≠ 0 → b.mints k ≠ 0
  burns : Inv H hashed a → ∀ k, RealBurn H hashed k → a.hasBurn k = true → b.hasBurn k = true

section Grows

variable {verifiers : Verifiers} {H : List Fr → Fr} {hashed : Set (List Fr)} {a b c : Rollup}

/-- Nothing is lost by doing nothing. -/
lemma Grows.refl (a : Rollup) : Grows H hashed a a :=
  ⟨id, fun _ h => h, fun _ _ _ h => h⟩

/-- Growth is transitive. -/
lemma Grows.trans (h : Grows H hashed a b) (h' : Grows H hashed b c) : Grows H hashed a c :=
  ⟨fun hi => h'.inv (h.inv hi), fun k hk => h'.mints k (h.mints k hk),
    fun hi k hr hk => h'.burns (h.inv hi) k hr (h.burns hi k hr hk)⟩

/-- Rolling a burn up loses nothing. -/
lemma grows_markRolledUp (a : Rollup) (k : Element) : Grows H hashed a (a.markRolledUp k) :=
  ⟨fun h => ⟨h.mints, h.burns, h.routers⟩, fun _ h => h, fun _ _ _ h => h⟩

/-- Marking a burn as substituted loses nothing. -/
lemma grows_markSubstituted (a : Rollup) (k : Element) :
    Grows H hashed a (a.markSubstituted k) :=
  ⟨fun h => ⟨h.mints, h.burns, h.routers⟩, fun _ h => h, fun _ _ _ h => h⟩

/-- Two cases of a mapping after a write. -/
lemma set_apply {V : Type} (mapping : Element → V) (key k : Element) (value : V) :
    set mapping key value k = if k = key then value else mapping k := rfl

/-- A burn is there when one of the two layouts has it. -/
lemma hasBurn_eq_true_iff (a : Rollup) (k : Element) :
    a.hasBurn k = true ↔ a.burnsKind k ≠ 0 ∨ (a.burns k).amount ≠ 0 := by
  unfold Rollup.hasBurn
  split_ifs with h
  · simp [h]
  · exact iff_of_true rfl (.inl h)

/-- A new mint is registered. -/
lemma grows_setMint {commitment : Element} {amount : ℕ} (hzero : a.mints commitment = 0)
    (hof : MintOf H hashed commitment amount) :
    Grows H hashed a { a with mints := set a.mints commitment amount } := by
  refine ⟨fun h => ⟨fun k hk => ?_, h.burns, h.routers⟩, fun k hk => ?_, fun _ _ _ h => h⟩
  · simp only [set_apply] at hk ⊢
    split_ifs at hk ⊢ with hkey
    · rw [hkey]
      exact hof
    · exact h.mints k hk
  · simp only [set_apply]
    rw [if_neg]
    · exact hk
    · rintro rfl
      exact hk hzero

/-- A burn to an address is registered, in place of none or of one for the same note. -/
lemma grows_setBurn {nullifier : Element} {toAddr : Address} {amount : ℕ}
    (hof : BurnOf H hashed nullifier amount) :
    Grows H hashed a
      { a with burnsKind := set a.burnsKind nullifier 0
               burns := set a.burns nullifier ⟨toAddr, amount⟩ } := by
  refine ⟨fun h => ⟨h.mints, fun k hk => ?_, fun k hk => ?_⟩, fun _ h => h, fun _ k hr hk => ?_⟩
  · simp only [set_apply] at hk ⊢
    split_ifs at hk ⊢ with hkey
    · rw [hkey]
      exact hof
    · exact h.burns k hk
  · simp only [set_apply] at hk ⊢
    split_ifs at hk ⊢ with hkey
    · exact absurd rfl hk
    · exact h.routers k hk
  · rw [hasBurn_eq_true_iff] at hk ⊢
    simp only [set_apply]
    split_ifs with hkey
    · rw [hkey] at hr
      exact .inr (hr amount hof)
    · exact hk

/-- A burn to a router is registered. -/
lemma grows_setRouter {nullifier : Element} {b : BurnToRouter}
    (hof : BurnOf H hashed nullifier b.amount) :
    Grows H hashed a
      { a with burnsKind := set a.burnsKind nullifier 1
               burnsToRouter := set a.burnsToRouter nullifier b } := by
  refine ⟨fun h => ⟨h.mints, h.burns, fun k hk => ?_⟩, fun _ h => h, fun _ k hr hk => ?_⟩
  · simp only [set_apply] at hk ⊢
    split_ifs at hk ⊢ with hkey
    · rw [hkey]
      exact ⟨rfl, hof⟩
    · exact h.routers k hk
  · rw [hasBurn_eq_true_iff] at hk ⊢
    simp only [set_apply]
    split_ifs with hkey
    · exact .inl (by decide)
    · exact hk

/-! ## Steps and runs -/

section Steps

variable {ext : External}

/-- A burn to an address that is found is executed with its amount. -/
lemma executeBurnToAddress_spec {nullifier : Element} {value : ℕ} {r : Bool}
    (h : executeBurnToAddress ext nullifier value a = (.ok r, b))
    (hfound : (a.burns nullifier).amount ≠ 0) :
    b = a ∧ (a.burns nullifier).amount = value := by
  rw [executeBurnToAddress, Program.get_bind_eq_ok, if_neg hfound, Program.ensure_bind_eq_ok,
    Program.pure_eq_ok, decide_eq_true_eq] at h
  exact ⟨h.2.2, h.1⟩

/-- The storage after a router call is that before it, or what the router left. -/
lemma routerCall_spec {router : Address} {r : Bool}
    (h : routerCall ext router a = (.ok r, b)) : b = a ∨ b = ext.afterRouterCall := by
  unfold routerCall at h
  split_ifs at h
  · rw [Program.modify_bind_eq_ok, Program.pure_eq_ok] at h
    exact .inr h.2
  · exact .inl (Program.pure_eq_ok.1 h).2

/-- A burn to a router is executed with its amount. -/
lemma executeBurnToRouter_spec {nullifier : Element} {value : ℕ} {r : Bool}
    (h : executeBurnToRouter ext nullifier value a = (.ok r, b)) :
    (b = a ∨ b = ext.afterRouterCall) ∧ (a.burnsToRouter nullifier).amount = value := by
  simp only [executeBurnToRouter, Program.get_bind_eq_ok, Program.ensure_bind_eq_ok,
    decide_eq_true_eq, Program.bind_eq_ok (p := routerCall _ _)] at h
  obtain ⟨hvalue, -, called, c₁, hcall, -, hrest⟩ := h
  have hb : b = c₁ := by
    split_ifs at hrest
    · exact (Program.pure_eq_ok.1 hrest).2
    · exact (Program.pure_eq_ok.1 hrest).2
    · rw [Program.ensure_bind_eq_ok, Program.pure_eq_ok] at hrest
      exact hrest.2.2
  rw [hb]
  exact ⟨routerCall_spec hcall, hvalue⟩

/-- The storage after a burn was executed is that before it, or what the router left. A burn
that succeeds has the amount of its note. -/
lemma executeBurn_spec (H : List Fr → Fr) (hashed : Set (List Fr)) {mb : Element} {value : ℕ}
    {r : Bool × Bool} (h : executeBurn ext mb value a = (.ok r, b)) :
    (b = a ∨ b = ext.afterRouterCall) ∧
      (Inv H hashed a → r = (true, true) → BurnOf H hashed mb value) := by
  rw [executeBurn, Program.get_bind_eq_ok] at h
  split_ifs at h with hkind hamount hone
  · obtain ⟨rfl, hb⟩ := Program.pure_eq_ok.1 h
    exact ⟨.inl hb, fun _ hr => absurd hr (by simp)⟩
  · obtain ⟨success, c₁, hexec, hpure⟩ := Program.bind_eq_ok.1 h
    obtain ⟨hc₁, hvalue⟩ := executeBurnToAddress_spec hexec hamount
    rw [(Program.pure_eq_ok.1 hpure).2]
    exact ⟨.inl hc₁, fun hi _ => hvalue ▸ hi.burns mb hamount⟩
  · obtain ⟨success, c₁, hexec, hpure⟩ := Program.bind_eq_ok.1 h
    obtain ⟨hc₁, hvalue⟩ := executeBurnToRouter_spec hexec
    rw [(Program.pure_eq_ok.1 hpure).2]
    exact ⟨hc₁, fun hi _ => hvalue ▸ (hi.routers mb hkind).2⟩
  · obtain ⟨rfl, hb⟩ := Program.pure_eq_ok.1 h
    exact ⟨.inl hb, fun _ hr => absurd hr (by simp)⟩

/-- Grow along a burn that was executed. -/
lemma grows_executeBurn {mb : Element} {value : ℕ} {r : Bool × Bool}
    (h : executeBurn ext mb value a = (.ok r, b))
    (hrouter : Grows H hashed a ext.afterRouterCall) : Grows H hashed a b := by
  rcases (executeBurn_spec H hashed h).1 with rfl | rfl
  · exact .refl _
  · exact hrouter

/-- The registration of a kind returns only where there is no burn. -/
lemma setBurnsKind_eq_ok {nullifier kind : Element} {u : Unit}
    (h : setBurnsKind nullifier kind a = (.ok u, b)) :
    b = { a with burnsKind := set a.burnsKind nullifier kind } := by
  rw [setBurnsKind, Program.get_bind_eq_ok, Program.ensure_bind_eq_ok,
    Program.modify_eq_ok] at h
  exact h.2

/-- **One call of an entry point.**

**Proof sketch.** By cases on the entry. A mint or a burn writes under its own key the amount that
its proof says (`Verifiers.Sound`), and only where nothing was; the other entries only mark. -/
lemma grows_call (hs : verifiers.Sound H hashed) (entry : Entry) {u : Unit}
    (h : entry.call verifiers ext a = (.ok u, b))
    (hrouter : Grows H hashed (entry.atRouterCall a) ext.afterRouterCall) :
    Grows H hashed a b := by
  cases entry with
  | mint proof commitment value source =>
    simp only [Entry.call, mint, Program.get_bind_eq_ok, Program.ensure_bind_eq_ok,
      decide_eq_true_eq, Program.bind_eq_ok (p := verify _ _ _)] at h
    obtain ⟨hzero, _, c₁, hverify, -, hset⟩ := h
    obtain ⟨hof, rfl⟩ := hs.mintOf hverify
    rw [setMint, Program.modify_eq_ok] at hset
    rw [hset]
    exact grows_setMint hzero hof
  | mintWithAuthorization proof commitment value source =>
    simp only [Entry.call, mintWithAuthorization, Program.get_bind_eq_ok,
      Program.ensure_bind_eq_ok, decide_eq_true_eq, Program.bind_eq_ok (p := verify _ _ _)] at h
    obtain ⟨hzero, -, _, c₁, hverify, -, hset⟩ := h
    obtain ⟨hof, rfl⟩ := hs.mintOf hverify
    rw [setMint, Program.modify_eq_ok] at hset
    rw [hset]
    exact grows_setMint hzero hof
  | burn toAddr proof nullifier value source sig =>
    simp only [Entry.call, burn, Program.ensure_bind_eq_ok,
      Program.bind_eq_ok (p := verify _ _ _), Program.bind_eq_ok (p := setBurnsKind _ _),
      Program.modify_eq_ok] at h
    obtain ⟨-, _, c₁, hverify, _, c₂, hkind, rfl⟩ := h
    obtain ⟨hof, rfl⟩ := hs.burnOf hverify
    rw [setBurnsKind_eq_ok hkind]
    exact grows_setBurn hof
  | burnToAddress kind dest proof nullifier value source sig =>
    simp only [Entry.call, burnToAddress, Program.ensure_bind_eq_ok, decide_eq_true_eq,
      Program.bind_eq_ok (p := verify _ _ _), Program.bind_eq_ok (p := setBurnsKind _ _),
      Program.modify_eq_ok] at h
    obtain ⟨rfl, -, _, c₁, hverify, _, c₂, hkind, rfl⟩ := h
    obtain ⟨hof, rfl⟩ := hs.burnToOf hverify
    rw [setBurnsKind_eq_ok hkind]
    exact grows_setBurn hof
  | burnToRouter kind msgHash proof nullifier value source sig router routerCalldata
      returnAddress =>
    simp only [Entry.call, burnToRouter, Program.ensure_bind_eq_ok, decide_eq_true_eq,
      Program.bind_eq_ok (p := verify _ _ _), Program.bind_eq_ok (p := setBurnsKind _ _),
      Program.modify_eq_ok] at h
    obtain ⟨rfl, -, -, -, -, _, c₁, hverify, _, c₂, hkind, rfl⟩ := h
    obtain ⟨hof, rfl⟩ := hs.burnToOf hverify
    rw [setBurnsKind_eq_ok hkind]
    exact grows_setRouter (b := ⟨router, routerCalldata, value.toNat, returnAddress⟩) hof
  | substituteBurn nullifier amount =>
    simp only [Entry.call, substituteBurn, Program.get_bind_eq_ok, Program.ensure_bind_eq_ok,
      Program.modify_bind_eq_ok, Program.bind_eq_ok (p := executeBurn _ _ _),
      Program.modify_eq_ok, Bool.and_eq_true] at h
    obtain ⟨-, -, -, ⟨found, success⟩, c₁, hexec, ⟨rfl, rfl⟩, rfl⟩ := h
    have hmark : Grows H hashed a c₁ :=
      (grows_markSubstituted a nullifier).trans (grows_executeBurn hexec hrouter)
    -- the amount is known to be that of the note where the invariant holds
    by_cases hi : Inv H hashed a
    · have hof :=
        (executeBurn_spec H hashed hexec).2 ((grows_markSubstituted a nullifier).inv hi) rfl
      exact hmark.trans (grows_setBurn hof)
    · exact ⟨fun h => absurd h hi, hmark.mints, fun h => absurd h hi⟩
  | verifyTxn mb value =>
    simp only [Entry.call, verifyTxn] at h
    split_ifs at h with hvalue
    · rw [(Program.pure_eq_ok.1 h).2]
      exact .refl a
    · rw [Program.modify_bind_eq_ok, Program.get_bind_eq_ok] at h
      split_ifs at h with hmint
      · rw [(Program.ensure_eq_ok.1 h).2]
        exact grows_markRolledUp a mb
      · obtain ⟨r, c₁, hexec, hfound⟩ := Program.bind_eq_ok.1 h
        rw [(Program.ensure_eq_ok.1 hfound).2]
        exact (grows_markRolledUp a mb).trans (grows_executeBurn hexec hrouter)

/-- **Runs of the contract.** By induction on the run; a router's own calls are runs inside the
call that it answers. -/
theorem Reaches.grows (hs : verifiers.Sound H hashed) (h : Reaches verifiers a b) :
    Grows H hashed a b := by
  induction h with
  | refl a => exact .refl a
  | @call a b h ext entry hrouter ih ihrouter =>
    rcases Program.atomically_cases (entry.call verifiers ext) b with hsame | ⟨u, hok⟩
    · rw [hsame]
      exact ih
    · exact ih.trans (grows_call hs entry hok ihrouter)

end Steps

end Grows

/-! ## Settling a transaction -/

section Settle

variable {ext : External} {c : Rollup} {mb value : Element}

/-- A mint or burn is registered under the key. -/
def Rollup.isRegistered (c : Rollup) (key : Element) : Prop :=
  c.getMint key ≠ 0 ∨ c.hasBurn key = true

/-- The amounts registered under the key are the given one. -/
structure Rollup.AmountsAre (c : Rollup) (key : Element) (amount : ℕ) : Prop where
  mint : c.mints key ≠ 0 → c.mints key = amount
  burn : c.mints key = 0 → (c.burns key).amount ≠ 0 → (c.burns key).amount = amount
  router : c.mints key = 0 → c.burnsKind key ≠ 0 → (c.burnsToRouter key).amount = amount

/-- How a burn to a router ends: the amounts differ, a call to the token fails, or it returns. -/
lemma executeBurnToRouter_cases (ext : External) (nullifier : Element) (amount : ℕ)
    (c : Rollup) :
    (executeBurnToRouter ext nullifier amount c = (.err .invalidBurnAmount, c) ∧
        (c.burnsToRouter nullifier).amount ≠ amount) ∨
      (∃ c', executeBurnToRouter ext nullifier amount c = (.err .tokenCallFailed, c')) ∨
      ∃ success c', executeBurnToRouter ext nullifier amount c = (.ok success, c') := by
  have hcall : ∃ called c', routerCall ext (c.burnsToRouter nullifier).router c =
      (.ok called, c') := by
    unfold routerCall
    split_ifs <;> exact ⟨_, _, rfl⟩
  obtain ⟨called, c', hcalled⟩ := hcall
  unfold executeBurnToRouter
  simp only [Program.run_bind, Program.run_get, Program.run_ensure, decide_eq_true_eq]
  by_cases hamount : (c.burnsToRouter nullifier).amount = amount
  · rw [if_pos hamount]
    cases ext.approveReturns with
    | false => exact .inr (.inl ⟨_, rfl⟩)
    | true =>
      simp only [if_true, hcalled]
      cases ext.resetReturns with
      | false => exact .inr (.inl ⟨_, rfl⟩)
      | true =>
        simp only [if_true]
        split_ifs
        · exact .inr (.inr ⟨_, _, rfl⟩)
        · exact .inr (.inr ⟨_, _, rfl⟩)
        · simp only [Program.run_bind, Program.run_ensure]
          cases ext.transferReturns with
          | false => exact .inr (.inl ⟨_, rfl⟩)
          | true => exact .inr (.inr ⟨_, _, rfl⟩)
  · rw [if_neg hamount]
    exact .inl ⟨rfl, hamount⟩

/-- **How the execution of a burn ends.** A burn that is not registered is not found; one that is
registered is found, unless the amounts differ or a call to the token fails. -/
lemma executeBurn_cases (ext : External) (mb : Element) (amount : ℕ) (c : Rollup) :
    (executeBurn ext mb amount c = (.ok (false, false), c) ∧ c.hasBurn mb = false) ∨
      c.hasBurn mb = true ∧
        ((executeBurn ext mb amount c = (.err .invalidBurnAmount, c) ∧
            ((c.burnsKind mb = 0 ∧ (c.burns mb).amount ≠ 0 ∧ (c.burns mb).amount ≠ amount) ∨
              (c.burnsKind mb = 1 ∧ (c.burnsToRouter mb).amount ≠ amount))) ∨
          (∃ c', executeBurn ext mb amount c = (.err .tokenCallFailed, c')) ∨
          ∃ success c', executeBurn ext mb amount c = (.ok (true, success), c')) := by
  have hhas := hasBurn_eq_true_iff c mb
  unfold executeBurn
  simp only [Program.run_bind, Program.run_get]
  split_ifs with hkind hamount hone
  · refine .inl ⟨rfl, ?_⟩
    simpa [hkind, hamount] using hhas
  · refine .inr ⟨hhas.2 (.inr hamount), ?_⟩
    unfold executeBurnToAddress
    simp only [Program.run_bind, Program.run_get, if_neg hamount, Program.run_ensure,
      decide_eq_true_eq]
    by_cases heq : (c.burns mb).amount = amount
    · rw [if_pos heq]
      exact .inr (.inr ⟨_, _, rfl⟩)
    · rw [if_neg heq]
      exact .inl ⟨rfl, .inl ⟨hkind, hamount, heq⟩⟩
  · refine .inr ⟨hhas.2 (.inl hkind), ?_⟩
    simp only [Program.run_bind]
    rcases executeBurnToRouter_cases ext mb amount c with ⟨hrun, hne⟩ | ⟨c', hrun⟩ |
      ⟨success, c', hrun⟩
    · rw [hrun]
      exact .inl ⟨rfl, .inr ⟨hone, hne⟩⟩
    · rw [hrun]
      exact .inr (.inl ⟨_, rfl⟩)
    · rw [hrun]
      exact .inr (.inr ⟨_, _, rfl⟩)
  · exact .inr ⟨hhas.2 (.inl hkind), .inr (.inr ⟨_, _, rfl⟩)⟩

/-- **Settlement with the registered amount.** A transaction whose key is registered with its
value is settled, unless a call to the token fails.

**Proof sketch.** By the branches of `verifyTxn`: a registered mint is compared with its own amount,
and a registered burn is executed, where only a call of the token can fail (`executeBurn_cases`). -/
theorem verifyTxn_of_amounts (hreg : c.isRegistered mb) (h : c.AmountsAre mb value.toNat) :
    (verifyTxn ext mb value c).1 = .ok () ∨
      (verifyTxn ext mb value c).1 = .err .tokenCallFailed := by
  unfold verifyTxn
  split_ifs with hvalue
  · exact .inl rfl
  · simp only [Program.run_bind, Program.run_modify, Program.run_get]
    split_ifs with hmint
    · have hamount : (c.markRolledUp mb).mints mb = value.toNat := h.mint hmint
      rw [Program.run_ensure, if_pos (decide_eq_true hamount)]
      exact .inl rfl
    · have hmint' : c.mints mb = 0 := not_not.1 hmint
      have hfound : (c.markRolledUp mb).hasBurn mb = true :=
        hreg.resolve_left (not_not_intro hmint')
      simp only [Program.run_bind]
      rcases executeBurn_cases ext mb value.toNat (c.markRolledUp mb) with ⟨-, hnot⟩ | ⟨-, hcases⟩
      · rw [hfound] at hnot
        exact absurd hnot (by simp)
      · rcases hcases with ⟨-, hdiffer⟩ | ⟨c', hrun⟩ | ⟨success, c', hrun⟩
        · rcases hdiffer with ⟨-, hne, hdiffer⟩ | ⟨hone, hdiffer⟩
          · exact absurd (h.burn hmint' hne) hdiffer
          · have hkind : c.burnsKind mb ≠ 0 := by
              change c.burnsKind mb = 1 at hone
              rw [hone]
              decide
            exact absurd (h.router hmint' hkind) hdiffer
        · rw [hrun]
          exact .inr rfl
        · rw [hrun]
          exact .inl rfl

/-- **When a transaction is not found**: its value is not zero and its key is not registered.

**Proof sketch.** By the branches of `verifyTxn`: the error comes from the burn that is executed,
and only if neither layout has it (`executeBurn_cases`). -/
theorem verifyTxn_eq_burnNotFound_iff :
    (verifyTxn ext mb value c).1 = .err .burnNotFound ↔ value ≠ 0 ∧ ¬ c.isRegistered mb := by
  unfold verifyTxn
  split_ifs with hvalue
  · simp [hvalue]
  · simp only [Program.run_bind, Program.run_modify, Program.run_get]
    split_ifs with hmint
    · have hreg : c.isRegistered mb := .inl hmint
      rw [Program.run_ensure]
      simp only [hreg, not_true_eq_false, and_false, iff_false]
      split_ifs <;> simp
    · have hmint' : c.mints mb = 0 := not_not.1 hmint
      have hreg : c.isRegistered mb ↔ c.hasBurn mb = true :=
        or_iff_right (not_not_intro hmint')
      simp only [Program.run_bind, hreg]
      rcases executeBurn_cases ext mb value.toNat (c.markRolledUp mb) with
        ⟨hrun, hnot⟩ | ⟨hfound, hcases⟩
      · rw [hrun]
        change c.hasBurn mb = false at hnot
        simp only [Program.run_ensure, hnot, Bool.false_eq_true, if_false, not_false_eq_true,
          and_true, true_iff]
        exact hvalue
      · change c.hasBurn mb = true at hfound
        rcases hcases with ⟨hrun, -⟩ | ⟨c', hrun⟩ | ⟨success, c', hrun⟩
        · rw [hrun]
          simp [hfound]
        · rw [hrun]
          simp [hfound]
        · rw [hrun]
          simp [Program.run_ensure, hfound]

end Settle

end TempoRollup.Contract
