/-
Block production of `koinon-node`: the state at genesis, the state restored from
the store, and the production of a block from the transactions of the mempool.
-/
import Oikos.Koinon.MandateStore

namespace Oikos.Koinon

/-! ### Configuration -/

structure GenesisValidator where
  operatorDid : String
  stake : BitVec 128

structure GenesisAccount where
  id : AccountId
  oikosBalance : BitVec 128
  koinBalance : Int64

def GenesisAccount.toAccount (ga : GenesisAccount) : Account :=
  ⟨ga.id, ⟨ga.oikosBalance⟩, ⟨ga.koinBalance.toBitVec.signExtend 128⟩, 0⟩

structure GenesisConfig where
  initialValidators : List GenesisValidator
  initialAccounts : List GenesisAccount
  treasuryBalance : BitVec 128

def GenesisConfig.default : GenesisConfig :=
  ⟨[⟨"did:example:genesis-validator", BitVec.ofNat 128 (100000 * 10 ^ 18)⟩],
    [⟨1, 0, 0⟩, ⟨2, 0, 0⟩], BitVec.ofNat 128 (1000000 * 10 ^ 18)⟩

structure NodeConfig where
  genesis : GenesisConfig

def NodeConfig.default : NodeConfig :=
  ⟨.default⟩

inductive NodeError where
  | store (e : StoreError)
  | reward (e : RewardError)
  | staking (e : StakingError)
deriving DecidableEq

structure BlockProducer where
  config : NodeConfig
  state : NodeState
  store : StateStore
  mempool : List Transaction

/-! ### Genesis -/

def accountMap (accounts : List Account) : Table AccountId Account :=
  accounts.foldl (fun t a => t.insert a.id a) .empty

def addGenesisValidator (pool : StakingPool) (gv : GenesisValidator) :
    Result NodeError StakingPool := do
  let registered := pool.registerValidator gv.operatorDid
  let id ← mapErr NodeError.staking registered.1
  if 0 < gv.stake then do
    let staked := registered.2.stake id ⟨gv.stake⟩
    mapErr NodeError.staking staked.1
    .ok staked.2
  else .ok registered.2

namespace BlockProducer

def genesisState (config : NodeConfig) : Result NodeError NodeState := do
  let stakingPool ← config.genesis.initialValidators.foldlM addGenesisValidator .new
  .ok {
    stakingPool := stakingPool
    treasury := .new ⟨config.genesis.treasuryBalance⟩
    conservation := (TotalValueConservation.new.recordMint ⟨config.genesis.treasuryBalance⟩).2
    rewardProcessor := .new .default
    accounts := accountMap (config.genesis.initialAccounts.map GenesisAccount.toAccount)
    mandates := [] }

/-! ### Restoring -/

def sumStakes : BitVec 128 → List Validator → Result NodeError (BitVec 128)
  | sum, [] => .ok sum
  | sum, v :: rest =>
    match checkedAdd sum v.stakedAmount.units with
    | some sum => sumStakes sum rest
    | none => .error .panic

/-- A validator is registered under the next identifier, and stored only where
that identifier or an earlier one is its own. -/
def restoreValidator (pool : StakingPool) (v : Validator) : Result NodeError StakingPool := do
  let registered := pool.registerValidator v.operatorDid
  let _ ← mapErr NodeError.staking registered.1
  let validators := registered.2.validators.modify v.id fun _ => v
  let total ← sumStakes 0 validators.values
  let next ← checkedSucc v.id
  .ok { registered.2 with
    validators := validators
    totalStaked := ⟨total⟩
    nextValidatorId := max registered.2.nextValidatorId next }

def restoreState (json : JsonStrings) : Effect StateStore NodeError NodeState := do
  let accounts ← StateStore.listAccounts.mapErr NodeError.store
  let validators ← StateStore.listValidators.mapErr NodeError.store
  let stakingPool ← Effect.lift (validators.foldlM restoreValidator .new)
  let mandates ← (StateStore.listMandates json).mapErr NodeError.store
  pure {
    stakingPool := stakingPool
    treasury := .new .zero
    conservation := .new
    rewardProcessor := .new .default
    accounts := accountMap accounts
    mandates := mandates }

def new (json : JsonStrings) (config : NodeConfig) (store : StateStore) :
    Result NodeError BlockProducer :=
  match StateStore.getLastBlockHeight store with
  | (.error stop, _) => mapErr NodeError.store (.error stop)
  | (.ok lastHeight, store) =>
    if lastHeight = 0 then
      (genesisState config).map fun state => ⟨config, state, store, []⟩
    else
      match restoreState json store with
      | (.error stop, _) => .error stop
      | (.ok state, store) => .ok ⟨config, state, store, []⟩

/-! ### Producing a block -/

def submitTransaction (p : BlockProducer) (tx : Transaction) : TxHash × BlockProducer :=
  (tx.hash, { p with mempool := p.mempool ++ [tx] })

def onStore {α : Type} (x : Effect StateStore StoreError α) : Effect BlockProducer NodeError α :=
  x.within store (fun store p => { p with store := store }) NodeError.store

/-- The height after the last one, and the hash of the block that stands there. -/
def readParent : Effect StateStore StoreError (UInt64 × Digest) := do
  let lastHeight ← StateStore.getLastBlockHeight
  let height ← Effect.lift (checkedSucc lastHeight)
  if height = 1 then pure (height, zeroDigest)
  else do
    let parent ← StateStore.getBlock (height - 1)
    pure (height, (parent.map Block.hash).getD zeroDigest)

/-- The transactions are taken out, whatever becomes of them. -/
def drainMempool : Effect BlockProducer NodeError (List Transaction) := fun p =>
  (.ok p.mempool, { p with mempool := [] })

/-- What the transactions pay, and a panic where the sum does not fit. -/
def totalGasFees (txs : List Transaction) : Result RewardError KoinAmount :=
  sumI128 .zero (txs.map fun tx => ⟨(calculateGas tx.gasLimit 0).toBitVec.setWidth 128⟩)

/-- The reward of the block, recorded in the processor's own ledger. -/
def processReward (height : UInt64) (txs : List Transaction) :
    Effect BlockProducer NodeError BlockReward := fun p =>
  match totalGasFees txs with
  | .error stop => (mapErr NodeError.reward (.error stop), p)
  | .ok fees =>
    let processed := p.state.rewardProcessor.processBlock height fees
    (mapErr NodeError.reward processed.1,
      { p with state := { p.state with rewardProcessor := processed.2 } })

/-- The mint is recorded whether or not it fits, then the reward is shared in the
order in which the hash map of the validators is iterated. -/
def creditReward (order : List UInt64) (reward : BlockReward) :
    Effect BlockProducer NodeError Unit := fun p =>
  let state := { p.state with
    conservation := (BlockRewardProcessor.recordBase p.state.conservation reward.baseReward).2 }
  match state.stakingPool.distributeRewards order reward.baseReward with
  | none => (.error .panic, { p with state := state })
  | some pool => (.ok (), { p with state := { state with stakingPool := pool } })

/-- The validators in the order of the hash map. -/
def validatorsIn (order : List UInt64) (p : BlockProducer) : List Validator :=
  order.filterMap p.state.stakingPool.validators.get

def makeBlock (sha256 : List UInt8 → Digest) (order : List UInt64) (currentTime height : UInt64)
    (parentHash : Digest) (txs : List Transaction) (reward : BlockReward) (p : BlockProducer) :
    Block :=
  let validatorId := (((validatorsIn order p).find? Validator.eligible).map Validator.id).getD 0
  let block : Block :=
    ⟨height, zeroDigest, parentHash, currentTime, txs, validatorId, reward,
      p.state.computeStateRoot sha256⟩
  { block with hash := block.computeHash sha256 }

/-- A step that fails does not undo the ones before it. -/
def produceBlock (sha256 : List UInt8 → Digest) (order : List UInt64) (currentTime : UInt64) :
    Effect BlockProducer NodeError Block := do
  let (height, parentHash) ← onStore readParent
  let txs ← drainMempool
  let reward ← processReward height txs
  creditReward order reward
  let block ← Effect.gets (makeBlock sha256 order currentTime height parentHash txs reward)
  onStore (StateStore.applyBlock block)
  let validators ← Effect.gets (validatorsIn order)
  onStore (validators.forM StateStore.upsertValidator)
  pure block

end BlockProducer

end Oikos.Koinon
