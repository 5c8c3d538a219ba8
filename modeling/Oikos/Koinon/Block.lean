/-
What a block earns: gas fees, their split, and the yearly emission that
`koinon-rewards` turns into block rewards.

Blocks and the state of a node of `koinon-node`, with the bytes that a block
hash and a state root are computed from.
-/
import Oikos.Koinon.Mandate
import Oikos.Koinon.Staking

namespace Oikos.Koinon

/-! ### Gas -/

structure GasConfig where
  baseCost : UInt64
  perStep : UInt64
  perStorageByte : UInt64

def GasConfig.default : GasConfig :=
  ⟨1000, 10, 100⟩

/-- The sum stops at the greatest number. -/
def calculateGasWithConfig (config : GasConfig) (steps storageBytes : UInt64) : UInt64 :=
  ⟨saturatingAdd
    (saturatingAdd config.baseCost.toBitVec
      (saturatingMul steps.toBitVec config.perStep.toBitVec))
    (saturatingMul storageBytes.toBitVec config.perStorageByte.toBitVec)⟩

def calculateGas (steps storageBytes : UInt64) : UInt64 :=
  calculateGasWithConfig .default steps storageBytes

/-! ### Fees -/

/-- An `i128`, with a panic where the number does not fit. -/
def checkedI128 {E : Type} (n : Int) : Result E KoinAmount :=
  if -2 ^ 127 ≤ n ∧ n < 2 ^ 127 then .ok ⟨BitVec.ofInt 128 n⟩ else .error .panic

def KoinAmount.toInt (a : KoinAmount) : Int :=
  a.units.toInt

/-- A sum panics where it overflows. -/
def sumI128 {E : Type} : KoinAmount → List KoinAmount → Result E KoinAmount
  | sum, [] => .ok sum
  | sum, a :: rest => do
    let sum ← checkedI128 (sum.toInt + a.toInt)
    sumI128 sum rest

/-- The parts of a fee, in percent. -/
structure FeeConfig where
  burnPct : UInt32
  validatorPct : UInt32
  treasuryPct : UInt32

def FeeConfig.default : FeeConfig :=
  ⟨70, 20, 10⟩

/-- A fee, split. -/
structure FeeSplit where
  burn : KoinAmount
  validator : KoinAmount
  treasury : KoinAmount
deriving DecidableEq

namespace FeeSplit

/-- A percentage of an amount, rounded towards zero. -/
def part {E : Type} (raw : Int) (pct : UInt32) : Result E KoinAmount := do
  let product ← checkedI128 (raw * pct.toNat)
  checkedI128 (product.toInt.tdiv 100)

def fromConfig {E : Type} (config : FeeConfig) (total : KoinAmount) : Result E FeeSplit :=
  let raw := total.toInt
  if raw < 0 then .ok ⟨.zero, .zero, .zero⟩
  else do
    let burn ← part raw config.burnPct
    let validator ← part raw config.validatorPct
    let rest ← checkedI128 (raw - burn.toInt)
    let treasury ← checkedI128 (rest.toInt - validator.toInt)
    .ok ⟨burn, validator, treasury⟩

def fromTotal {E : Type} (total : KoinAmount) : Result E FeeSplit :=
  fromConfig .default total

end FeeSplit

/-! ### Emission -/

def year1Emission : BitVec 128 := 50000000

def emissionHaltYear : UInt64 := 20

/-- The loop of `emission_at_year`: four fifths of the year before. -/
def decayed : Nat → BitVec 128
  | 0 => year1Emission
  | k + 1 => decayed k * 8 / 10

/-- No year is year zero, and after the twentieth nothing is emitted. -/
def emissionAtYear (year : UInt64) : BitVec 128 :=
  if year = 0 ∨ emissionHaltYear < year then 0 else decayed (year.toNat - 1)

structure BlockRewardConfig where
  blocksPerYear : UInt64
  minGasPerBlock : UInt64
deriving DecidableEq

def BlockRewardConfig.default : BlockRewardConfig :=
  ⟨31536000, 1000⟩

/-- What a block pays. -/
structure BlockReward where
  blockNumber : UInt64
  year : UInt64
  baseReward : OikosAmount
  feeBurn : KoinAmount
  feeValidator : KoinAmount
  feeTreasury : KoinAmount
deriving DecidableEq

inductive RewardError where
  | conservationViolation
deriving DecidableEq

/-- The rewards of the blocks so far, with a ledger of their own. -/
structure BlockRewardProcessor where
  config : BlockRewardConfig
  conservation : TotalValueConservation
  currentYear : UInt64
deriving DecidableEq

namespace BlockRewardProcessor

def new (config : BlockRewardConfig) : BlockRewardProcessor :=
  ⟨config, .new, 1⟩

/-- Blocks are counted from one; block zero is in no year. -/
def yearForBlock (proc : BlockRewardProcessor) (blockNumber : UInt64) : UInt64 :=
  if blockNumber = 0 then 0
  else if proc.config.blocksPerYear = 0 then 0
  else
    let year := (blockNumber - 1) / proc.config.blocksPerYear + 1
    if 20 < year then 0 else year

def baseReward (proc : BlockRewardProcessor) (blockNumber : UInt64) : OikosAmount :=
  ⟨emissionAtYear (proc.yearForBlock blockNumber) / asU128 proc.config.blocksPerYear⟩

/-- A reward of zero is not recorded. -/
def recordBase (conservation : TotalValueConservation) (base : OikosAmount) :
    Bool × TotalValueConservation :=
  if 0 < base.units then conservation.recordMint base else (true, conservation)

/-- The base reward is recorded first; the year moves on only if nothing fails. -/
def processBlock (proc : BlockRewardProcessor) (blockNumber : UInt64) (blockGasFees : KoinAmount) :
    Result RewardError BlockReward × BlockRewardProcessor :=
  if proc.config.blocksPerYear = 0 then (.error .panic, proc)
  else
    let year := proc.yearForBlock blockNumber
    let base := proc.baseReward blockNumber
    match recordBase proc.conservation base with
    | (false, conservation) =>
      (.error (.err .conservationViolation), { proc with conservation := conservation })
    | (true, conservation) =>
      let proc := { proc with conservation := conservation }
      match FeeSplit.fromTotal blockGasFees with
      | .error stop => (.error stop, proc)
      | .ok split =>
        (.ok ⟨blockNumber, year, base, split.burn, split.validator, split.treasury⟩,
          { proc with currentYear := year })

/-! ### What processing a block does -/

theorem recordBase_cases (tc : TotalValueConservation) (base : OikosAmount) :
    base.toNat = 0 ∧ recordBase tc base = (true, tc) ∨
    0 < base.toNat ∧ oikosMaxSupply.toNat < tc.minted.toNat + base.toNat ∧
      recordBase tc base = (false, tc) ∨
    0 < base.toNat ∧ tc.minted.toNat + base.toNat ≤ oikosMaxSupply.toNat ∧
      (recordBase tc base).2.minted.toNat = tc.minted.toNat + base.toNat := by
  unfold recordBase
  rcases Nat.eq_zero_or_pos base.toNat with hzero | hpos
  · have hnot : ¬ 0 < base.units := by
      rw [BitVec.lt_def]
      exact not_lt.mpr (le_of_eq hzero)
    exact .inl ⟨hzero, if_neg hnot⟩
  · rw [if_pos (show 0 < base.units from BitVec.lt_def.mpr hpos)]
    right
    rcases tc.recordMint_cases base with ⟨hfull, heq⟩ |
      ⟨minted, total, hsum, hcap, ⟨-, heq⟩ | ⟨-, heq⟩⟩
    · exact .inl ⟨hpos, hfull, heq⟩
    · exact .inr ⟨hpos, hsum ▸ hcap, by rw [heq]; exact hsum⟩
    · exact .inr ⟨hpos, hsum ▸ hcap, by rw [heq]; exact hsum⟩

theorem stops_checkedI128 {E : Type} (n : Int) :
    Stops (· = .panic) (checkedI128 n : Result E KoinAmount) := by
  unfold checkedI128
  split
  · exact .ok _
  · exact .error rfl

theorem stops_sumI128 {E : Type} (sum : KoinAmount) (amounts : List KoinAmount) :
    Stops (· = .panic) (sumI128 sum amounts : Result E KoinAmount) := by
  induction amounts generalizing sum with
  | nil => exact .ok _
  | cons a amounts ih => exact (stops_checkedI128 _).bind fun sum _ => ih sum

theorem stops_part {E : Type} (raw : Int) (pct : UInt32) :
    Stops (· = .panic) (FeeSplit.part raw pct : Result E KoinAmount) :=
  (stops_checkedI128 _).bind fun _ _ => stops_checkedI128 _

theorem stops_fromTotal {E : Type} (total : KoinAmount) :
    Stops (· = .panic) (FeeSplit.fromTotal total : Result E FeeSplit) := by
  unfold FeeSplit.fromTotal FeeSplit.fromConfig
  dsimp only
  split
  · exact .ok _
  · refine (stops_part _ _).bind fun burn _ => (stops_part _ _).bind fun validator _ => ?_
    refine (stops_checkedI128 _).bind fun rest _ => (stops_checkedI128 _).bind fun treasury _ => ?_
    exact .ok _

variable {proc proc' : BlockRewardProcessor} {blockNumber : UInt64} {fees : KoinAmount}
  {reward : BlockReward}

theorem processBlock_eq_ok (h : proc.processBlock blockNumber fees = (.ok reward, proc')) :
    reward.baseReward = proc.baseReward blockNumber ∧
      (recordBase proc.conservation (proc.baseReward blockNumber)).1 = true ∧
      proc' = ⟨proc.config, (recordBase proc.conservation (proc.baseReward blockNumber)).2,
        proc.yearForBlock blockNumber⟩ := by
  unfold processBlock at h
  dsimp only at h
  split at h
  · cases h
  · rcases hbase : recordBase proc.conservation (proc.baseReward blockNumber) with ⟨fits, tc⟩
    rw [hbase] at h
    cases fits with
    | false => cases h
    | true =>
      dsimp only at h
      split at h
      · cases h
      · cases h
        exact ⟨rfl, rfl, rfl⟩

theorem processBlock_eq_error {stop : Stop RewardError} (hpanic : stop ≠ .panic)
    (h : proc.processBlock blockNumber fees = (.error stop, proc')) :
    (∃ e, stop = .err e) ∧
      (recordBase proc.conservation (proc.baseReward blockNumber)).1 = false ∧
      proc' = { proc with
        conservation := (recordBase proc.conservation (proc.baseReward blockNumber)).2 } := by
  unfold processBlock at h
  dsimp only at h
  split at h
  · cases h
    exact (hpanic rfl).elim
  · rcases hbase : recordBase proc.conservation (proc.baseReward blockNumber) with ⟨fits, tc⟩
    rw [hbase] at h
    cases fits with
    | false =>
      cases h
      exact ⟨⟨_, rfl⟩, rfl, rfl⟩
    | true =>
      dsimp only at h
      split at h
      · next cause hsplit =>
        obtain rfl := stops_fromTotal fees cause hsplit
        cases h
        exact (hpanic rfl).elim
      · cases h

end BlockRewardProcessor

abbrev Digest := Vector UInt8 32

/-- `[0u8; 32]`. -/
def zeroDigest : Digest := Vector.replicate 32 0

/-- `to_le_bytes` of a `u64`. -/
def leU64 (n : UInt64) : List UInt8 :=
  leBytes 8 n.toNat

/-- `to_le_bytes` of a `u128` or an `i128`. -/
def leU128 (n : BitVec 128) : List UInt8 :=
  leBytes 16 n.toNat

structure Account where
  id : AccountId
  oikosBalance : OikosAmount
  koinBalance : KoinAmount
  nonce : UInt64
deriving DecidableEq

structure Block where
  height : UInt64
  hash : Digest
  parentHash : Digest
  timestamp : UInt64
  transactions : List Transaction
  validatorId : UInt64
  reward : BlockReward
  stateRoot : Digest

/-- The bytes that `compute_hash` feeds to the hasher. -/
def Block.hashPreimage (block : Block) : List UInt8 :=
  leU64 block.height ++ block.parentHash.toList ++ leU64 block.timestamp ++
    leU64 block.validatorId ++ (block.transactions.flatMap fun tx => tx.hash.toList) ++
    block.stateRoot.toList

def Block.computeHash (sha256 : List UInt8 → Digest) (block : Block) : Digest :=
  sha256 block.hashPreimage

structure TreasuryPool where
  balance : OikosAmount
deriving DecidableEq

def TreasuryPool.new (initialBalance : OikosAmount) : TreasuryPool :=
  ⟨initialBalance⟩

structure NodeState where
  stakingPool : StakingPool
  treasury : TreasuryPool
  conservation : TotalValueConservation
  rewardProcessor : BlockRewardProcessor
  accounts : Table AccountId Account
  mandates : List AgentMandate

namespace NodeState

def accountBytes (id : AccountId) (acc : Account) : List UInt8 :=
  leU64 id ++ leU128 acc.oikosBalance.units ++ leU128 acc.koinBalance.units ++ leU64 acc.nonce

def validatorBytes (vid : UInt64) (v : Validator) : List UInt8 :=
  leU64 vid ++ leU128 v.stakedAmount.units

/-- The bytes of a table's entries in the order of the keys. -/
def inKeyOrder {V : Type} (t : Table UInt64 V) (bytes : UInt64 → V → List UInt8) : List UInt8 :=
  (t.keys.mergeSort (· ≤ ·)).flatMap fun id =>
    match t.get id with
    | some v => bytes id v
    | none => []

/-- The bytes that `compute_state_root` feeds to the hasher. -/
def rootPreimage (state : NodeState) : List UInt8 :=
  inKeyOrder state.accounts accountBytes ++
    (leU128 state.stakingPool.totalStaked.units ++
      (inKeyOrder state.stakingPool.validators validatorBytes ++
        (leU128 state.treasury.balance.units ++
          (leU128 state.conservation.minted.units ++ leU128 state.conservation.burned.units))))

/-- The hash of the accounts and the validators, in the order of their keys. -/
def computeStateRoot (sha256 : List UInt8 → Digest) (state : NodeState) : Digest :=
  sha256 state.rootPreimage

end NodeState

end Oikos.Koinon
