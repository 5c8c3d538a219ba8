/-
The staking pool of `koinon-staking`: validators and their stakes, the rewards
that are shared among them, and slashing.

The total of the staking pool is the sum of the stakes, over runs of calls that
may fail: the total has to fit before a stake is stored.
-/
import Oikos.Lib.Table
import Oikos.Koinon.Ledger

namespace Oikos.Koinon

def minimumStake : BitVec 128 := BitVec.ofNat 128 (100000 * 10 ^ 18)

structure Validator where
  id : UInt64
  operatorDid : String
  stakedAmount : OikosAmount
  rewardDebt : BitVec 128
  active : Bool
  slashedAmount : OikosAmount
  createdAt : UInt64
  jailedUntil : UInt64
deriving DecidableEq

/-- The order of the table is one in which the hash map may be iterated. -/
structure StakingPool where
  validators : Table UInt64 Validator
  totalStaked : OikosAmount
  nextValidatorId : UInt64
  conservation : TotalValueConservation

inductive StakingError where
  | validatorNotFound (id : UInt64)
  | insufficientStake (have_ need : BitVec 128)
  | belowMinimumStake (current minimum : BitVec 128)
  | validatorNotActive (id : UInt64)
  | validatorJailed (id : UInt64)
deriving DecidableEq

def Validator.eligible (v : Validator) : Bool :=
  v.active && v.jailedUntil == 0

/-! ### Slashing reasons -/

inductive SlashingReason where
  | doubleSigning
  | downtime (durationBlocks : UInt64)
  | invalidStateProof
deriving DecidableEq

structure SlashingResult where
  validatorId : UInt64
  reason : SlashingReason
  originalStake : OikosAmount
  slashAmount : OikosAmount
  remainingStake : OikosAmount
  jailed : Bool
  jailedUntil : UInt64
deriving DecidableEq

def calculateSlash (v : Validator) (reason : SlashingReason) : OikosAmount :=
  let stake := v.stakedAmount.units
  match reason with
  | .doubleSigning => ⟨stake / 2⟩
  | .downtime durationBlocks => if 3600 < durationBlocks then ⟨stake / 100⟩ else ⟨0⟩
  | .invalidStateProof => ⟨stake / 10⟩

def jailDuration : SlashingReason → UInt64
  | .doubleSigning => 10000
  | .downtime _ => 0
  | .invalidStateProof => 5000

def SlashingReason.jails : SlashingReason → Bool
  | .doubleSigning | .invalidStateProof => true
  | .downtime _ => false

/-! ### Shares -/

def tokenScale : BitVec 128 := BitVec.ofNat 128 (10 ^ 18)

/-- `a * b / c`, with both factors scaled down where the product does not fit.
The products of the scaled amounts panic where they do not fit. -/
def proRataShare (a b c : BitVec 128) : Option (BitVec 128) :=
  if c = 0 then some 0
  else
    match checkedMul a b with
    | some product => some (product / c)
    | none =>
      let scale := tokenScale
      let aS := a / scale
      let bS := b / scale
      let cS := c / scale
      if cS = 0 then some 0
      else (checkedMul aS bS).bind fun product => checkedMul (product / cS) scale

namespace StakingPool

def new : StakingPool :=
  ⟨.empty, .zero, 1, .new⟩

def registerValidator (pool : StakingPool) (operatorDid : String) :
    Result StakingError UInt64 × StakingPool :=
  let id := pool.nextValidatorId
  let pool := { pool with
    validators := pool.validators.insert id ⟨id, operatorDid, .zero, 0, true, .zero, 0, 0⟩ }
  match (checkedSucc id : Result StakingError UInt64) with
  | .ok next => (.ok id, { pool with nextValidatorId := next })
  | .error stop => (.error stop, pool)

/-- Store a validator's stake through `get_mut`. -/
def setStake (pool : StakingPool) (validatorId : UInt64) (amount : OikosAmount) : StakingPool :=
  { pool with
    validators := pool.validators.modify validatorId fun v => { v with stakedAmount := amount } }

/-- The stake is stored before the total is known to fit. -/
def stake (pool : StakingPool) (validatorId : UInt64) (amount : OikosAmount) :
    Result StakingError Unit × StakingPool :=
  match pool.validators.get validatorId with
  | none => (.error (.err (.validatorNotFound validatorId)), pool)
  | some v =>
    if !v.active then (.error (.err (.validatorNotActive validatorId)), pool)
    else if 0 < v.jailedUntil then (.error (.err (.validatorJailed validatorId)), pool)
    else
      match v.stakedAmount.checkedAdd amount with
      | none => (.error (.err (.insufficientStake v.stakedAmount.units amount.units)), pool)
      | some newStaked =>
        if newStaked.units < minimumStake then
          (.error (.err (.belowMinimumStake newStaked.units minimumStake)), pool)
        else
          let pool := pool.setStake validatorId newStaked
          match pool.totalStaked.checkedAdd amount with
          | none =>
            (.error (.err (.insufficientStake pool.totalStaked.units amount.units)), pool)
          | some total =>
            (.ok (), { pool with
              totalStaked := total
              conservation := (pool.conservation.recordStake amount).2 })

def unstake (pool : StakingPool) (validatorId : UInt64) (amount : OikosAmount) :
    Result StakingError Unit × StakingPool :=
  match pool.validators.get validatorId with
  | none => (.error (.err (.validatorNotFound validatorId)), pool)
  | some v =>
    if !v.active then (.error (.err (.validatorNotActive validatorId)), pool)
    else
      match v.stakedAmount.checkedSub amount with
      | none => (.error (.err (.insufficientStake v.stakedAmount.units amount.units)), pool)
      | some newStaked =>
        if newStaked.units ≠ 0 ∧ newStaked.units < minimumStake then
          (.error (.err (.belowMinimumStake newStaked.units minimumStake)), pool)
        else
          let pool := pool.setStake validatorId newStaked
          match pool.totalStaked.checkedSub amount with
          | none =>
            (.error (.err (.insufficientStake pool.totalStaked.units amount.units)), pool)
          | some total =>
            (.ok (), { pool with
              totalStaked := total
              conservation := (pool.conservation.recordUnstake amount).2 })

/-- The identifiers of `order` whose validators are eligible. -/
def activeIds (pool : StakingPool) (order : List UInt64) : List UInt64 :=
  order.filter fun vid => (pool.validators.get vid).any Validator.eligible

def shareOf (reward total : BitVec 128) (last : Bool) (distributed : BitVec 128)
    (validators : Table UInt64 Validator) (vid : UInt64) : Option (BitVec 128) :=
  if last then some (saturatingSub reward distributed)
  else (validators.get vid).bind fun v => proRataShare v.stakedAmount.units reward total

def credit (share : BitVec 128) (v : Validator) : Validator :=
  { v with rewardDebt := saturatingAdd v.rewardDebt share }

/-- The loop over the active validators. -/
def distribute (reward total : BitVec 128) :
    List UInt64 → BitVec 128 → Table UInt64 Validator → Option (Table UInt64 Validator)
  | [], _, validators => some validators
  | vid :: rest, distributed, validators =>
    (shareOf reward total rest.isEmpty distributed validators vid).bind fun share =>
      if 0 < share then
        distribute reward total rest (saturatingAdd distributed share)
          (validators.modify vid (credit share))
      else distribute reward total rest distributed validators

/-- `order` is the order in which the keys of the validators are iterated. -/
def distributeRewards (pool : StakingPool) (order : List UInt64) (totalReward : OikosAmount) :
    Option StakingPool :=
  if totalReward.units = 0 then some pool
  else if pool.totalStaked.units = 0 then some pool
  else if (pool.activeIds order).isEmpty then some pool
  else
    (distribute totalReward.units pool.totalStaked.units (pool.activeIds order) 0
      pool.validators).map fun validators => { pool with validators := validators }

def claimRewards (pool : StakingPool) (validatorId : UInt64) :
    Result StakingError OikosAmount × StakingPool :=
  match pool.validators.get validatorId with
  | none => (.error (.err (.validatorNotFound validatorId)), pool)
  | some v =>
    (.ok ⟨v.rewardDebt⟩, { pool with
      validators := pool.validators.modify validatorId fun v => { v with rewardDebt := 0 } })

def slashed (slashAmount : OikosAmount) (jailed : Bool) (jailedUntil : UInt64) (v : Validator) :
    Validator :=
  { v with
    stakedAmount := ⟨saturatingSub v.stakedAmount.units slashAmount.units⟩
    slashedAmount := ⟨saturatingAdd v.slashedAmount.units slashAmount.units⟩
    jailedUntil := if jailed then jailedUntil else v.jailedUntil }

/-- The end of the jail term is computed, and panics where it does not fit,
before anything is stored. -/
def applySlashing (pool : StakingPool) (validatorId : UInt64) (reason : SlashingReason)
    (currentBlock : UInt64) : Result StakingError SlashingResult × StakingPool :=
  match pool.validators.get validatorId with
  | none => (.error (.err (.validatorNotFound validatorId)), pool)
  | some v =>
    let slashAmount := calculateSlash v reason
    if reason.jails ∧ 2 ^ 64 ≤ currentBlock.toNat + (jailDuration reason).toNat then
      (.error .panic, pool)
    else
      let jailedUntil := if reason.jails then currentBlock + jailDuration reason else 0
      let validators := pool.validators.modify validatorId
        (slashed slashAmount reason.jails jailedUntil)
      (.ok ⟨validatorId, reason, v.stakedAmount, slashAmount,
          ⟨saturatingSub v.stakedAmount.units slashAmount.units⟩, reason.jails, jailedUntil⟩,
        { pool with
          validators := validators
          totalStaked := ⟨saturatingSub pool.totalStaked.units slashAmount.units⟩ })

/-! ### Runs -/

inductive Op where
  | registerValidator (operatorDid : String)
  | stake (validatorId : UInt64) (amount : OikosAmount)
  | unstake (validatorId : UInt64) (amount : OikosAmount)
  | distributeRewards (order : List UInt64) (totalReward : OikosAmount)
  | claimRewards (validatorId : UInt64)
  | applySlashing (validatorId : UInt64) (reason : SlashingReason) (currentBlock : UInt64)

/-- Make a call, and forget the value that it returns. -/
def step (pool : StakingPool) : Op → Result StakingError Unit × StakingPool
  | .registerValidator did =>
    ((pool.registerValidator did).1.map fun _ => (), (pool.registerValidator did).2)
  | .stake id amount => pool.stake id amount
  | .unstake id amount => pool.unstake id amount
  | .distributeRewards order reward =>
    match pool.distributeRewards order reward with
    | some pool => (.ok (), pool)
    | none => (.error .panic, pool)
  | .claimRewards id => ((pool.claimRewards id).1.map fun _ => (), (pool.claimRewards id).2)
  | .applySlashing id reason block =>
    ((pool.applySlashing id reason block).1.map fun _ => (), (pool.applySlashing id reason block).2)

def run : StakingPool → List Op → Option StakingPool
  | pool, [] => some pool
  | pool, op :: ops =>
    if (pool.step op).1 = .error .panic then none else (pool.step op).2.run ops

variable {pool pool' : StakingPool} {id : UInt64} {amount : OikosAmount} {v : Validator}

def stakeOf (v : Validator) : Nat :=
  v.stakedAmount.toNat

def SumsUp (pool : StakingPool) : Prop :=
  pool.totalStaked.toNat = pool.validators.total stakeOf

/-- Identifiers are handed out in order. -/
def Fresh (pool : StakingPool) : Prop :=
  ∀ id ∈ pool.validators.keys, id.toNat < pool.nextValidatorId.toNat

/-! ### What a call can do -/

theorem registerValidator_cases (pool : StakingPool) (did : String) :
    (pool.registerValidator did).1 = .error .panic ∨
    ∃ next : UInt64, next.toNat = pool.nextValidatorId.toNat + 1 ∧
      pool.registerValidator did = (.ok pool.nextValidatorId, { pool with
        validators := pool.validators.insert pool.nextValidatorId
          ⟨pool.nextValidatorId, did, .zero, 0, true, .zero, 0, 0⟩
        nextValidatorId := next }) := by
  unfold registerValidator
  dsimp only
  cases hnext : (checkedSucc pool.nextValidatorId : Result StakingError UInt64) with
  | ok next => exact Or.inr ⟨next, checkedSucc_eq_ok hnext, rfl⟩
  | error stop =>
    left
    unfold checkedSucc at hnext
    split at hnext
    · cases hnext
    · cases hnext
      rfl

def Accepts (pool : StakingPool) (id : UInt64) (amount : OikosAmount) : Prop :=
  ∃ v, pool.validators.get id = some v ∧ v.eligible = true ∧
    minimumStake.toNat ≤ stakeOf v + amount.toNat ∧ stakeOf v + amount.toNat < 2 ^ 128

theorem stake_cases (pool : StakingPool) (id : UInt64) (amount : OikosAmount) :
    (¬ pool.Accepts id amount ∧ ∃ e, pool.stake id amount = (.error (.err e), pool)) ∨
    pool.Accepts id amount ∧ ∃ v newStaked, pool.validators.get id = some v ∧
      newStaked.toNat = stakeOf v + amount.toNat ∧
      ((∃ total : OikosAmount, total.toNat = pool.totalStaked.toNat + amount.toNat ∧
          pool.stake id amount = (.ok (), { pool.setStake id newStaked with
            totalStaked := total
            conservation := (pool.conservation.recordStake amount).2 })) ∨
        (2 ^ 128 ≤ pool.totalStaked.toNat + amount.toNat ∧
          ∃ e, pool.stake id amount = (.error (.err e), pool.setStake id newStaked))) := by
  unfold stake
  cases hv : pool.validators.get id with
  | none =>
    refine Or.inl ⟨?_, _, rfl⟩
    rintro ⟨v, hget, -⟩
    rw [hv] at hget
    cases hget
  | some v =>
    have honly : ∀ {w}, pool.validators.get id = some w → w = v := fun h =>
      Option.some.inj (h.symm.trans hv)
    dsimp only
    by_cases hactive : v.active = true
    · by_cases hjailed : 0 < v.jailedUntil
      · rw [if_neg (by simp [hactive]), if_pos hjailed]
        refine Or.inl ⟨?_, _, rfl⟩
        rintro ⟨w, hget, helig, -⟩
        cases honly hget
        simp only [Validator.eligible, Bool.and_eq_true, beq_iff_eq] at helig
        rw [helig.2] at hjailed
        exact absurd hjailed (by decide)
      · rw [if_neg (by simp [hactive]), if_neg hjailed]
        have helig : v.eligible = true := by
          have hzero : v.jailedUntil = 0 := by
            rw [UInt64.lt_iff_toNat_lt] at hjailed
            rw [← UInt64.toNat_inj]
            exact Nat.eq_zero_of_not_pos hjailed
          simp [Validator.eligible, hactive, hzero]
        cases hsum : v.stakedAmount.checkedAdd amount with
        | none =>
          have hover := OikosAmount.checkedAdd_eq_none.mp hsum
          refine Or.inl ⟨?_, _, rfl⟩
          rintro ⟨w, hget, -, -, hlt⟩
          cases honly hget
          exact absurd hlt (not_lt.mpr hover)
        | some newStaked =>
          have hnew := OikosAmount.checkedAdd_eq_some.mp hsum
          have hfits := newStaked.toNat_lt
          dsimp only
          by_cases hmin : newStaked.units < minimumStake
          · rw [if_pos hmin]
            refine Or.inl ⟨?_, _, rfl⟩
            rintro ⟨w, hget, -, hle, -⟩
            cases honly hget
            rw [BitVec.lt_def] at hmin
            exact absurd (hle.trans_eq hnew.symm) (not_le.mpr hmin)
          · rw [if_neg hmin]
            rw [BitVec.lt_def] at hmin
            have haccepts : pool.Accepts id amount :=
              ⟨v, hv, helig, hnew ▸ Nat.le_of_not_lt hmin, hnew ▸ hfits⟩
            refine Or.inr ⟨haccepts, v, newStaked, rfl, hnew, ?_⟩
            have hpool : (pool.setStake id newStaked).totalStaked = pool.totalStaked := rfl
            rw [hpool]
            cases htotal : pool.totalStaked.checkedAdd amount with
            | none => exact Or.inr ⟨OikosAmount.checkedAdd_eq_none.mp htotal, _, rfl⟩
            | some total => exact Or.inl ⟨total, OikosAmount.checkedAdd_eq_some.mp htotal, rfl⟩
    · rw [if_pos (by simp [hactive])]
      refine Or.inl ⟨?_, _, rfl⟩
      rintro ⟨w, hget, helig, -⟩
      cases honly hget
      simp [Validator.eligible, hactive] at helig

theorem unstake_cases (pool : StakingPool) (id : UInt64) (amount : OikosAmount) :
    (∃ e, pool.unstake id amount = (.error (.err e), pool)) ∨
    ∃ v newStaked, pool.validators.get id = some v ∧
      stakeOf v = newStaked.toNat + amount.toNat ∧
      ((∃ total : OikosAmount, pool.totalStaked.toNat = total.toNat + amount.toNat ∧
          pool.unstake id amount = (.ok (), { pool.setStake id newStaked with
            totalStaked := total
            conservation := (pool.conservation.recordUnstake amount).2 })) ∨
        (pool.totalStaked.toNat < amount.toNat ∧
          ∃ e, pool.unstake id amount = (.error (.err e), pool.setStake id newStaked))) := by
  unfold unstake
  cases hv : pool.validators.get id with
  | none => exact Or.inl ⟨_, rfl⟩
  | some v =>
    dsimp only
    by_cases hactive : v.active = true
    · rw [if_neg (by simp [hactive])]
      cases hsub : v.stakedAmount.checkedSub amount with
      | none => exact Or.inl ⟨_, rfl⟩
      | some newStaked =>
        dsimp only
        split
        · exact Or.inl ⟨_, rfl⟩
        · have hpool : (pool.setStake id newStaked).totalStaked = pool.totalStaked := rfl
          refine Or.inr ⟨v, newStaked, rfl, OikosAmount.checkedSub_eq_some.mp hsub, ?_⟩
          rw [hpool]
          cases htotal : pool.totalStaked.checkedSub amount with
          | none => exact Or.inr ⟨OikosAmount.checkedSub_eq_none.mp htotal, _, rfl⟩
          | some total => exact Or.inl ⟨total, OikosAmount.checkedSub_eq_some.mp htotal, rfl⟩
    · rw [if_pos (by simp [hactive])]
      exact Or.inl ⟨_, rfl⟩

theorem applySlashing_cases (pool : StakingPool) (id : UInt64) (reason : SlashingReason)
    (block : UInt64) :
    (pool.applySlashing id reason block).1 = .error .panic ∨
    (∃ e, pool.applySlashing id reason block = (.error (.err e), pool)) ∨
    ∃ v until_ result, pool.validators.get id = some v ∧
      pool.applySlashing id reason block = (.ok result, { pool with
        validators := pool.validators.modify id
          (slashed (calculateSlash v reason) reason.jails until_)
        totalStaked := ⟨saturatingSub pool.totalStaked.units (calculateSlash v reason).units⟩
          }) := by
  unfold applySlashing
  cases hv : pool.validators.get id with
  | none => exact Or.inr (Or.inl ⟨_, rfl⟩)
  | some v =>
    dsimp only
    by_cases hpanic : reason.jails = true ∧
        2 ^ 64 ≤ block.toNat + (jailDuration reason).toNat
    · exact Or.inl (by rw [if_pos hpanic])
    · rw [if_neg hpanic]
      exact Or.inr (Or.inr ⟨v, _, _, rfl, rfl⟩)

theorem claimRewards_cases (pool : StakingPool) (id : UInt64) :
    (∃ e, pool.claimRewards id = (.error (.err e), pool)) ∨
    ∃ rewards, pool.claimRewards id = (.ok rewards, { pool with
      validators := pool.validators.modify id fun v => { v with rewardDebt := 0 } }) := by
  unfold claimRewards
  cases pool.validators.get id with
  | none => exact Or.inl ⟨_, rfl⟩
  | some v => exact Or.inr ⟨_, rfl⟩

/-! ### Sums of stakes -/

theorem total_setStake (amount : OikosAmount) (h : pool.validators.get id = some v) :
    (pool.setStake id amount).validators.total stakeOf + stakeOf v =
      pool.validators.total stakeOf + amount.toNat :=
  Table.total_modify stakeOf h

theorem calculateSlash_le (v : Validator) (reason : SlashingReason) :
    (calculateSlash v reason).toNat ≤ stakeOf v := by
  cases reason with
  | doubleSigning => exact (BitVec.toNat_udiv ..).trans_le (Nat.div_le_self _ _)
  | downtime blocks =>
    unfold calculateSlash
    dsimp only
    split
    · exact (BitVec.toNat_udiv ..).trans_le (Nat.div_le_self _ _)
    · exact Nat.zero_le _
  | invalidStateProof => exact (BitVec.toNat_udiv ..).trans_le (Nat.div_le_self _ _)

theorem distribute_keeps {reward total : BitVec 128} {ids : List UInt64} {distributed : BitVec 128}
    {validators validators' : Table UInt64 Validator}
    (h : distribute reward total ids distributed validators = some validators') :
    validators'.keys = validators.keys ∧ validators'.total stakeOf = validators.total stakeOf := by
  induction ids generalizing distributed validators with
  | nil =>
    cases h
    exact ⟨rfl, rfl⟩
  | cons vid rest ih =>
    rw [distribute] at h
    obtain ⟨share, -, h⟩ := Option.bind_eq_some_iff.mp h
    split at h
    · obtain ⟨hkeys, hsum⟩ := ih h
      rw [Table.keys_modify] at hkeys
      rw [Table.total_modify_of_keep (by exact fun _ => rfl)] at hsum
      exact ⟨hkeys, hsum⟩
    · exact ih h

theorem distributeRewards_cases {order : List UInt64}
    (h : pool.distributeRewards order amount = some pool') :
    ∃ validators : Table UInt64 Validator, pool' = { pool with validators := validators } ∧
      validators.keys = pool.validators.keys ∧
      validators.total stakeOf = pool.validators.total stakeOf := by
  unfold distributeRewards at h
  split at h
  · cases h
    exact ⟨pool.validators, rfl, rfl, rfl⟩
  · split at h
    · cases h
      exact ⟨pool.validators, rfl, rfl, rfl⟩
    · split at h
      · cases h
        exact ⟨pool.validators, rfl, rfl, rfl⟩
      · obtain ⟨validators, hdist, rfl⟩ := Option.map_eq_some_iff.mp h
        exact ⟨validators, rfl, distribute_keeps hdist⟩

/-! ### Steps -/

def Op.Fits (pool : StakingPool) : Op → Prop
  | .stake id amount =>
    pool.Accepts id amount → pool.totalStaked.toNat + amount.toNat < 2 ^ 128
  | _ => True

structure Books (pool : StakingPool) : Prop where
  sumsUp : pool.SumsUp
  fresh : pool.Fresh

theorem books_new : new.Books :=
  ⟨rfl, by simp [Fresh, new, Table.keys, Table.empty]⟩

theorem Books.step (h : pool.Books) {op : Op} (hfits : op.Fits pool)
    (hpanic : (pool.step op).1 ≠ .error .panic) :
    (pool.step op).2.Books ∧
      ∀ e, (pool.step op).1 = .error (.err e) → (pool.step op).2 = pool := by
  obtain ⟨hsum, hfresh⟩ := id h
  have hsum' : pool.totalStaked.toNat = pool.validators.total stakeOf := hsum
  cases op with
  | registerValidator did =>
    simp only [StakingPool.step] at hpanic ⊢
    rcases pool.registerValidator_cases did with heq | ⟨next, hnext, heq⟩
    · rw [heq] at hpanic
      exact absurd rfl hpanic
    · rw [heq]
      have hnew : pool.nextValidatorId ∉ pool.validators.keys := fun hmem =>
        lt_irrefl _ (hfresh _ hmem)
      refine ⟨⟨?_, ?_⟩, fun e he => (by cases he)⟩
      · rw [SumsUp, Table.total_insert_of_notMem stakeOf hnew]
        exact hsum
      · intro id hid
        rcases Table.mem_keys_insert.mp hid with rfl | hid
        · exact (Nat.lt_succ_self _).trans_eq hnext.symm
        · have hlt := hfresh id hid
          dsimp only
          omega
  | stake id amount =>
    simp only [StakingPool.step]
    rcases pool.stake_cases id amount with ⟨-, e, heq⟩ | ⟨haccepts, v, newStaked, hv, hnew, hcase⟩
    · rw [heq]
      exact ⟨h, fun _ _ => rfl⟩
    · rcases hcase with ⟨total, htotal, heq⟩ | ⟨hover, -⟩
      · rw [heq]
        refine ⟨⟨?_, ?_⟩, fun e he => (by cases he)⟩
        · have := total_setStake newStaked hv
          rw [SumsUp]
          dsimp only
          omega
        · intro id' hid
          rw [setStake, Table.keys_modify] at hid
          exact hfresh id' hid
      · exact absurd (hfits haccepts) (not_lt.mpr hover)
  | unstake id amount =>
    simp only [StakingPool.step]
    rcases pool.unstake_cases id amount with ⟨e, heq⟩ | ⟨v, newStaked, hv, hnew, hcase⟩
    · rw [heq]
      exact ⟨h, fun _ _ => rfl⟩
    · rcases hcase with ⟨total, htotal, heq⟩ | ⟨hunder, -⟩
      · rw [heq]
        refine ⟨⟨?_, ?_⟩, fun e he => (by cases he)⟩
        · have := total_setStake newStaked hv
          rw [SumsUp]
          dsimp only
          omega
        · intro id' hid
          rw [setStake, Table.keys_modify] at hid
          exact hfresh id' hid
      · have := Table.le_total stakeOf hv
        omega
  | distributeRewards order reward =>
    simp only [StakingPool.step] at hpanic ⊢
    cases hdist : pool.distributeRewards order reward with
    | none =>
      rw [hdist] at hpanic
      exact absurd rfl hpanic
    | some pool' =>
      obtain ⟨validators, rfl, hkeys, htotal⟩ := distributeRewards_cases hdist
      refine ⟨⟨?_, ?_⟩, fun e he => (by cases he)⟩
      · rw [SumsUp]
        exact hsum'.trans htotal.symm
      · intro id hid
        exact hfresh id (hkeys ▸ hid)
  | claimRewards id =>
    simp only [StakingPool.step]
    rcases pool.claimRewards_cases id with ⟨e, heq⟩ | ⟨rewards, heq⟩
    · rw [heq]
      exact ⟨h, fun _ _ => rfl⟩
    · rw [heq]
      refine ⟨⟨?_, ?_⟩, fun e he => (by cases he)⟩
      · rw [SumsUp, Table.total_modify_of_keep (by exact fun _ => rfl)]
        exact hsum
      · intro id' hid
        rw [Table.keys_modify] at hid
        exact hfresh id' hid
  | applySlashing id reason block =>
    simp only [StakingPool.step] at hpanic ⊢
    rcases pool.applySlashing_cases id reason block with
      heq | ⟨e, heq⟩ | ⟨v, until_, result, hv, heq⟩
    · rw [heq] at hpanic
      exact absurd rfl hpanic
    · rw [heq]
      exact ⟨h, fun _ _ => rfl⟩
    · rw [heq]
      refine ⟨⟨?_, ?_⟩, fun e he => (by cases he)⟩
      · have hle := calculateSlash_le v reason
        have hsub := toNat_saturatingSub pool.totalStaked.units (calculateSlash v reason).units
        have hstake := toNat_saturatingSub v.stakedAmount.units (calculateSlash v reason).units
        have htotal := Table.total_modify
          (f := slashed (calculateSlash v reason) reason.jails until_) stakeOf hv
        have hstakes := Table.le_total stakeOf hv
        simp only [SumsUp, OikosAmount.toNat, stakeOf, slashed] at *
        omega
      · intro id' hid
        rw [Table.keys_modify] at hid
        exact hfresh id' hid

theorem step_of_not_fits {op : Op} (h : ¬ op.Fits pool) :
    ∃ e, (pool.step op).1 = .error (.err e) ∧ (pool.step op).2 ≠ pool := by
  cases op with
  | stake id amount =>
    simp only [Op.Fits, Classical.not_imp] at h
    obtain ⟨haccepts, hover⟩ := h
    rcases pool.stake_cases id amount with ⟨hnot, -⟩ | ⟨-, v, newStaked, hv, hnew, hcase⟩
    · exact absurd haccepts hnot
    · rcases hcase with ⟨total, htotal, -⟩ | ⟨-, e, heq⟩
      · exact absurd (htotal ▸ total.toNat_lt) hover
      · refine ⟨e, by rw [StakingPool.step, heq], ?_⟩
        rw [StakingPool.step, heq]
        intro hsame
        dsimp only at hsame
        have hget := Table.get_modify pool.validators id
          (fun v => { v with stakedAmount := newStaked }) id
        have hkeep : (pool.setStake id newStaked).validators.get id = some v := by
          rw [hsame, hv]
        rw [if_pos rfl, hv, Option.map_some] at hget
        have hsame' := Option.some.inj (hget.symm.trans hkeep)
        have hstake := congrArg stakeOf hsame'
        have hlt := pool.totalStaked.toNat_lt
        simp only [stakeOf] at hstake hnew
        omega
  | registerValidator => exact absurd trivial h
  | unstake => exact absurd trivial h
  | distributeRewards => exact absurd trivial h
  | claimRewards => exact absurd trivial h
  | applySlashing => exact absurd trivial h

/-! ### Runs -/

def Exact : StakingPool → List Op → Prop
  | pool, [] => pool.SumsUp
  | pool, op :: ops =>
    pool.SumsUp ∧
      (∀ e, (pool.step op).1 = .error (.err e) → (pool.step op).2 = pool) ∧
      ((pool.step op).1 ≠ .error .panic → Exact (pool.step op).2 ops)

/-- The total has room for every stake of the run that is accepted. -/
def AllFit : StakingPool → List Op → Prop
  | _, [] => True
  | pool, op :: ops =>
    op.Fits pool ∧ ((pool.step op).1 ≠ .error .panic → AllFit (pool.step op).2 ops)

theorem Books.exact_iff {ops : List Op} (h : pool.Books) : pool.Exact ops ↔ pool.AllFit ops := by
  induction ops generalizing pool with
  | nil => exact ⟨fun _ => trivial, fun _ => h.sumsUp⟩
  | cons op ops ih =>
    constructor
    · rintro ⟨-, hunchanged, hrest⟩
      have hfits : op.Fits pool := by
        by_contra hnot
        obtain ⟨e, herr, hchanged⟩ := step_of_not_fits hnot
        exact hchanged (hunchanged e herr)
      refine ⟨hfits, fun hpanic => ?_⟩
      exact (ih (h.step hfits hpanic).1).mp (hrest hpanic)
    · rintro ⟨hfits, hrest⟩
      refine ⟨h.sumsUp, fun e herr => ?_, fun hpanic => ?_⟩
      · exact (h.step hfits (by simp [herr])).2 e herr
      · exact (ih (h.step hfits hpanic).1).mpr (hrest hpanic)

theorem Books.run {ops : List Op} (h : pool.Books) (hfit : pool.AllFit ops)
    (hrun : pool.run ops = some pool') : pool'.Books := by
  induction ops generalizing pool with
  | nil =>
    cases hrun
    exact h
  | cons op ops ih =>
    rw [StakingPool.run] at hrun
    split at hrun
    · cases hrun
    · next hpanic => exact ih (h.step hfit.1 hpanic).1 (hfit.2 hpanic) hrun

/-- In a run of calls from the empty pool the total is always the sum of the
stakes, and failed calls change nothing, if and only if the total has room for
every stake that is accepted. -/
theorem total_exact_iff_fits (ops : List Op) : new.Exact ops ↔ new.AllFit ops :=
  books_new.exact_iff

/-- A stake of 100000 OIKOS beside one of all `u128` units fails, and is stored. -/
theorem stake_stored_on_error :
    ∃ pool, new.run [.registerValidator "a", .registerValidator "b",
        .stake 1 ⟨BitVec.allOnes 128⟩] = some pool ∧
      (∃ e, (pool.step (.stake 2 ⟨minimumStake⟩)).1 = .error (.err e)) ∧
      ¬ (pool.step (.stake 2 ⟨minimumStake⟩)).2.SumsUp := by
  refine ⟨_, rfl, ⟨_, rfl⟩, ?_⟩
  unfold SumsUp
  decide

end StakingPool

end Oikos.Koinon
