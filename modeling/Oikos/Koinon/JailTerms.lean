/-
What slashing does to a validator over a run of all calls on the pool: the end of
its jail term, the books of its stake, and the rewards it is not paid in jail.
-/
import Oikos.Koinon.Staking

namespace Oikos.Koinon.StakingPool

open List Option

variable {pool pool' : StakingPool} {id : UInt64} {v : Validator} {net : Nat} {op : Op}
  {ops : List Op} {reason : SlashingReason} {block : UInt64}

/-! ### One validator -/

/-- What a validator has staked and not taken out, after one more call. -/
def netAfter (id : UInt64) (pool : StakingPool) (net : Nat) (op : Op) : Nat :=
  match op with
  | .stake id' amount =>
    if id' = id ∧ (pool.step op).1 = .ok () then net + amount.toNat else net
  | .unstake id' amount =>
    if id' = id ∧ (pool.step op).1 = .ok () then net - amount.toNat else net
  | _ => net

/-- A validator's stake and what was slashed of it make up what it put in. -/
def Balanced (id : UInt64) (pool : StakingPool) (net : Nat) : Prop :=
  ∀ v, pool.validators.get id = some v → stakeOf v + v.slashedAmount.toNat = net

def Guarded (id : UInt64) (pool : StakingPool) (op : Op) : Prop :=
  ∀ v, pool.validators.get id = some v → ∃ v', (pool.step op).2.validators.get id = some v' ∧
    v.jailedUntil ≤ v'.jailedUntil ∧
      (0 < v.jailedUntil → v'.rewardDebt.toNat ≤ v.rewardDebt.toNat)

/-- A slashing that neither shortens a jail term nor overflows what was slashed. -/
def Op.Stern (id : UInt64) (pool : StakingPool) : Op → Prop
  | .applySlashing id' reason block =>
    id' = id → ∀ v, pool.validators.get id = some v →
      (reason = .invalidStateProof → v.jailedUntil.toNat ≤ block.toNat + 5000) ∧
        v.slashedAmount.toNat + (calculateSlash v reason).toNat < 2 ^ 128
  | _ => True

/-- The blocks at which a validator is slashed. -/
def slashBlocks (id : UInt64) : List Op → List Nat
  | [] => []
  | .applySlashing id' _ block :: ops =>
    if id' = id then block.toNat :: slashBlocks id ops else slashBlocks id ops
  | _ :: ops => slashBlocks id ops

/-! ### Calls that do not slash the validator -/

theorem get_distribute {reward total distributed : BitVec 128} {ids : List UInt64}
    {validators validators' : Table UInt64 Validator}
    (h : distribute reward total ids distributed validators = some validators')
    (hv : validators.get id = some v) :
    ∃ debt, validators'.get id = some { v with rewardDebt := debt } ∧
      (id ∉ ids → debt = v.rewardDebt) := by
  induction ids generalizing distributed validators v with
  | nil =>
    cases h
    exact ⟨v.rewardDebt, hv, fun _ => rfl⟩
  | cons vid rest ih =>
    rw [distribute] at h
    obtain ⟨share, -, h⟩ := bind_eq_some_iff.mp h
    split at h
    · have hget := Table.get_modify validators vid (credit share) id
      by_cases heq : id = vid
      · subst heq
        rw [if_pos rfl, hv, map_some] at hget
        obtain ⟨debt, hdebt, -⟩ := ih h hget
        exact ⟨debt, hdebt, fun hnot => absurd mem_cons_self hnot⟩
      · rw [if_neg heq, hv] at hget
        obtain ⟨debt, hdebt, hkeep⟩ := ih h hget
        exact ⟨debt, hdebt, fun hnot => hkeep (not_mem_of_not_mem_cons hnot)⟩
    · obtain ⟨debt, hdebt, hkeep⟩ := ih h hv
      exact ⟨debt, hdebt, fun hnot => hkeep (not_mem_of_not_mem_cons hnot)⟩

theorem get_distributeRewards {order : List UInt64} {reward : OikosAmount}
    (h : pool.distributeRewards order reward = some pool')
    (hv : pool.validators.get id = some v) :
    ∃ debt, pool'.validators.get id = some { v with rewardDebt := debt } ∧
      (0 < v.jailedUntil → debt = v.rewardDebt) := by
  have hsame : ∃ debt, pool.validators.get id = some { v with rewardDebt := debt } ∧
      (0 < v.jailedUntil → debt = v.rewardDebt) := ⟨v.rewardDebt, hv, fun _ => rfl⟩
  unfold distributeRewards at h
  split at h
  · cases h
    exact hsame
  · split at h
    · cases h
      exact hsame
    · split at h
      · cases h
        exact hsame
      · obtain ⟨validators, hdist, rfl⟩ := map_eq_some_iff.mp h
        obtain ⟨debt, hdebt, hkeep⟩ := get_distribute hdist hv
        refine ⟨debt, hdebt, fun hjailed => hkeep ?_⟩
        -- a validator in jail is not among those that are paid
        have hne : v.jailedUntil ≠ 0 := by
          intro hzero
          rw [hzero] at hjailed
          exact absurd hjailed (by decide)
        simp [activeIds, hv, Validator.eligible, hne]

theorem get_step (hbooks : pool.Books) (hfits : op.Fits pool)
    (hpanic : (pool.step op).1 ≠ .error .panic) (hv : pool.validators.get id = some v)
    (hbalance : stakeOf v + v.slashedAmount.toNat = net)
    (hother : ∀ reason block, op ≠ .applySlashing id reason block) :
    ∃ staked debt, (pool.step op).2.validators.get id =
        some { v with stakedAmount := staked, rewardDebt := debt } ∧
      staked.toNat + v.slashedAmount.toNat = netAfter id pool net op ∧
      (0 < v.jailedUntil → debt.toNat ≤ v.rewardDebt.toNat) := by
  have hsame (hpool : (pool.step op).2 = pool) (hnet : netAfter id pool net op = net) :
      ∃ staked debt, (pool.step op).2.validators.get id =
          some { v with stakedAmount := staked, rewardDebt := debt } ∧
        staked.toNat + v.slashedAmount.toNat = netAfter id pool net op ∧
        (0 < v.jailedUntil → debt.toNat ≤ v.rewardDebt.toNat) :=
    ⟨v.stakedAmount, v.rewardDebt, by rw [hpool, hv], hbalance.trans hnet.symm,
      fun _ => le_refl _⟩
  cases op with
  | registerValidator did =>
    simp only [step] at hpanic ⊢
    rcases pool.registerValidator_cases did with heq | ⟨next, -, heq⟩
    · rw [heq] at hpanic
      exact absurd rfl hpanic
    · have hne : id ≠ pool.nextValidatorId := by
        rintro rfl
        exact lt_irrefl _ (hbooks.fresh _ (Table.mem_keys_of_get hv))
      refine ⟨v.stakedAmount, v.rewardDebt, ?_, hbalance, fun _ => le_refl _⟩
      rw [heq]
      exact (Table.get_insert ..).trans ((if_neg hne).trans hv)
  | stake id' amount =>
    rcases pool.stake_cases id' amount with ⟨-, e, heq⟩ | ⟨haccepts, w, newStaked, hw, hnew, hcase⟩
    · exact hsame (by rw [step, heq]) (by rw [netAfter, step, heq, if_neg (by simp)])
    · rcases hcase with ⟨total, -, heq⟩ | ⟨hover, -⟩
      · have hget := Table.get_modify pool.validators id'
          (fun v => { v with stakedAmount := newStaked }) id
        rw [netAfter, step, heq]
        by_cases hid : id = id'
        · subst hid
          rw [if_pos rfl, hv] at hget
          obtain rfl := some.inj (hv.symm.trans hw)
          refine ⟨newStaked, v.rewardDebt, hget, ?_, fun _ => le_refl _⟩
          rw [if_pos ⟨rfl, rfl⟩]
          omega
        · rw [if_neg hid, hv] at hget
          refine ⟨v.stakedAmount, v.rewardDebt, hget, ?_, fun _ => le_refl _⟩
          rw [if_neg fun h => hid h.1.symm]
          exact hbalance
      · exact absurd (hfits haccepts) (not_lt.mpr hover)
  | unstake id' amount =>
    rcases pool.unstake_cases id' amount with ⟨e, heq⟩ | ⟨w, newStaked, hw, hnew, hcase⟩
    · exact hsame (by rw [step, heq]) (by rw [netAfter, step, heq, if_neg (by simp)])
    · rcases hcase with ⟨total, -, heq⟩ | ⟨hunder, -⟩
      · have hget := Table.get_modify pool.validators id'
          (fun v => { v with stakedAmount := newStaked }) id
        rw [netAfter, step, heq]
        by_cases hid : id = id'
        · subst hid
          rw [if_pos rfl, hv] at hget
          obtain rfl := some.inj (hv.symm.trans hw)
          refine ⟨newStaked, v.rewardDebt, hget, ?_, fun _ => le_refl _⟩
          rw [if_pos ⟨rfl, rfl⟩]
          omega
        · rw [if_neg hid, hv] at hget
          refine ⟨v.stakedAmount, v.rewardDebt, hget, ?_, fun _ => le_refl _⟩
          rw [if_neg fun h => hid h.1.symm]
          exact hbalance
      · have hsum : pool.totalStaked.toNat = pool.validators.total stakeOf := hbooks.sumsUp
        have := Table.le_total stakeOf hw
        omega
  | distributeRewards order reward =>
    simp only [step] at hpanic ⊢
    cases hdist : pool.distributeRewards order reward with
    | none =>
      rw [hdist] at hpanic
      exact absurd rfl hpanic
    | some pool' =>
      obtain ⟨debt, hget, hkeep⟩ := get_distributeRewards hdist hv
      exact ⟨v.stakedAmount, debt, hget, hbalance, fun hjailed =>
        le_of_eq (congrArg BitVec.toNat (hkeep hjailed))⟩
  | claimRewards id' =>
    rcases pool.claimRewards_cases id' with ⟨e, heq⟩ | ⟨rewards, heq⟩
    · exact hsame (by rw [step, heq]) rfl
    · have hget := Table.get_modify pool.validators id' (fun v => { v with rewardDebt := 0 }) id
      rw [step, heq]
      by_cases hid : id = id'
      · subst hid
        rw [if_pos rfl, hv] at hget
        exact ⟨v.stakedAmount, 0, hget, hbalance, fun _ => Nat.zero_le _⟩
      · rw [if_neg hid, hv] at hget
        exact ⟨v.stakedAmount, v.rewardDebt, hget, hbalance, fun _ => le_refl _⟩
  | applySlashing id' reason block =>
    have hne : id ≠ id' := by
      rintro rfl
      exact hother reason block rfl
    rcases pool.applySlashing_cases id' reason block with
      heq | ⟨e, heq⟩ | ⟨w, until_, result, -, heq⟩
    · simp only [step, heq] at hpanic
      exact absurd rfl hpanic
    · exact hsame (by rw [step, heq]) rfl
    · refine ⟨v.stakedAmount, v.rewardDebt, ?_, hbalance, fun _ => le_refl _⟩
      rw [step, heq]
      exact (Table.get_modify ..).trans ((if_neg hne).trans hv)

/-! ### Slashing the validator -/

theorem get_slash (reason : SlashingReason) (hblock : block.toNat < 2 ^ 64 - 1 - 10000)
    (hv : pool.validators.get id = some v) :
    ∃ until_ : UInt64, (pool.step (.applySlashing id reason block)).2.validators.get id =
        some (slashed (calculateSlash v reason) reason.jails until_ v) ∧
      (reason.jails = true → until_.toNat = block.toNat + (jailDuration reason).toNat) := by
  have hduration : (jailDuration reason).toNat ≤ 10000 := by
    cases reason with
    | doubleSigning => decide
    | downtime durationBlocks => exact Nat.zero_le _
    | invalidStateProof => decide
  have hfits : ¬ (reason.jails = true ∧ 2 ^ 64 ≤ block.toNat + (jailDuration reason).toNat) := by
    rintro ⟨-, hover⟩
    omega
  simp only [step, applySlashing, hv, if_neg hfits]
  refine ⟨_, (Table.get_modify ..).trans (by rw [if_pos rfl, hv]; rfl), fun hjails => ?_⟩
  rw [if_pos hjails, UInt64.toNat_add, Nat.mod_eq_of_lt (by omega)]

theorem balance_slashed_iff (jailed : Bool) (until_ : UInt64) :
    stakeOf (slashed (calculateSlash v reason) jailed until_ v) +
        (slashed (calculateSlash v reason) jailed until_ v).slashedAmount.toNat =
      stakeOf v + v.slashedAmount.toNat ↔
      v.slashedAmount.toNat + (calculateSlash v reason).toNat < 2 ^ 128 := by
  have hle := calculateSlash_le v reason
  have hstake := toNat_saturatingSub v.stakedAmount.units (calculateSlash v reason).units
  have hslashed := toNat_saturatingAdd v.slashedAmount.units (calculateSlash v reason).units
  have hlt := (calculateSlash v reason).toNat_lt
  simp only [slashed, stakeOf, OikosAmount.toNat] at *
  omega

theorem jailed_slashed_iff {until_ : UInt64}
    (huntil : reason.jails = true → until_.toNat = block.toNat + (jailDuration reason).toNat)
    (hearlier : v.jailedUntil.toNat ≤ block.toNat + 10000) :
    v.jailedUntil ≤ (slashed (calculateSlash v reason) reason.jails until_ v).jailedUntil ↔
      (reason = .invalidStateProof → v.jailedUntil.toNat ≤ block.toNat + 5000) := by
  rw [UInt64.le_iff_toNat_le]
  cases reason with
  | doubleSigning =>
    have huntil : until_.toNat = block.toNat + 10000 := huntil rfl
    simp only [slashed, SlashingReason.jails, if_true, huntil, reduceCtorEq,
      false_implies, iff_true]
    exact hearlier
  | downtime durationBlocks => simp [slashed, SlashingReason.jails]
  | invalidStateProof =>
    have huntil : until_.toNat = block.toNat + 5000 := huntil rfl
    simp only [slashed, SlashingReason.jails, if_true, huntil, forall_const]

/-! ### Runs -/

/-- Through a run of calls, up to a panic, the books of the validator balance and every
call guards its jail term. -/
def KeepsJailed (id : UInt64) : StakingPool → Nat → List Op → Prop
  | pool, net, [] => Balanced id pool net
  | pool, net, op :: ops =>
    Balanced id pool net ∧
      ((pool.step op).1 ≠ .error .panic →
        Guarded id pool op ∧ KeepsJailed id (pool.step op).2 (netAfter id pool net op) ops)

def AllStern (id : UInt64) : StakingPool → List Op → Prop
  | _, [] => True
  | pool, op :: ops =>
    (pool.step op).1 ≠ .error .panic → op.Stern id pool ∧ AllStern id (pool.step op).2 ops

structure OnRecord (id : UInt64) (pool : StakingPool) (net : Nat) (blocks : List Nat) : Prop where
  books : pool.Books
  balanced : Balanced id pool net
  unknown : pool.validators.get id = none → net = 0
  term : ∀ v, pool.validators.get id = some v → ∀ b ∈ blocks, v.jailedUntil.toNat ≤ b + 10000

theorem onRecord_new (id : UInt64) (blocks : List Nat) : OnRecord id new 0 blocks where
  books := books_new
  balanced v hv := by cases hv
  unknown _ := rfl
  term v hv := by cases hv

theorem get_step_unknown (net : Nat) (hpanic : (pool.step op).1 ≠ .error .panic)
    (hv : pool.validators.get id = none) :
    netAfter id pool net op = net ∧ ∀ v, (pool.step op).2.validators.get id = some v →
      stakeOf v = 0 ∧ v.slashedAmount.toNat = 0 ∧ v.jailedUntil.toNat = 0 := by
  have hsame {pool' : StakingPool} (hpool : pool' = pool) {v : Validator}
      (hget : pool'.validators.get id = some v) :
      stakeOf v = 0 ∧ v.slashedAmount.toNat = 0 ∧ v.jailedUntil.toNat = 0 := by
    rw [hpool, hv] at hget
    cases hget
  have hmodify {k : UInt64} {f : Validator → Validator} {v : Validator}
      (hget : (pool.validators.modify k f).get id = some v) :
      stakeOf v = 0 ∧ v.slashedAmount.toNat = 0 ∧ v.jailedUntil.toNat = 0 := by
    rw [Table.get_modify] at hget
    split at hget
    · next heq =>
      rw [← heq, hv] at hget
      cases hget
    · rw [hv] at hget
      cases hget
  cases op with
  | registerValidator did =>
    refine ⟨rfl, fun v hget => ?_⟩
    simp only [step] at hpanic hget
    rcases pool.registerValidator_cases did with heq | ⟨next, -, heq⟩
    · rw [heq] at hpanic
      exact absurd rfl hpanic
    · rw [heq] at hget
      have hget := (Table.get_insert ..).symm.trans hget
      split at hget
      · cases hget
        exact ⟨rfl, rfl, rfl⟩
      · rw [hv] at hget
        cases hget
  | stake id' amount =>
    rcases pool.stake_cases id' amount with ⟨-, e, heq⟩ | ⟨-, w, newStaked, hw, -, hcase⟩
    · rw [netAfter, step, heq, if_neg (by simp)]
      exact ⟨rfl, fun v hget => hsame rfl hget⟩
    · have hne : id' ≠ id := by
        rintro rfl
        rw [hv] at hw
        cases hw
      rw [netAfter, if_neg fun h => hne h.1, step]
      rcases hcase with ⟨total, -, heq⟩ | ⟨-, e, heq⟩
      · rw [heq]
        exact ⟨rfl, fun v hget => hmodify hget⟩
      · rw [heq]
        exact ⟨rfl, fun v hget => hmodify hget⟩
  | unstake id' amount =>
    rcases pool.unstake_cases id' amount with ⟨e, heq⟩ | ⟨w, newStaked, hw, -, hcase⟩
    · rw [netAfter, step, heq, if_neg (by simp)]
      exact ⟨rfl, fun v hget => hsame rfl hget⟩
    · have hne : id' ≠ id := by
        rintro rfl
        rw [hv] at hw
        cases hw
      rw [netAfter, if_neg fun h => hne h.1, step]
      rcases hcase with ⟨total, -, heq⟩ | ⟨-, e, heq⟩
      · rw [heq]
        exact ⟨rfl, fun v hget => hmodify hget⟩
      · rw [heq]
        exact ⟨rfl, fun v hget => hmodify hget⟩
  | distributeRewards order reward =>
    refine ⟨rfl, fun v hget => ?_⟩
    simp only [step] at hpanic hget
    cases hdist : pool.distributeRewards order reward with
    | none =>
      rw [hdist] at hpanic
      exact absurd rfl hpanic
    | some pool' =>
      obtain ⟨validators, rfl, hkeys, -⟩ := distributeRewards_cases hdist
      rw [hdist] at hget
      have hmem := Table.mem_keys_of_get hget
      dsimp only at hmem
      rw [hkeys] at hmem
      exact absurd hmem (Table.get_eq_none.mp hv)
  | claimRewards id' =>
    refine ⟨rfl, fun v hget => ?_⟩
    rcases pool.claimRewards_cases id' with ⟨e, heq⟩ | ⟨rewards, heq⟩
    · rw [step, heq] at hget
      exact hsame rfl hget
    · rw [step, heq] at hget
      exact hmodify hget
  | applySlashing id' reason block =>
    refine ⟨rfl, fun v hget => ?_⟩
    rcases pool.applySlashing_cases id' reason block with
      heq | ⟨e, heq⟩ | ⟨w, until_, result, -, heq⟩
    · simp only [step, heq] at hpanic
      exact absurd rfl hpanic
    · rw [step, heq] at hget
      exact hsame rfl hget
    · rw [step, heq] at hget
      exact hmodify hget

theorem stern_of_other (hother : ∀ reason block, op ≠ .applySlashing id reason block) :
    op.Stern id pool := by
  cases op with
  | applySlashing id' reason block =>
    rintro rfl
    exact absurd rfl (hother reason block)
  | _ => trivial

theorem stern_of_unknown (hv : pool.validators.get id = none) : op.Stern id pool := by
  cases op with
  | applySlashing id' reason block =>
    intro _ v hget
    rw [hv] at hget
    cases hget
  | _ => trivial

theorem OnRecord.stern_iff (h : OnRecord id pool net (slashBlocks id (op :: ops)))
    (hfits : op.Fits pool) (hpanic : (pool.step op).1 ≠ .error .panic)
    (hbound : ∀ b ∈ slashBlocks id (op :: ops), b < 2 ^ 64 - 1 - 10000) :
    Guarded id pool op ∧ Balanced id (pool.step op).2 (netAfter id pool net op) ↔
      op.Stern id pool := by
  cases hv : pool.validators.get id with
  | none =>
    obtain ⟨hnet, hfresh⟩ := get_step_unknown net hpanic hv
    refine iff_of_true ⟨fun v hget => ?_, fun v hget => ?_⟩ (stern_of_unknown hv)
    · rw [hv] at hget
      cases hget
    · obtain ⟨hstake, hslashed, -⟩ := hfresh v hget
      rw [hnet, h.unknown hv, hstake, hslashed]
  | some v =>
    have honly {w : Validator} (hw : pool.validators.get id = some w) : w = v :=
      some.inj (hw.symm.trans hv)
    by_cases hslash : ∃ reason block, op = .applySlashing id reason block
    · obtain ⟨reason, block, rfl⟩ := hslash
      have hmem : block.toNat ∈ slashBlocks id (.applySlashing id reason block :: ops) := by
        rw [slashBlocks, if_pos rfl]
        exact mem_cons_self
      obtain ⟨until_, hget, huntil⟩ := get_slash reason (hbound _ hmem) hv
      have hterm := jailed_slashed_iff huntil (h.term v hv _ hmem)
      have hbooks : Balanced id (pool.step (.applySlashing id reason block)).2 net ↔
          v.slashedAmount.toNat + (calculateSlash v reason).toNat < 2 ^ 128 := by
        rw [← balance_slashed_iff reason.jails until_, h.balanced v hv]
        constructor
        · exact fun hall => hall _ hget
        · intro heq w hw
          rw [hget] at hw
          cases hw
          exact heq
      have hguard : Guarded id pool (.applySlashing id reason block) ↔
          (reason = .invalidStateProof → v.jailedUntil.toNat ≤ block.toNat + 5000) := by
        rw [← hterm]
        constructor
        · intro hall
          obtain ⟨w, hw, hle, -⟩ := hall v hv
          rw [hget] at hw
          cases hw
          exact hle
        · intro hle w hw
          obtain rfl := honly hw
          exact ⟨_, hget, hle, fun _ => le_refl _⟩
      have hnet : netAfter id pool net (.applySlashing id reason block) = net := rfl
      rw [hnet, hbooks, hguard]
      constructor
      · intro hboth _ w hw
        obtain rfl := honly hw
        exact hboth
      · exact fun hstern => hstern rfl v hv
    · have hother : ∀ reason block, op ≠ .applySlashing id reason block :=
        fun reason block heq => hslash ⟨reason, block, heq⟩
      obtain ⟨staked, debt, hget, hnet, hdebt⟩ :=
        get_step h.books hfits hpanic hv (h.balanced v hv) hother
      refine iff_of_true ⟨fun w hw => ?_, fun w hw => ?_⟩ (stern_of_other hother)
      · obtain rfl := honly hw
        exact ⟨_, hget, UInt64.le_refl _, hdebt⟩
      · rw [hget] at hw
        cases hw
        exact hnet

theorem OnRecord.step (h : OnRecord id pool net (slashBlocks id (op :: ops)))
    (hfits : op.Fits pool) (hpanic : (pool.step op).1 ≠ .error .panic)
    (hsorted : (slashBlocks id (op :: ops)).Pairwise (· ≤ ·))
    (hbound : ∀ b ∈ slashBlocks id (op :: ops), b < 2 ^ 64 - 1 - 10000)
    (hstern : op.Stern id pool) :
    OnRecord id (pool.step op).2 (netAfter id pool net op) (slashBlocks id ops) := by
  have hbalanced := ((h.stern_iff hfits hpanic hbound).mpr hstern).2
  have hbooks := (h.books.step hfits hpanic).1
  have hlater : ∀ b ∈ slashBlocks id ops, b ∈ slashBlocks id (op :: ops) := by
    intro b hb
    cases op with
    | applySlashing id' reason block =>
      rw [slashBlocks]
      split
      · exact mem_cons_of_mem _ hb
      · exact hb
    | _ => exact hb
  cases hv : pool.validators.get id with
  | none =>
    obtain ⟨hnet, hfresh⟩ := get_step_unknown net hpanic hv
    refine ⟨hbooks, hbalanced, fun _ => hnet.trans (h.unknown hv), fun v hget b _ => ?_⟩
    rw [(hfresh v hget).2.2]
    exact Nat.zero_le _
  | some v =>
    by_cases hslash : ∃ reason block, op = .applySlashing id reason block
    · obtain ⟨reason, block, rfl⟩ := hslash
      rw [slashBlocks, if_pos rfl] at hsorted hlater
      have hmem : block.toNat ∈ slashBlocks id (.applySlashing id reason block :: ops) := by
        rw [slashBlocks, if_pos rfl]
        exact mem_cons_self
      obtain ⟨until_, hget, huntil⟩ := get_slash reason (hbound _ hmem) hv
      refine ⟨hbooks, hbalanced, fun hnone => ?_, fun w hw b hb => ?_⟩
      · rw [hget] at hnone
        cases hnone
      · -- the new term starts at a block no later than those to come
        rw [hget] at hw
        cases hw
        have hle := (pairwise_cons.mp hsorted).1 b hb
        have hold := h.term v hv _ hmem
        cases reason with
        | doubleSigning =>
          have huntil : until_.toNat = block.toNat + 10000 := huntil rfl
          simp only [slashed, SlashingReason.jails, if_true]
          omega
        | downtime durationBlocks =>
          simp only [slashed, SlashingReason.jails, Bool.false_eq_true, if_false]
          omega
        | invalidStateProof =>
          have huntil : until_.toNat = block.toNat + 5000 := huntil rfl
          simp only [slashed, SlashingReason.jails, if_true]
          omega
    · have hother : ∀ reason block, op ≠ .applySlashing id reason block :=
        fun reason block heq => hslash ⟨reason, block, heq⟩
      obtain ⟨staked, debt, hget, -, -⟩ :=
        get_step h.books hfits hpanic hv (h.balanced v hv) hother
      refine ⟨hbooks, hbalanced, fun hnone => ?_, fun w hw b hb => ?_⟩
      · rw [hget] at hnone
        cases hnone
      · rw [hget] at hw
        cases hw
        exact h.term v hv b (hlater b hb)

theorem OnRecord.keepsJailed_iff (h : OnRecord id pool net (slashBlocks id ops))
    (hfit : pool.AllFit ops) (hsorted : (slashBlocks id ops).Pairwise (· ≤ ·))
    (hbound : ∀ b ∈ slashBlocks id ops, b < 2 ^ 64 - 1 - 10000) :
    KeepsJailed id pool net ops ↔ AllStern id pool ops := by
  induction ops generalizing pool net with
  | nil => exact iff_of_true h.balanced trivial
  | cons op ops ih =>
    rw [KeepsJailed, AllStern]
    simp only [h.balanced, true_and]
    refine forall_congr' fun hpanic => ?_
    have hiff := h.stern_iff hfit.1 hpanic hbound
    have hsorted' : (slashBlocks id ops).Pairwise (· ≤ ·) := by
      cases op with
      | applySlashing id' reason block =>
        rw [slashBlocks] at hsorted
        split at hsorted
        · exact (pairwise_cons.mp hsorted).2
        · exact hsorted
      | _ => exact hsorted
    have hbound' : ∀ b ∈ slashBlocks id ops, b < 2 ^ 64 - 1 - 10000 := by
      cases op with
      | applySlashing id' reason block =>
        rw [slashBlocks] at hbound
        split at hbound
        · exact (forall_mem_cons.mp hbound).2
        · exact hbound
      | _ => exact hbound
    have hnext (hstern : op.Stern id pool) :=
      ih (h.step hfit.1 hpanic hsorted hbound hstern) (hfit.2 hpanic) hsorted' hbound'
    constructor
    · rintro ⟨hguarded, hrest⟩
      have hbalanced : Balanced id (pool.step op).2 (netAfter id pool net op) := by
        cases ops with
        | nil => exact hrest
        | cons => exact hrest.1
      have hstern := hiff.mp ⟨hguarded, hbalanced⟩
      exact ⟨hstern, (hnext hstern).mp hrest⟩
    · rintro ⟨hstern, hrest⟩
      exact ⟨(hiff.mpr hstern).1, (hnext hstern).mpr hrest⟩

/-- In every run of calls from the empty pool whose stakes fit its total, and whose
slashes of a validator come at blocks that do not go back, the jail term is never cut
short, its stake and what was slashed stay its net stake, and no reward reaches it in
jail, exactly when every slash of it is stern. -/
theorem keepsJailed_iff_allStern (id : UInt64) (ops : List Op) (hfit : new.AllFit ops)
    (hsorted : (slashBlocks id ops).Pairwise (· ≤ ·))
    (hbound : ∀ b ∈ slashBlocks id ops, b < 2 ^ 64 - 1 - 10000) :
    KeepsJailed id new 0 ops ↔ AllStern id new ops :=
  (onRecord_new id _).keepsJailed_iff hfit hsorted hbound

def signedTwice : List Op :=
  [.registerValidator "a", .stake 1 ⟨minimumStake⟩, .applySlashing 1 .doubleSigning 100]

theorem keepsJailed_signedTwice : KeepsJailed 1 new 0 signedTwice := by
  have hfit : new.AllFit signedTwice :=
    ⟨trivial, fun _ => ⟨fun _ => by decide, fun _ => ⟨trivial, fun _ => trivial⟩⟩⟩
  have hstern : AllStern 1 new signedTwice := by
    refine fun _ => ⟨trivial, fun _ => ⟨trivial, fun _ => ⟨fun _ v hv => ?_, trivial⟩⟩⟩
    cases hv
    decide
  exact (keepsJailed_iff_allStern 1 signedTwice hfit (by decide) (by decide)).mpr hstern

def termAfter (ops : List Op) : Option UInt64 :=
  ((new.run ops).bind fun pool => pool.validators.get 1).map Validator.jailedUntil

/-- An invalid proof one block later lets the validator out 5000 blocks earlier. -/
theorem second_offence_shortens :
    termAfter signedTwice = some 10100 ∧
      termAfter (signedTwice ++ [.applySlashing 1 .invalidStateProof 101]) = some 5101 := by
  decide

end Oikos.Koinon.StakingPool
