/-
How a reward is shared among the validators of the staking pool: the rounded
shares of all but the last one have to leave it a remainder.
-/
import Oikos.Koinon.Staking
import Mathlib.Algebra.BigOperators.Ring.List

namespace Oikos.Koinon

open List

/-! ### Shares -/

/-- The share of a stake, rounded down, in units or in whole OIKOS depending on
whether the product fits in a `u128`. -/
def share (stake reward total : Nat) : Nat :=
  if stake * reward < 2 ^ 128 then stake * reward / total
  else stake / 10 ^ 18 * (reward / 10 ^ 18) / (total / 10 ^ 18) * 10 ^ 18

theorem toNat_scale : tokenScale.toNat = 10 ^ 18 := by
  decide

/-- The scaled amounts can be multiplied, for a reward within the supply. -/
theorem scaled_mul_lt {a b : BitVec 128} (hb : b.toNat ≤ 10 ^ 27) :
    a.toNat / 10 ^ 18 * (b.toNat / 10 ^ 18) < 2 ^ 128 := by
  have ha := a.isLt
  have hscaled : b.toNat / 10 ^ 18 ≤ 10 ^ 9 := by omega
  calc a.toNat / 10 ^ 18 * (b.toNat / 10 ^ 18) ≤ a.toNat / 10 ^ 18 * 10 ^ 9 :=
        Nat.mul_le_mul_left _ hscaled
    _ < 2 ^ 128 := by omega

theorem proRataShare_spec {a b c : BitVec 128} (hb : b.toNat ≤ 10 ^ 27) (hc : c ≠ 0) :
    (∃ s, proRataShare a b c = some s ∧ s.toNat = share a.toNat b.toNat c.toNat) ∨
      proRataShare a b c = none ∧ 2 ^ 128 ≤ share a.toNat b.toNat c.toNat := by
  unfold proRataShare share
  rw [if_neg hc]
  cases hmul : checkedMul a b with
  | some product =>
    have hproduct := checkedMul_eq_some.mp hmul
    have hlt : a.toNat * b.toNat < 2 ^ 128 := hproduct ▸ product.isLt
    rw [if_pos hlt]
    exact Or.inl ⟨_, rfl, by rw [BitVec.toNat_udiv, hproduct]⟩
  | none =>
    rw [if_neg (not_lt.mpr (checkedMul_eq_none.mp hmul))]
    dsimp only
    split
    · next hzero =>
      have hzero' : c.toNat / 10 ^ 18 = 0 := by
        rw [← toNat_scale, ← BitVec.toNat_udiv, hzero]
        rfl
      exact Or.inl ⟨0, rfl, by rw [hzero', Nat.div_zero, zero_mul]; rfl⟩
    · cases hscaled : checkedMul (a / tokenScale) (b / tokenScale) with
      | none =>
        have hover := checkedMul_eq_none.mp hscaled
        rw [BitVec.toNat_udiv, BitVec.toNat_udiv, toNat_scale] at hover
        exact absurd (scaled_mul_lt hb) (not_lt.mpr hover)
      | some product =>
        have hproduct := checkedMul_eq_some.mp hscaled
        rw [BitVec.toNat_udiv, BitVec.toNat_udiv, toNat_scale] at hproduct
        have hquot : (product / (c / tokenScale)).toNat =
            a.toNat / 10 ^ 18 * (b.toNat / 10 ^ 18) / (c.toNat / 10 ^ 18) := by
          rw [BitVec.toNat_udiv, hproduct, BitVec.toNat_udiv, toNat_scale]
        rw [Option.bind_some, ← hquot]
        cases hlast : checkedMul (product / (c / tokenScale)) tokenScale with
        | none =>
          have hover := checkedMul_eq_none.mp hlast
          rw [toNat_scale] at hover
          exact Or.inr ⟨rfl, hover⟩
        | some s =>
          have hs := checkedMul_eq_some.mp hlast
          rw [toNat_scale] at hs
          exact Or.inl ⟨s, rfl, hs⟩

theorem sum_div_le (b c : Nat) (xs : List Nat) :
    (xs.map fun x => x * b / c).sum ≤ xs.sum * b / c := by
  induction xs with
  | nil => simp
  | cons x xs ih =>
    rw [map_cons, sum_cons, sum_cons, Nat.add_mul]
    exact (Nat.add_le_add_left ih _).trans Nat.div_add_div_le_add_div

theorem sum_div_const_le (c : Nat) (xs : List Nat) : (xs.map (· / c)).sum ≤ xs.sum / c := by
  simpa using sum_div_le 1 c xs

theorem sum_quotients_le {reward total : Nat} {stakes : List Nat} (hsum : stakes.sum ≤ total) :
    (stakes.map fun x => x * reward / total).sum ≤ reward :=
  calc (stakes.map fun x => x * reward / total).sum
      ≤ stakes.sum * reward / total := sum_div_le reward total stakes
    _ ≤ reward := Nat.div_le_of_le_mul (Nat.mul_le_mul_right _ hsum)

theorem sum_share_le {reward total : Nat} {stakes : List Nat} (hsum : stakes.sum ≤ total)
    (hone : (∀ x ∈ stakes, x * reward < 2 ^ 128) ∨ ∀ x ∈ stakes, 2 ^ 128 ≤ x * reward) :
    (stakes.map fun x => share x reward total).sum ≤ reward := by
  rcases hone with hfit | hover
  · have heq : (stakes.map fun x => share x reward total) =
        stakes.map fun x => x * reward / total :=
      map_congr_left fun x hx => if_pos (hfit x hx)
    rw [heq]
    exact sum_quotients_le hsum
  · have heq : (stakes.map fun x => share x reward total) =
        ((stakes.map (· / 10 ^ 18)).map fun x =>
          x * (reward / 10 ^ 18) / (total / 10 ^ 18)).map (· * 10 ^ 18) := by
      rw [map_map, map_map]
      exact map_congr_left fun x hx => if_neg (not_lt.mpr (hover x hx))
    have hscaled : (stakes.map (· / 10 ^ 18)).sum ≤ total / 10 ^ 18 :=
      (sum_div_const_le _ stakes).trans (Nat.div_le_div_right hsum)
    rw [heq, sum_map_mul_right, map_id']
    exact (Nat.mul_le_mul_right _ (sum_quotients_le hscaled)).trans (Nat.div_mul_le_self _ _)

namespace StakingPool

variable {pool pool' : StakingPool} {validators validators' : Table UInt64 Validator}
  {reward total distributed : BitVec 128} {ids order : List UInt64} {id : UInt64} {v : Validator}

/-- The stake of an identifier; none counts as zero. -/
def stakeAt (validators : Table UInt64 Validator) (id : UInt64) : Nat :=
  ((validators.get id).map stakeOf).getD 0

def debtOf (v : Validator) : Nat :=
  v.rewardDebt.toNat

/-- Validators that are owed nothing yet. -/
def Unpaid (validators : Table UInt64 Validator) (ids : List UInt64) : Prop :=
  ∀ id ∈ ids, ∃ v, validators.get id = some v ∧ v.rewardDebt = 0

/-! ### The loop -/

variable {s : BitVec 128}

theorem toNat_credit (h : v.rewardDebt = 0) : debtOf (credit s v) = s.toNat := by
  have hs := s.isLt
  have hzero : v.rewardDebt.toNat = 0 := by
    rw [h]
    rfl
  rw [debtOf, credit, toNat_saturatingAdd, hzero]
  omega

theorem total_credit (hv : validators.get id = some v) (h : v.rewardDebt = 0) :
    (validators.modify id (credit s)).total debtOf = validators.total debtOf + s.toNat := by
  have hsum := Table.total_modify (f := credit s) debtOf hv
  have hzero : debtOf v = 0 := by
    rw [debtOf, h]
    rfl
  rw [toNat_credit h, hzero] at hsum
  exact hsum

theorem stakeAt_credit {id' : UInt64} :
    stakeAt (validators.modify id (credit s)) id' = stakeAt validators id' := by
  rw [stakeAt, stakeAt, Table.get_modify]
  split
  · next heq =>
    rw [heq]
    cases validators.get id <;> rfl
  · rfl

theorem Unpaid.credit (h : Unpaid validators ids) (hid : id ∉ ids) :
    Unpaid (validators.modify id (credit s)) ids := by
  intro id' hid'
  obtain ⟨v, hv, hzero⟩ := h id' hid'
  refine ⟨v, ?_, hzero⟩
  rw [Table.get_modify, if_neg, hv]
  rintro rfl
  exact hid hid'

def sharesBefore (validators : Table UInt64 Validator) (reward total : BitVec 128)
    (ids : List UInt64) : Nat :=
  (ids.dropLast.map fun id => share (stakeAt validators id) reward.toNat total.toNat).sum

theorem distribute_pays {paid : Nat} (hpaid : distributed.toNat = min paid (2 ^ 128 - 1))
    (hreward : reward.toNat ≤ 10 ^ 27) (htotal : total ≠ 0) (hnodup : ids.Nodup) (hne : ids ≠ [])
    (hunpaid : Unpaid validators ids) :
    (∃ validators', distribute reward total ids distributed validators = some validators' ∧
      validators'.total debtOf = validators.total debtOf +
        sharesBefore validators reward total ids +
        (reward.toNat - (paid + sharesBefore validators reward total ids)) ∧
      ∀ id, id ∉ ids → validators'.get id = validators.get id) ∨
    distribute reward total ids distributed validators = none ∧
      2 ^ 128 ≤ sharesBefore validators reward total ids := by
  induction ids generalizing distributed validators paid with
  | nil => exact absurd rfl hne
  | cons vid rest ih =>
    obtain ⟨hnot, hrest⟩ := nodup_cons.mp hnodup
    obtain ⟨v, hv, hzero⟩ := hunpaid vid mem_cons_self
    have hunpaid' : Unpaid validators rest :=
      fun id hid => hunpaid id (mem_cons_of_mem vid hid)
    have hlt := reward.isLt
    cases rest with
    | nil =>
      -- the last validator takes the remainder
      left
      have hremainder : (saturatingSub reward distributed).toNat = reward.toNat - paid := by
        rw [toNat_saturatingSub, hpaid]
        omega
      rw [distribute, shareOf, isEmpty_nil, if_pos rfl, Option.bind_some]
      split
      · next hpos =>
        refine ⟨_, rfl, ?_, ?_⟩
        · rw [total_credit hv hzero, hremainder]
          simp [sharesBefore]
        · intro id hid
          rw [Table.get_modify, if_neg (by simpa using hid)]
      · next hnone =>
        refine ⟨_, rfl, ?_, fun _ _ => rfl⟩
        rw [BitVec.lt_def, hremainder] at hnone
        have hleft : reward.toNat - paid = 0 := Nat.eq_zero_of_not_pos hnone
        simp [sharesBefore, hleft]
    | cons next rest =>
      have hshares : ∀ validators', (∀ id, stakeAt validators' id = stakeAt validators id) →
          sharesBefore validators reward total (vid :: next :: rest) =
            share (stakeOf v) reward.toNat total.toNat +
              sharesBefore validators' reward total (next :: rest) := by
        intro validators' hsame
        have hstake : stakeAt validators vid = stakeOf v := by
          rw [stakeAt, hv]
          rfl
        simp only [sharesBefore, dropLast_cons_cons, map_cons, sum_cons, hsame,
          hstake]
      rcases proRataShare_spec (a := v.stakedAmount.units) hreward htotal with
        ⟨s, hs, hsNat⟩ | ⟨hpanic, hover⟩
      · have hsNat' : s.toNat = share (stakeOf v) reward.toNat total.toNat := hsNat
        have hslt := s.isLt
        have hbind : (validators.get vid).bind
            (fun v => proRataShare v.stakedAmount.units reward total) = some s := by
          rw [hv, Option.bind_some, hs]
        rw [distribute, shareOf, isEmpty_cons, if_neg (by simp), hbind, Option.bind_some]
        split
        · have hsum := hshares (validators.modify vid (credit s)) fun _ => stakeAt_credit
          have hpaid' : (saturatingAdd distributed s).toNat =
              min (paid + s.toNat) (2 ^ 128 - 1) := by
            rw [toNat_saturatingAdd, hpaid]
            omega
          rcases ih hpaid' hrest (by simp) (hunpaid'.credit (s := s) hnot) with
            ⟨validators', hdist, hdebts, hothers⟩ | ⟨hnone, hbig⟩
          · refine Or.inl ⟨validators', hdist, ?_, ?_⟩
            · rw [hdebts, total_credit hv hzero, hsum, ← hsNat']
              omega
            · intro id hid
              obtain ⟨hne', hid'⟩ := not_or.mp (mt mem_cons.mpr hid)
              rw [hothers id hid', Table.get_modify, if_neg hne']
          · refine Or.inr ⟨hnone, ?_⟩
            rw [hsum]
            omega
        · next hnone =>
          have hsum := hshares validators fun _ => rfl
          have hzeroShare : s.toNat = 0 := by simpa [BitVec.lt_def] using hnone
          rcases ih hpaid hrest (by simp) hunpaid' with
            ⟨validators', hdist, hdebts, hothers⟩ | ⟨hstop, hbig⟩
          · refine Or.inl ⟨validators', hdist, ?_, ?_⟩
            · rw [hdebts, hsum, ← hsNat', hzeroShare]
              omega
            · intro id hid
              exact hothers id (not_or.mp (mt mem_cons.mpr hid)).2
          · refine Or.inr ⟨hstop, ?_⟩
            rw [hsum]
            omega
      · have hbind : (validators.get vid).bind
            (fun v => proRataShare v.stakedAmount.units reward total) = none := by
          rw [hv, Option.bind_some, hpanic]
        refine Or.inr ⟨?_, ?_⟩
        · rw [distribute, shareOf, isEmpty_cons, if_neg (by simp), hbind, Option.bind_none]
        · rw [hshares validators fun _ => rfl]
          exact Nat.le_add_right_of_le hover

/-! ### The call -/

/-- The call pays out the reward exactly, and nothing to those that are inactive
or jailed. -/
def DistributesExactly (pool : StakingPool) (order : List UInt64) (reward : OikosAmount) : Prop :=
  ∃ pool', pool.distributeRewards order reward = some pool' ∧
    pool'.validators.total debtOf = pool.validators.total debtOf + reward.toNat ∧
    ∀ id v, pool.validators.get id = some v → v.eligible = false →
      pool'.validators.get id = some v

def NoDebt (pool : StakingPool) : Prop :=
  ∀ id v, pool.validators.get id = some v → v.rewardDebt = 0

def roundedShares (pool : StakingPool) (order : List UInt64) (reward : OikosAmount) : Nat :=
  sharesBefore pool.validators reward.units pool.totalStaked.units (pool.activeIds order)

theorem mem_activeIds :
    id ∈ pool.activeIds order ↔
      id ∈ order ∧ ∃ v, pool.validators.get id = some v ∧ v.eligible = true := by
  rw [activeIds, mem_filter, Option.any_eq_true]

theorem sharesBefore_zero (h : reward = 0) : sharesBefore validators reward total ids = 0 := by
  rw [sharesBefore, h, sum_eq_zero]
  intro x hx
  obtain ⟨id, -, rfl⟩ := mem_map.mp hx
  have hzero : (0 : BitVec 128).toNat = 0 := rfl
  rw [share, hzero, mul_zero, if_pos (by decide), Nat.zero_div]

theorem NoDebt.distributes_iff (h : pool.NoDebt) {reward : OikosAmount}
    (horder : order.Perm pool.validators.keys) (hreward : reward.toNat ≤ 10 ^ 27)
    (htotal : 0 < pool.totalStaked.toNat)
    (helig : ∃ id v, pool.validators.get id = some v ∧ v.eligible = true) :
    pool.DistributesExactly order reward ↔ pool.roundedShares order reward ≤ reward.toNat := by
  unfold DistributesExactly distributeRewards roundedShares
  have htotal' : pool.totalStaked.units ≠ 0 := by
    intro hzero
    rw [OikosAmount.toNat, hzero] at htotal
    exact absurd htotal (by decide)
  have hne : pool.activeIds order ≠ [] := by
    obtain ⟨id, v, hv, hv'⟩ := helig
    intro hnil
    have hmem : id ∈ pool.activeIds order :=
      mem_activeIds.mpr ⟨horder.mem_iff.mpr (Table.mem_keys_of_get hv), v, hv, hv'⟩
    rw [hnil] at hmem
    cases hmem
  have hnodup : (pool.activeIds order).Nodup :=
    (horder.nodup_iff.mpr pool.validators.nodup).filter _
  have hunpaid : Unpaid pool.validators (pool.activeIds order) := by
    intro id hid
    obtain ⟨-, v, hv, -⟩ := mem_activeIds.mp hid
    exact ⟨v, hv, h id v hv⟩
  by_cases hzero : reward.units = 0
  · rw [if_pos hzero, sharesBefore_zero hzero]
    have hnat : reward.toNat = 0 := by
      rw [OikosAmount.toNat, hzero]
      rfl
    exact ⟨fun _ => Nat.zero_le _, fun _ => ⟨pool, rfl, by rw [hnat]; rfl, fun _ _ hv _ => hv⟩⟩
  · rw [if_neg hzero, if_neg htotal', if_neg (by simpa using hne)]
    have hstart : (0 : BitVec 128).toNat = min 0 (2 ^ 128 - 1) := rfl
    have hpays := distribute_pays hstart
      (show reward.units.toNat ≤ 10 ^ 27 from hreward) htotal' hnodup hne hunpaid
    have hlt : reward.units.toNat < 2 ^ 128 := reward.units.isLt
    rw [OikosAmount.toNat]
    rcases hpays with ⟨validators', hloop, hpaid, hothers⟩ | ⟨hpanic, hbig⟩
    · rw [hloop, Option.map_some]
      constructor
      · rintro ⟨pool', heq, hdebts, -⟩
        cases heq
        dsimp only at hdebts
        omega
      · intro hle
        refine ⟨_, rfl, by dsimp only; omega, fun id v hv hnot => ?_⟩
        dsimp only
        rw [hothers, hv]
        intro hmem
        obtain ⟨-, w, hw, hw'⟩ := mem_activeIds.mp hmem
        rw [hv] at hw
        cases hw
        rw [hnot] at hw'
        cases hw'
    · rw [hpanic, Option.map_none]
      constructor
      · rintro ⟨pool', heq, -⟩
        cases heq
      · intro hle
        omega

/-! ### Reachable pools -/

def Op.movesStake : Op → Bool
  | .registerValidator _ | .stake _ _ | .unstake _ _ | .applySlashing _ _ _ => true
  | .distributeRewards _ _ | .claimRewards _ => false

theorem NoDebt.modify {f : Validator → Validator} (h : pool.NoDebt)
    (heq : pool'.validators = pool.validators.modify id f)
    (hf : ∀ v, (f v).rewardDebt = v.rewardDebt) : pool'.NoDebt := by
  intro id' v hv
  rw [heq, Table.get_modify] at hv
  split at hv
  · obtain ⟨w, hw, rfl⟩ := Option.map_eq_some_iff.mp hv
    rw [hf]
    exact h id w hw
  · exact h id' v hv

theorem NoDebt.step (h : pool.NoDebt) {op : Op} (hop : op.movesStake = true)
    (hpanic : (pool.step op).1 ≠ .error .panic) : (pool.step op).2.NoDebt := by
  cases op with
  | registerValidator did =>
    simp only [StakingPool.step] at hpanic ⊢
    rcases pool.registerValidator_cases did with heq | ⟨next, hnext, heq⟩
    · rw [heq] at hpanic
      exact absurd rfl hpanic
    · rw [heq]
      intro id v hv
      dsimp only at hv
      rw [Table.get_insert] at hv
      split at hv
      · cases hv
        rfl
      · exact h id v hv
  | stake id amount =>
    simp only [StakingPool.step]
    rcases pool.stake_cases id amount with
      ⟨-, e, heq⟩ | ⟨-, v, newStaked, -, -, ⟨total, -, heq⟩ | ⟨-, e, heq⟩⟩
    · rwa [heq]
    · rw [heq]
      exact h.modify rfl fun _ => rfl
    · rw [heq]
      exact h.modify rfl fun _ => rfl
  | unstake id amount =>
    simp only [StakingPool.step]
    rcases pool.unstake_cases id amount with
      ⟨e, heq⟩ | ⟨v, newStaked, -, -, ⟨total, -, heq⟩ | ⟨-, e, heq⟩⟩
    · rwa [heq]
    · rw [heq]
      exact h.modify rfl fun _ => rfl
    · rw [heq]
      exact h.modify rfl fun _ => rfl
  | applySlashing id reason block =>
    simp only [StakingPool.step] at hpanic ⊢
    rcases pool.applySlashing_cases id reason block with
      heq | ⟨e, heq⟩ | ⟨v, until_, result, -, heq⟩
    · rw [heq] at hpanic
      exact absurd rfl hpanic
    · rwa [heq]
    · rw [heq]
      exact h.modify rfl fun _ => rfl
  | distributeRewards => cases hop
  | claimRewards => cases hop

theorem NoDebt.run {ops : List Op} (h : pool.NoDebt) (hops : ∀ op ∈ ops, op.movesStake = true)
    (hrun : pool.run ops = some pool') : pool'.NoDebt := by
  induction ops generalizing pool with
  | nil =>
    cases hrun
    exact h
  | cons op ops ih =>
    rw [StakingPool.run] at hrun
    split at hrun
    · cases hrun
    · next hpanic =>
      exact ih (h.step (hops op mem_cons_self) hpanic)
        (fun op' hop' => hops op' (mem_cons_of_mem op hop')) hrun

theorem noDebt_new : new.NoDebt := by
  intro id v hv
  cases hv

/-! ### Mixed roundings -/

/-- The products of the eligible stakes and the reward all fit in a `u128`, or
none of them does. -/
def OneRounding (pool : StakingPool) (order : List UInt64) (reward : OikosAmount) : Prop :=
  (∀ id ∈ pool.activeIds order, stakeAt pool.validators id * reward.toNat < 2 ^ 128) ∨
    ∀ id ∈ pool.activeIds order, 2 ^ 128 ≤ stakeAt pool.validators id * reward.toNat

theorem sum_stakes_le (h : pool.SumsUp) (horder : order.Perm pool.validators.keys) :
    ((pool.activeIds order).dropLast.map (stakeAt pool.validators)).sum ≤
      pool.totalStaked.toNat := by
  have hsub : List.Sublist (pool.activeIds order).dropLast order :=
    (dropLast_sublist _).trans filter_sublist
  calc ((pool.activeIds order).dropLast.map (stakeAt pool.validators)).sum
      ≤ (order.map (stakeAt pool.validators)).sum := (hsub.map _).sum_le_sum (by simp)
    _ = (pool.validators.keys.map (stakeAt pool.validators)).sum := (horder.map _).sum_eq
    _ = pool.validators.total stakeOf := (Table.total_eq_sum_keys _ _).symm
    _ = pool.totalStaked.toNat := h.symm

theorem roundedShares_le {reward : OikosAmount} (h : pool.SumsUp)
    (horder : order.Perm pool.validators.keys) (hone : pool.OneRounding order reward) :
    pool.roundedShares order reward ≤ reward.toNat := by
  have hmap : pool.roundedShares order reward =
      (((pool.activeIds order).dropLast.map (stakeAt pool.validators)).map
        fun x => share x reward.toNat pool.totalStaked.toNat).sum := by
    rw [map_map]
    rfl
  rw [hmap]
  apply sum_share_le (sum_stakes_le h horder)
  apply hone.imp
  · intro hfit x hx
    obtain ⟨id, hid, rfl⟩ := mem_map.mp hx
    exact hfit id (dropLast_subset _ hid)
  · intro hover x hx
    obtain ⟨id, hid, rfl⟩ := mem_map.mp hx
    exact hover id (dropLast_subset _ hid)

/-- From a pool that was reached by moving stake only, a reward is paid out
exactly if and only if the rounded shares of all but the last eligible validator
are within it; and they are, in every order of iteration, where the stakes sum up
and all shares are rounded alike. -/
theorem rewards_exact_iff {ops : List Op} {reward : OikosAmount}
    (hops : ∀ op ∈ ops, op.movesStake = true) (hrun : new.run ops = some pool)
    (horder : order.Perm pool.validators.keys) (hreward : reward.units ≤ oikosMaxSupply)
    (htotal : 0 < pool.totalStaked.toNat)
    (helig : ∃ id v, pool.validators.get id = some v ∧ v.eligible = true) :
    (pool.DistributesExactly order reward ↔ pool.roundedShares order reward ≤ reward.toNat) ∧
      (new.AllFit ops → pool.OneRounding order reward →
        pool.roundedShares order reward ≤ reward.toNat) := by
  constructor
  · apply (noDebt_new.run hops hrun).distributes_iff horder _ htotal helig
    rw [← toNat_oikosMaxSupply]
    exact hreward
  · intro hfit hone
    exact roundedShares_le (books_new.run hfit hrun).sumsUp horder hone

def equalStakes : List Op :=
  [.registerValidator "a", .registerValidator "b", .stake 1 ⟨minimumStake⟩,
    .stake 2 ⟨minimumStake⟩]

/-- Two validators with equal stakes share 4000 units. -/
theorem rewards_exact_two :
    ∃ pool, new.run equalStakes = some pool ∧ pool.DistributesExactly [1, 2] ⟨4000⟩ := by
  refine ⟨_, rfl, (rewards_exact_iff ?_ (rfl : new.run equalStakes = some _) ?_ ?_ ?_ ?_).1.mpr ?_⟩
  · decide
  · exact Perm.refl _
  · decide
  · decide
  · exact ⟨1, _, rfl, rfl⟩
  · decide

/-! ### Slashed for downtime -/

def downtimeSlash (id : UInt64) : Op :=
  .applySlashing id (.downtime 5000) 0

/-- A slash for downtime takes one part in a hundred. -/
def afterDowntime (stake : Nat) : Nat :=
  stake - stake / 100

theorem applySlashing_downtime (hv : pool.validators.get id = some v) :
    (pool.step (downtimeSlash id)).1 = .ok () ∧
      (pool.step (downtimeSlash id)).2.validators =
        pool.validators.modify id (slashed (calculateSlash v (.downtime 5000)) false 0) := by
  simp [downtimeSlash, step, applySlashing, hv, SlashingReason.jails, Except.map]

theorem stakeOf_slashed :
    stakeOf (slashed (calculateSlash v (.downtime 5000)) false 0 v) =
    afterDowntime (stakeOf v) := by
  have hslash : (calculateSlash v (.downtime 5000)).units.toNat =
    v.stakedAmount.units.toNat / 100 :=
    BitVec.toNat_udiv ..
  simp only [stakeOf, slashed, OikosAmount.toNat, toNat_saturatingSub, hslash, afterDowntime]

theorem run_downtimeSlashes (n : Nat) (hbooks : pool.Books) (hv : pool.validators.get id = some v) :
    ∃ pool' v', pool.run (replicate n (downtimeSlash id)) = some pool' ∧ pool'.Books ∧
      pool'.validators.get id = some v' ∧ stakeOf v' = afterDowntime^[n] (stakeOf v) ∧
      v'.eligible = v.eligible ∧ pool'.validators.keys = pool.validators.keys ∧
      ∀ id', id' ≠ id → pool'.validators.get id' = pool.validators.get id' := by
  induction n generalizing pool v with
  | zero => exact ⟨pool, v, rfl, hbooks, hv, rfl, rfl, rfl, fun _ _ => rfl⟩
  | succ n ih =>
    obtain ⟨hok, hvalidators⟩ := applySlashing_downtime hv
    have hpanic : (pool.step (downtimeSlash id)).1 ≠ .error .panic := by simp [hok]
    have hfits : (downtimeSlash id).Fits pool := trivial
    have hbooks' := (hbooks.step hfits hpanic).1
    have hv' : (pool.step (downtimeSlash id)).2.validators.get id =
        some (slashed (calculateSlash v (.downtime 5000)) false 0 v) := by
      rw [hvalidators, Table.get_modify, if_pos rfl, hv]
      rfl
    obtain ⟨pool', w, hrun, hbooks'', hw, hstake, helig, hkeys, hothers⟩ := ih hbooks' hv'
    refine ⟨pool', w, ?_, hbooks'', hw, ?_, helig, ?_, fun id' hne => ?_⟩
    · rw [replicate_succ, run, if_neg hpanic, hrun]
    · rw [hstake, stakeOf_slashed, Function.iterate_succ_apply]
    · rw [hkeys, hvalidators, Table.keys_modify]
    · rw [hothers id' hne, hvalidators, Table.get_modify, if_neg hne]

theorem run_append (ops ops' : List Op) :
    pool.run (ops ++ ops') = (pool.run ops).bind (run · ops') := by
  induction ops generalizing pool with
  | nil => rfl
  | cons op ops ih =>
    rw [cons_append, run, run]
    split
    · rfl
    · exact ih

/-- Two staked validators, and a third without a stake. -/
def threeValidators : List Op :=
  [.registerValidator "a", .registerValidator "b", .registerValidator "c",
    .stake 1 ⟨minimumStake⟩, .stake 2 ⟨minimumStake⟩]

def slashedStakes : List Op :=
  threeValidators ++ List.replicate 1150 (downtimeSlash 2)

theorem afterDowntime_many : afterDowntime^[1150] (10 ^ 23) = 956034989642132971 := by
  decide +kernel

/-- The pool before the slashes. -/
def threePool : StakingPool :=
  (new.run threeValidators).getD new

theorem run_threeValidators : new.run threeValidators = some threePool := rfl

theorem books_threePool : threePool.Books := by
  have hkeys : threePool.validators.keys = [1, 2, 3] := by decide
  have hnext : threePool.nextValidatorId.toNat = 4 := by decide
  refine ⟨by unfold SumsUp; decide, ?_⟩
  intro id hid
  rw [hkeys] at hid
  rw [hnext]
  obtain rfl | rfl | rfl : id = 1 ∨ id = 2 ∨ id = 3 := by simpa using hid
  · decide
  · decide
  · decide

theorem movesStake_slashedStakes : ∀ op ∈ slashedStakes, op.movesStake = true := by
  have hthree : ∀ op ∈ threeValidators, op.movesStake = true := by decide
  intro op hop
  rcases mem_append.mp hop with hop | hop
  · exact hthree op hop
  · rw [eq_of_mem_replicate hop]
    rfl

theorem run_slashedStakes :
    ∃ pool, new.run slashedStakes = some pool ∧ pool.validators.keys = [1, 2, 3] ∧
      pool.activeIds [1, 2, 3] = [1, 2, 3] ∧ stakeAt pool.validators 1 = 10 ^ 23 ∧
      stakeAt pool.validators 2 = 956034989642132971 ∧
      pool.totalStaked.toNat = 100000956034989642132971 := by
  obtain ⟨second, hsecond, hstake, helig⟩ : ∃ v, threePool.validators.get 2 = some v ∧
      stakeOf v = 10 ^ 23 ∧ v.eligible = true := ⟨_, rfl, by decide, by decide⟩
  obtain ⟨pool, v, hrun, hbooks, hv, hleft, heligible, hkeys, hothers⟩ :=
    run_downtimeSlashes 1150 books_threePool hsecond
  rw [hstake, afterDowntime_many] at hleft
  have hkeys' : pool.validators.keys = [1, 2, 3] := hkeys.trans (by decide)
  have h1 : stakeAt pool.validators 1 = 10 ^ 23 := by
    rw [stakeAt, hothers 1 (by decide)]
    decide
  have h2 : stakeAt pool.validators 2 = 956034989642132971 := by
    rw [stakeAt, hv, Option.map_some, hleft]
    rfl
  have h3 : stakeAt pool.validators 3 = 0 := by
    rw [stakeAt, hothers 3 (by decide)]
    decide
  refine ⟨pool, ?_, hkeys', ?_, h1, h2, ?_⟩
  · rw [slashedStakes, run_append, run_threeValidators, Option.bind_some, hrun]
  · have hfirst : (threePool.validators.get 1).any Validator.eligible = true := by decide
    have hthird : (threePool.validators.get 3).any Validator.eligible = true := by decide
    simp [activeIds, hothers 1 (by decide), hothers 3 (by decide), hfirst, hthird, hv, heligible,
      helig]
  · have hsum : pool.totalStaked.toNat = pool.validators.total stakeOf := hbooks.sumsUp
    rw [hsum, Table.total_eq_sum_keys, hkeys']
    change [stakeAt pool.validators 1, stakeAt pool.validators 2, stakeAt pool.validators 3].sum = _
    rw [h1, h2, h3]
    rfl

/-- The first validator is paid the whole reward of one OIKOS in whole units, the
second its exact share on top. -/
theorem rewards_exceed_mixed :
    (∀ op ∈ slashedStakes, op.movesStake = true) ∧
      ∃ pool, new.run slashedStakes = some pool ∧ [1, 2, 3].Perm pool.validators.keys ∧
        0 < pool.totalStaked.toNat ∧
        (∃ id v, pool.validators.get id = some v ∧ v.eligible = true) ∧
        ¬ pool.DistributesExactly [1, 2, 3] ⟨tokenScale⟩ := by
  refine ⟨movesStake_slashedStakes, ?_⟩
  obtain ⟨pool, hrun, hkeys, hactive, h1, h2, htotal⟩ := run_slashedStakes
  have horder : [1, 2, 3].Perm pool.validators.keys := by rw [hkeys]
  have hpos : 0 < pool.totalStaked.toNat := by
    rw [htotal]
    decide
  obtain ⟨-, v, hv, helig⟩ : 1 ∈ [1, 2, 3] ∧ ∃ v, pool.validators.get 1 = some v ∧
      v.eligible = true := mem_activeIds.mp (by rw [hactive]; simp)
  refine ⟨pool, hrun, horder, hpos, ⟨1, v, hv, helig⟩, ?_⟩
  have hreward : (⟨tokenScale⟩ : OikosAmount).toNat = 10 ^ 18 := toNat_scale
  have hdebt := noDebt_new.run movesStake_slashedStakes hrun
  rw [hdebt.distributes_iff horder (by rw [hreward]; decide) hpos ⟨1, v, hv, helig⟩, hreward,
    roundedShares, hactive]
  simp only [sharesBefore, dropLast_cons_cons, dropLast_singleton, map_cons, h1, h2,
    toNat_scale]
  change ¬ [share (10 ^ 23) (10 ^ 18) pool.totalStaked.toNat,
    share 956034989642132971 (10 ^ 18) pool.totalStaked.toNat].sum ≤ 10 ^ 18
  rw [htotal]
  decide

end StakingPool

end Oikos.Koinon
