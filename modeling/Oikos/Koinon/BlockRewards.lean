/-
What the rewards of blocks add up to: the parts of a fee, and the base rewards of
the blocks of a year beside the emission that the schedule publishes for it.
-/
import Mathlib.Data.List.Perm.Subperm
import Mathlib.Data.List.Nodup
import Oikos.Koinon.Block

namespace Oikos.Koinon

open List

/-! ### Fee parts -/

namespace FeeConfig

/-- A sum of `u32`s, with a panic where it does not fit. -/
def addU32 {E : Type} (a b : UInt32) : Result E UInt32 :=
  match checkedAdd a.toBitVec b.toBitVec with
  | some sum => .ok ⟨sum⟩
  | none => .error .panic

def pctSum {E : Type} (burnPct validatorPct treasuryPct : UInt32) : Result E UInt32 := do
  let sum ← addU32 burnPct validatorPct
  addU32 sum treasuryPct

def validate {E : Type} (config : FeeConfig) : Result E Bool := do
  let sum ← pctSum config.burnPct config.validatorPct config.treasuryPct
  .ok (sum == 100)

variable {E : Type} {a b c : UInt32} {config : FeeConfig}

theorem addU32_eq_ok : (addU32 a b : Result E UInt32) = .ok c ↔ c.toNat = a.toNat + b.toNat := by
  have hiff := checkedAdd_eq_some (a := a.toBitVec) (b := b.toBitVec) (c := c.toBitVec)
  unfold addU32
  cases hsum : checkedAdd a.toBitVec b.toBitVec with
  | none =>
    rw [hsum] at hiff
    constructor
    · intro h
      cases h
    · intro h
      cases hiff.mpr h
  | some sum =>
    rw [hsum] at hiff
    constructor
    · intro h
      cases h
      exact hiff.mp rfl
    · intro h
      rw [Option.some.inj (hiff.mpr h)]

theorem pctSum_eq_ok {treasury sum : UInt32} :
    (pctSum a b treasury : Result E UInt32) = .ok sum ↔
      sum.toNat = a.toNat + b.toNat + treasury.toNat := by
  rw [pctSum, bind_eq_ok]
  simp only [addU32_eq_ok]
  constructor
  · rintro ⟨first, hfirst, hsum⟩
    rw [hsum, hfirst]
  · intro hsum
    have hlt := sum.toNat_lt
    refine ⟨UInt32.ofNat (a.toNat + b.toNat), ?_, ?_⟩
    · rw [UInt32.toNat_ofNat', Nat.mod_eq_of_lt (by omega)]
    · rw [UInt32.toNat_ofNat', Nat.mod_eq_of_lt (by omega), hsum]

theorem validate_eq_true_iff :
    (config.validate : Result E Bool) = .ok true ↔
      config.burnPct.toNat + config.validatorPct.toNat + config.treasuryPct.toNat = 100 := by
  rw [validate, bind_eq_ok]
  simp only [pctSum_eq_ok, Except.ok.injEq, beq_iff_eq]
  constructor
  · rintro ⟨sum, hsum, rfl⟩
    exact hsum.symm
  · intro hsum
    exact ⟨100, hsum.symm, rfl⟩

end FeeConfig

namespace FeeSplit

variable {E : Type} {raw : Int} {pct : UInt32} {config : FeeConfig} {total : KoinAmount}

theorem checkedI128_of_nonneg {n : Int} (hnonneg : 0 ≤ n) (hlt : n < 2 ^ 127) :
    ∃ a : KoinAmount, (checkedI128 n : Result E KoinAmount) = .ok a ∧ a.toInt = n := by
  refine ⟨_, if_pos ⟨by omega, hlt⟩, ?_⟩
  rw [KoinAmount.toInt, BitVec.toInt_ofInt]
  exact Int.bmod_eq_of_le (by omega) (by omega)

theorem part_spec (hraw : 0 ≤ raw) (hfits : raw * pct.toNat < 2 ^ 127) :
    ∃ a : KoinAmount, (part raw pct : Result E KoinAmount) = .ok a ∧
      a.toInt = raw * pct.toNat / 100 := by
  have hproduct : 0 ≤ raw * pct.toNat := Int.mul_nonneg hraw (Int.natCast_nonneg _)
  obtain ⟨product, hmul, hvalue⟩ := checkedI128_of_nonneg (E := E) hproduct hfits
  have hdiv : product.toInt.tdiv 100 = raw * pct.toNat / 100 := by
    rw [hvalue, Int.tdiv_eq_ediv_of_nonneg hproduct]
  obtain ⟨a, ha, hquot⟩ := checkedI128_of_nonneg (E := E) (n := raw * pct.toNat / 100)
    (by omega) (by omega)
  exact ⟨a, by rw [part, hmul, ok_bind, hdiv, ha], hquot⟩

/-- The percentages of a valid configuration split a fee into two exact floors and a
rest, which is at most two units above the floor of its own percentage. -/
theorem fromConfig_parts (hvalid : (config.validate : Result E Bool) = .ok true)
    (htotal : 0 ≤ total.toInt) (hburn : total.toInt * config.burnPct.toNat < 2 ^ 127)
    (hvalidator : total.toInt * config.validatorPct.toNat < 2 ^ 127) :
    ∃ split : FeeSplit, (fromConfig config total : Result E FeeSplit) = .ok split ∧
      (0 ≤ split.burn.toInt ∧ 0 ≤ split.validator.toInt ∧ 0 ≤ split.treasury.toInt) ∧
      split.burn.toInt + split.validator.toInt + split.treasury.toInt = total.toInt ∧
      split.burn.toInt = total.toInt * config.burnPct.toNat / 100 ∧
      split.validator.toInt = total.toInt * config.validatorPct.toNat / 100 ∧
      split.treasury.toInt ≤ total.toInt * config.treasuryPct.toNat / 100 + 2 := by
  have hsum := FeeConfig.validate_eq_true_iff.mp hvalid
  obtain ⟨burn, hburnOk, hburnPart⟩ := part_spec (E := E) htotal hburn
  obtain ⟨validator, hvalidatorOk, hvalidatorPart⟩ := part_spec (E := E) htotal hvalidator
  have hlt : total.toInt < 2 ^ 127 := BitVec.toInt_lt
  -- the three products add up to a hundred times the fee
  have hproducts : total.toInt * config.burnPct.toNat + total.toInt * config.validatorPct.toNat +
      total.toInt * config.treasuryPct.toNat = total.toInt * 100 := by
    rw [← Int.mul_add, ← Int.mul_add, ← Int.natCast_add, ← Int.natCast_add, hsum]
    rfl
  have htreasuryProduct : 0 ≤ total.toInt * config.treasuryPct.toNat :=
    Int.mul_nonneg htotal (Int.natCast_nonneg _)
  have hburnProduct : 0 ≤ total.toInt * config.burnPct.toNat :=
    Int.mul_nonneg htotal (Int.natCast_nonneg _)
  have hvalidatorProduct : 0 ≤ total.toInt * config.validatorPct.toNat :=
    Int.mul_nonneg htotal (Int.natCast_nonneg _)
  obtain ⟨rest, hrestOk, hrest⟩ := checkedI128_of_nonneg (E := E)
    (n := total.toInt - burn.toInt) (by omega) (by omega)
  obtain ⟨treasury, htreasuryOk, htreasury⟩ := checkedI128_of_nonneg (E := E)
    (n := rest.toInt - validator.toInt) (by omega) (by omega)
  refine ⟨⟨burn, validator, treasury⟩, ?_, ⟨?_, ?_, ?_⟩, ?_, hburnPart, hvalidatorPart, ?_⟩
  · rw [fromConfig, if_neg (Int.not_lt.mpr htotal), hburnOk, ok_bind, hvalidatorOk,
      ok_bind, hrestOk,
      ok_bind, htreasuryOk, ok_bind]
  all_goals dsimp only; omega

theorem fromConfig_parts_default :
    ∃ split : FeeSplit, (fromConfig .default ⟨101⟩ : Result Unit FeeSplit) = .ok split ∧
      split.burn.toInt = 70 ∧ split.validator.toInt = 20 ∧ split.treasury.toInt ≤ 12 := by
  have htotal : 0 ≤ (⟨101⟩ : KoinAmount).toInt := by decide
  have hvalid : (FeeConfig.default.validate : Result Unit Bool) = .ok true := by decide
  obtain ⟨split, hok, -, -, hburn, hvalidator, htreasury⟩ :=
    fromConfig_parts hvalid htotal (by decide) (by decide)
  exact ⟨split, hok, hburn, hvalidator, htreasury⟩

/-- Thirds of a fee of 3 leave two units of rounding with the treasury, and the
product of the largest fee overflows. -/
theorem fromConfig_rounding_and_overflow :
    ((FeeConfig.validate ⟨33, 33, 34⟩ : Result Unit Bool) = .ok true ∧
      (fromConfig ⟨33, 33, 34⟩ ⟨3⟩ : Result Unit FeeSplit) = .ok ⟨⟨0⟩, ⟨0⟩, ⟨3⟩⟩ ∧
      3 * 34 / 100 + 1 < (⟨3⟩ : KoinAmount).toInt) ∧
    (fromConfig .default ⟨BitVec.intMax 128⟩ : Result Unit FeeSplit) = .error .panic := by
  decide

end FeeSplit

/-! ### The emission of a year -/

namespace BlockRewardProcessor

variable {proc proc' : BlockRewardProcessor} {year blockNumber : UInt64} {fees : KoinAmount}
  {blocks : List (UInt64 × KoinAmount)} {reward : BlockReward}

def processBlocks : BlockRewardProcessor → List (UInt64 × KoinAmount) → List BlockReward
  | _, [] => []
  | proc, (blockNumber, fees) :: blocks =>
    match proc.processBlock blockNumber fees with
    | (.ok reward, proc) => reward :: processBlocks proc blocks
    | (.error (.err _), proc) => processBlocks proc blocks
    | (.error _, _) => []

def totalBase (proc : BlockRewardProcessor) (blocks : List (UInt64 × KoinAmount)) : Nat :=
  ((proc.processBlocks blocks).map fun reward => reward.baseReward.toNat).sum

def scheduled (year : UInt64) : Nat :=
  (emissionAtYear year).toNat * 10 ^ 18

def Realises (proc : BlockRewardProcessor) (year : UInt64)
    (blocks : List (UInt64 × KoinAmount)) : Prop :=
  scheduled year < proc.totalBase blocks + proc.config.blocksPerYear.toNat ∧
    proc.totalBase blocks ≤ scheduled year

def perBlock (proc : BlockRewardProcessor) (year : UInt64) : Nat :=
  (emissionAtYear year).toNat / proc.config.blocksPerYear.toNat

theorem toNat_baseReward :
    (proc.baseReward blockNumber).toNat = proc.perBlock (proc.yearForBlock blockNumber) := by
  rw [baseReward, OikosAmount.toNat, BitVec.toNat_udiv, toNat_asU128]
  rfl

theorem config_processBlock {r : Result RewardError BlockReward}
    (h : proc.processBlock blockNumber fees = (r, proc')) (hpanic : r ≠ .error .panic) :
    proc'.config = proc.config := by
  cases r with
  | ok reward => rw [(processBlock_eq_ok h).2.2]
  | error stop =>
    have hstop : stop ≠ .panic := fun heq => hpanic (heq ▸ rfl)
    rw [(processBlock_eq_error hstop h).2.2]

theorem totalBase_eq (hyear : ∀ b ∈ blocks, proc.yearForBlock b.1 = year) :
    proc.totalBase blocks = (proc.processBlocks blocks).length * proc.perBlock year ∧
      (proc.processBlocks blocks).length ≤ blocks.length := by
  induction blocks generalizing proc with
  | nil => exact ⟨(zero_mul _).symm, le_refl _⟩
  | cons b blocks ih =>
    obtain ⟨blockNumber, fees⟩ := b
    obtain ⟨hfirst, hrest⟩ := forall_mem_cons.mp hyear
    rw [totalBase, processBlocks]
    cases h : proc.processBlock blockNumber fees with
    | mk r proc' =>
      -- a later block finds the configuration as it was
      have hnext (hpanic : r ≠ .error .panic) : proc'.perBlock year = proc.perBlock year ∧
          ∀ b ∈ blocks, proc'.yearForBlock b.1 = year := by
        have hconfig := config_processBlock h hpanic
        simp only [perBlock, yearForBlock, hconfig] at hrest ⊢
        exact ⟨trivial, hrest⟩
      cases r with
      | ok reward =>
        obtain ⟨hper, hyears⟩ := hnext (by simp)
        obtain ⟨htotal, hlength⟩ := ih hyears
        have hbase := (processBlock_eq_ok h).1
        rw [totalBase, hper] at htotal
        dsimp only
        rw [map_cons, sum_cons, htotal, length_cons, hbase, toNat_baseReward,
          hfirst, Nat.add_mul, one_mul, add_comm]
        exact ⟨rfl, Nat.succ_le_succ hlength⟩
      | error stop =>
        cases stop with
        | err e =>
          obtain ⟨hper, hyears⟩ := hnext (by simp)
          obtain ⟨htotal, hlength⟩ := ih hyears
          rw [totalBase, hper] at htotal
          exact ⟨htotal, Nat.le_succ_of_le hlength⟩
        | panic => exact ⟨(zero_mul _).symm, Nat.zero_le _⟩
        | fuel => exact ⟨(zero_mul _).symm, Nat.zero_le _⟩

theorem toNat_yearForBlock (hrate : 0 < proc.config.blocksPerYear.toNat)
    (hblock : 0 < blockNumber.toNat) :
    (proc.yearForBlock blockNumber).toNat =
      if 20 < (blockNumber.toNat - 1) / proc.config.blocksPerYear.toNat + 1 then 0
      else (blockNumber.toNat - 1) / proc.config.blocksPerYear.toNat + 1 := by
  have hnonzero (n : UInt64) (hn : 0 < n.toNat) : n ≠ 0 := by
    rintro rfl
    exact lt_irrefl 0 hn
  have hlt := blockNumber.toNat_lt
  have hpred : (blockNumber - 1).toNat = blockNumber.toNat - 1 := by
    rw [UInt64.toNat_sub_of_le _ _ (by rw [UInt64.le_iff_toNat_le]; exact hblock)]
    rfl
  have hquot := Nat.div_le_self (blockNumber.toNat - 1) proc.config.blocksPerYear.toNat
  have hyear : ((blockNumber - 1) / proc.config.blocksPerYear + 1).toNat =
      (blockNumber.toNat - 1) / proc.config.blocksPerYear.toNat + 1 := by
    rw [UInt64.toNat_add, UInt64.toNat_div, hpred, UInt64.toNat_one, Nat.mod_eq_of_lt (by omega)]
  have hhalt : 20 < (blockNumber - 1) / proc.config.blocksPerYear + 1 ↔
      20 < (blockNumber.toNat - 1) / proc.config.blocksPerYear.toNat + 1 := by
    rw [UInt64.lt_iff_toNat_lt, hyear]
    rfl
  rw [yearForBlock, if_neg (hnonzero _ hblock), if_neg (hnonzero _ hrate)]
  dsimp only
  by_cases hlate : 20 < (blockNumber - 1) / proc.config.blocksPerYear + 1
  · rw [if_pos hlate, if_pos (hhalt.mp hlate)]
    rfl
  · rw [if_neg hlate, if_neg (hhalt.not.mp hlate), hyear]

theorem toNat_of_yearForBlock (hrate : 0 < proc.config.blocksPerYear.toNat) (hpos : 0 < year.toNat)
    (h : proc.yearForBlock blockNumber = year) :
    0 < blockNumber.toNat ∧
      (blockNumber.toNat - 1) / proc.config.blocksPerYear.toNat + 1 = year.toNat := by
  have hblock : 0 < blockNumber.toNat := by
    by_contra hzero
    have hzero : blockNumber = 0 := UInt64.toNat_inj.mp (Nat.eq_zero_of_not_pos hzero)
    rw [yearForBlock, if_pos hzero] at h
    subst h
    exact lt_irrefl 0 hpos
  have hyear := toNat_yearForBlock hrate hblock
  rw [h] at hyear
  split at hyear
  · omega
  · exact ⟨hblock, hyear.symm⟩

theorem length_le_of_year (hrate : 0 < proc.config.blocksPerYear.toNat) (hpos : 0 < year.toNat)
    (hdistinct : (blocks.map Prod.fst).Nodup)
    (hyear : ∀ b ∈ blocks, proc.yearForBlock b.1 = year) :
    blocks.length ≤ proc.config.blocksPerYear.toNat := by
  let index : UInt64 → Nat := fun number => number.toNat - 1
  -- the numbers, counted from 0, lie in an interval as long as the year
  have hmem : ∀ m ∈ (blocks.map Prod.fst).map index,
      m ∈ range' ((year.toNat - 1) * proc.config.blocksPerYear.toNat)
        proc.config.blocksPerYear.toNat := by
    intro m hm
    rw [map_map] at hm
    obtain ⟨b, hb, rfl⟩ := mem_map.mp hm
    have hquot := (toNat_of_yearForBlock hrate hpos (hyear b hb)).2
    have hmod := Nat.div_add_mod (b.1.toNat - 1) proc.config.blocksPerYear.toNat
    have hlt := Nat.mod_lt (b.1.toNat - 1) hrate
    rw [mem_range'_1, ← hquot, Nat.add_sub_cancel, mul_comm]
    dsimp only [Function.comp, index]
    omega
  have hnodup : ((blocks.map Prod.fst).map index).Nodup := by
    refine hdistinct.map_on fun a ha b hb heq => ?_
    obtain ⟨p, hp, rfl⟩ := mem_map.mp ha
    obtain ⟨q, hq, rfl⟩ := mem_map.mp hb
    have hp := (toNat_of_yearForBlock hrate hpos (hyear p hp)).1
    have hq := (toNat_of_yearForBlock hrate hpos (hyear q hq)).1
    dsimp only [index] at heq
    exact UInt64.toNat_inj.mp (by omega)
  have hlength := (subperm_of_subset hnodup hmem).length_le
  rwa [length_map, length_map, length_range'] at hlength

theorem rate_lt_scheduled (hfirst : 1 ≤ year) (hlast : year ≤ 20) (rate : UInt64) :
    (emissionAtYear year).toNat + rate.toNat ≤ scheduled year := by
  have hall : ∀ k < 20, 700000 ≤ (decayed k).toNat := by decide
  have hfirst : 1 ≤ year.toNat := UInt64.le_iff_toNat_le.mp hfirst
  have hlast : year.toNat ≤ 20 := UInt64.le_iff_toNat_le.mp hlast
  have hemission : emissionAtYear year = decayed (year.toNat - 1) := by
    rw [emissionAtYear, if_neg]
    rintro (rfl | hlate)
    · exact absurd hfirst (by decide)
    · have hlate : 20 < year.toNat := UInt64.lt_iff_toNat_lt.mp hlate
      omega
  have hbound := hall (year.toNat - 1) (by omega)
  have hrate := rate.toNat_lt
  rw [scheduled, hemission]
  omega

/-- The base rewards of a year never come near the emission that is scheduled for it:
each is a number of whole tokens, recorded as base units. -/
theorem schedule_never_realised (hrate : 0 < proc.config.blocksPerYear) (hfirst : 1 ≤ year)
    (hlast : year ≤ 20) (hdistinct : (blocks.map Prod.fst).Nodup)
    (hyear : ∀ b ∈ blocks, proc.yearForBlock b.1 = year) : ¬ proc.Realises year blocks := by
  have hrate : 0 < proc.config.blocksPerYear.toNat := UInt64.lt_iff_toNat_lt.mp hrate
  have hpos : 0 < year.toNat := UInt64.le_iff_toNat_le.mp hfirst
  obtain ⟨htotal, hpaid⟩ := totalBase_eq hyear
  have hblocks := length_le_of_year hrate hpos hdistinct hyear
  have hlarge := rate_lt_scheduled hfirst hlast proc.config.blocksPerYear
  have hsmall : proc.totalBase blocks ≤ (emissionAtYear year).toNat :=
    calc proc.totalBase blocks = (proc.processBlocks blocks).length * proc.perBlock year := htotal
      _ ≤ proc.config.blocksPerYear.toNat * proc.perBlock year :=
        Nat.mul_le_mul_right _ (Nat.le_trans hpaid hblocks)
      _ ≤ (emissionAtYear year).toNat := Nat.mul_div_le _ _
  rintro ⟨hlower, -⟩
  omega

theorem schedule_not_realised_single : ¬ (new ⟨1, 1000⟩).Realises 1 [(1, .zero)] :=
  schedule_never_realised (by decide) (by decide) (by decide) (by decide)
    (forall_mem_singleton.mpr (by decide))

/-- One block a year: it is paid 50 million base units, not 50 million tokens. -/
theorem first_year_in_base_units :
    (new ⟨1, 1000⟩).yearForBlock 1 = 1 ∧ (new ⟨1, 1000⟩).totalBase [(1, .zero)] = 50000000 ∧
      scheduled 1 = 50000000 * 10 ^ 18 := by
  decide

end BlockRewardProcessor

end Oikos.Koinon
