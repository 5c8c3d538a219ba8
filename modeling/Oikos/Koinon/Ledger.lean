/-
The conservation tracker of `koinon-ledger`: nine counters, the two sums and the
supply cap that tie them, and the calls that record a movement of value.
-/
import Oikos.Lib.Bits
import Oikos.Koinon.Dag

namespace Oikos.Koinon

/-! ### Amounts -/

def oikosMaxSupply : BitVec 128 := BitVec.ofNat 128 (1000000000 * 10 ^ 18)

theorem toNat_oikosMaxSupply : oikosMaxSupply.toNat = 10 ^ 27 := by
  decide

namespace OikosAmount

def zero : OikosAmount := ⟨0⟩

def checkedAdd (a b : OikosAmount) : Option OikosAmount :=
  (Oikos.checkedAdd a.units b.units).map OikosAmount.mk

def checkedSub (a b : OikosAmount) : Option OikosAmount :=
  (Oikos.checkedSub a.units b.units).map OikosAmount.mk

def toNat (a : OikosAmount) : Nat :=
  a.units.toNat

variable {a b c : OikosAmount}

theorem toNat_lt (a : OikosAmount) : a.toNat < 2 ^ 128 :=
  a.units.isLt

@[simp] theorem toNat_zero : zero.toNat = 0 := rfl

theorem checkedAdd_eq_some : a.checkedAdd b = some c ↔ c.toNat = a.toNat + b.toNat := by
  rw [checkedAdd, Option.map_eq_some_iff]
  constructor
  · rintro ⟨u, hu, rfl⟩
    exact Oikos.checkedAdd_eq_some.mp hu
  · intro h
    exact ⟨c.units, Oikos.checkedAdd_eq_some.mpr h, rfl⟩

theorem checkedAdd_eq_none : a.checkedAdd b = none ↔ 2 ^ 128 ≤ a.toNat + b.toNat := by
  rw [checkedAdd, Option.map_eq_none_iff, Oikos.checkedAdd_eq_none]
  rfl

theorem checkedSub_eq_some : a.checkedSub b = some c ↔ a.toNat = c.toNat + b.toNat := by
  rw [checkedSub, Option.map_eq_some_iff]
  constructor
  · rintro ⟨u, hu, rfl⟩
    exact Oikos.checkedSub_eq_some.mp hu
  · intro h
    exact ⟨c.units, Oikos.checkedSub_eq_some.mpr h, rfl⟩

theorem checkedSub_eq_none : a.checkedSub b = none ↔ a.toNat < b.toNat := by
  rw [checkedSub, Option.map_eq_none_iff, Oikos.checkedSub_eq_none]
  rfl

end OikosAmount

namespace KoinAmount

def zero : KoinAmount := ⟨0⟩

def checkedSub (a b : KoinAmount) : Option KoinAmount :=
  if a.units.ssubOverflow b.units then none else some ⟨a.units - b.units⟩

def isNegative (a : KoinAmount) : Bool :=
  a.units.slt 0

end KoinAmount

/-! ### The tracker -/

/-- The ledger of all OIKOS and KOIN; its counters are kept independently. -/
structure TotalValueConservation where
  minted : OikosAmount
  burned : OikosAmount
  totalOikos : OikosAmount
  totalStaked : OikosAmount
  totalCirculatingOikos : OikosAmount
  totalTreasuryOikos : OikosAmount
  totalKoin : BitVec 128
  totalCirculatingKoin : BitVec 128
  totalTreasuryKoin : BitVec 128
deriving DecidableEq

namespace TotalValueConservation

def new : TotalValueConservation :=
  ⟨.zero, .zero, .zero, .zero, .zero, .zero, 0, 0, 0⟩

/-- No more was burned than minted. -/
def checkInvariant (tc : TotalValueConservation) : Bool :=
  tc.burned.units ≤ tc.minted.units

/-- The parts add up to the totals, and what is left of the minted is within the supply. -/
def checkFullInvariant (tc : TotalValueConservation) : Bool :=
  match (checkedAdd tc.totalStaked.units tc.totalCirculatingOikos.units).bind
      (checkedAdd · tc.totalTreasuryOikos.units) with
  | none => false
  | some oikosSum =>
    match checkedAdd tc.totalCirculatingKoin tc.totalTreasuryKoin with
    | none => false
    | some koinSum =>
      tc.totalOikos.units == oikosSum && tc.totalKoin == koinSum &&
        decide (saturatingSub tc.minted.units tc.burned.units ≤ oikosMaxSupply)

def recordMint (tc : TotalValueConservation) (amount : OikosAmount) :
    Bool × TotalValueConservation :=
  match tc.minted.checkedAdd amount with
  | none => (false, tc)
  | some newMinted =>
    if oikosMaxSupply < newMinted.units then (false, tc)
    else
      let tc := { tc with minted := newMinted }
      match tc.totalOikos.checkedAdd amount with
      | some v => (true, { tc with totalOikos := v })
      | none => (false, tc)

def recordBurn (tc : TotalValueConservation) (amount : OikosAmount) :
    Bool × TotalValueConservation :=
  match tc.burned.checkedAdd amount with
  | some new =>
    let tc := { tc with
      burned := new
      totalCirculatingOikos := ⟨saturatingSub tc.totalCirculatingOikos.units amount.units⟩ }
    (tc.checkInvariant, tc)
  | none => (false, tc)

/-- Staking takes from what circulates. -/
def recordStake (tc : TotalValueConservation) (amount : OikosAmount) :
    Bool × TotalValueConservation :=
  match tc.totalStaked.checkedAdd amount, tc.totalCirculatingOikos.checkedSub amount with
  | some newStaked, some newCirc =>
    (true, { tc with totalStaked := newStaked, totalCirculatingOikos := newCirc })
  | _, _ => (false, tc)

def recordUnstake (tc : TotalValueConservation) (amount : OikosAmount) :
    Bool × TotalValueConservation :=
  match tc.totalStaked.checkedSub amount, tc.totalCirculatingOikos.checkedAdd amount with
  | some newStaked, some newCirc =>
    (true, { tc with totalStaked := newStaked, totalCirculatingOikos := newCirc })
  | _, _ => (false, tc)

/-- The treasury grows; nothing else is made less. -/
def recordTreasuryOikos (tc : TotalValueConservation) (amount : OikosAmount) :
    Bool × TotalValueConservation :=
  match tc.totalTreasuryOikos.checkedAdd amount with
  | some new => (true, { tc with totalTreasuryOikos := new })
  | none => (false, tc)

def recordTreasuryKoin (tc : TotalValueConservation) (amount : BitVec 128) :
    Bool × TotalValueConservation :=
  match checkedAdd tc.totalTreasuryKoin amount with
  | some new => (true, { tc with totalTreasuryKoin := new })
  | none => (false, tc)

def recordCirculatingKoin (tc : TotalValueConservation) (amount : BitVec 128) :
    Bool × TotalValueConservation :=
  match checkedAdd tc.totalCirculatingKoin amount with
  | some new => (true, { tc with totalCirculatingKoin := new })
  | none => (false, tc)

def recordKoinMint (tc : TotalValueConservation) (amount : BitVec 128) :
    Bool × TotalValueConservation :=
  match checkedAdd tc.totalKoin amount with
  | none => (false, tc)
  | some newTotal =>
    match checkedAdd tc.totalCirculatingKoin amount with
    | none => (false, tc)
    | some newCirc => (true, { tc with totalKoin := newTotal, totalCirculatingKoin := newCirc })

def recordKoinBurn (tc : TotalValueConservation) (amount : BitVec 128) :
    Bool × TotalValueConservation :=
  match checkedSub tc.totalKoin amount with
  | none => (false, tc)
  | some newTotal =>
    match checkedSub tc.totalCirculatingKoin amount with
    | none => (false, tc)
    | some newCirc => (true, { tc with totalKoin := newTotal, totalCirculatingKoin := newCirc })

/-! ### Conserved value -/

/-- What `check_full_invariant` checks, over the numbers. -/
structure Conserved (tc : TotalValueConservation) : Prop where
  oikos : tc.totalOikos.toNat =
    tc.totalStaked.toNat + tc.totalCirculatingOikos.toNat + tc.totalTreasuryOikos.toNat
  koin : tc.totalKoin.toNat = tc.totalCirculatingKoin.toNat + tc.totalTreasuryKoin.toNat
  supply : tc.minted.toNat - tc.burned.toNat ≤ oikosMaxSupply.toNat

variable {tc : TotalValueConservation}

theorem oikosSum_eq_iff {sum : BitVec 128}
    (hsum : (checkedAdd tc.totalStaked.units tc.totalCirculatingOikos.units).bind
      (checkedAdd · tc.totalTreasuryOikos.units) = some sum) :
    tc.totalOikos.units = sum ↔ tc.totalOikos.toNat =
      tc.totalStaked.toNat + tc.totalCirculatingOikos.toNat + tc.totalTreasuryOikos.toNat := by
  obtain ⟨first, hfirst, hlast⟩ := Option.bind_eq_some_iff.mp hsum
  rw [← BitVec.toNat_inj, checkedAdd_eq_some.mp hlast, checkedAdd_eq_some.mp hfirst]
  rfl

/-- Three parts that overflow are not the parts of a number that is stored. -/
theorem oikosSum_ne
    (hsum : (checkedAdd tc.totalStaked.units tc.totalCirculatingOikos.units).bind
      (checkedAdd · tc.totalTreasuryOikos.units) = none) :
    tc.totalOikos.toNat ≠
      tc.totalStaked.toNat + tc.totalCirculatingOikos.toNat + tc.totalTreasuryOikos.toNat := by
  have hoikos := tc.totalOikos.toNat_lt
  rw [Option.bind_eq_none_iff] at hsum
  simp only [OikosAmount.toNat] at hoikos ⊢
  cases hfirst : checkedAdd tc.totalStaked.units tc.totalCirculatingOikos.units with
  | none =>
    have := checkedAdd_eq_none.mp hfirst
    omega
  | some first =>
    have h₁ := checkedAdd_eq_some.mp hfirst
    have h₂ := checkedAdd_eq_none.mp (hsum first hfirst)
    omega

theorem checkFullInvariant_iff : tc.checkFullInvariant = true ↔ tc.Conserved := by
  unfold checkFullInvariant
  have hkoin := tc.totalKoin.isLt
  cases hsum : (checkedAdd tc.totalStaked.units tc.totalCirculatingOikos.units).bind
      (checkedAdd · tc.totalTreasuryOikos.units) with
  | none =>
    simp only [Bool.false_eq_true, false_iff]
    exact fun h => oikosSum_ne hsum h.oikos
  | some oikosSum =>
    have ho := oikosSum_eq_iff hsum
    cases hkoinSum : checkedAdd tc.totalCirculatingKoin tc.totalTreasuryKoin with
    | none =>
      have := checkedAdd_eq_none.mp hkoinSum
      simp only [Bool.false_eq_true, false_iff]
      rintro ⟨-, hbad, -⟩
      omega
    | some koinSum =>
      have hk : tc.totalKoin = koinSum ↔ tc.totalKoin.toNat =
          tc.totalCirculatingKoin.toNat + tc.totalTreasuryKoin.toNat := by
        rw [← BitVec.toNat_inj, checkedAdd_eq_some.mp hkoinSum]
      have hs : saturatingSub tc.minted.units tc.burned.units ≤ oikosMaxSupply ↔
          tc.minted.toNat - tc.burned.toNat ≤ oikosMaxSupply.toNat := by
        rw [BitVec.le_def, toNat_saturatingSub]
        rfl
      simp only [Bool.and_eq_true, beq_iff_eq, decide_eq_true_eq, ho, hk, hs]
      constructor
      · rintro ⟨⟨h, h'⟩, h''⟩
        exact ⟨h, h', h''⟩
      · rintro ⟨h, h', h''⟩
        exact ⟨⟨h, h'⟩, h''⟩

/-! ### Records -/

/-- A call that records a movement of value. -/
inductive Record where
  | mint (amount : OikosAmount)
  | burn (amount : OikosAmount)
  | stake (amount : OikosAmount)
  | unstake (amount : OikosAmount)
  | treasuryOikos (amount : OikosAmount)
  | treasuryKoin (amount : BitVec 128)
  | circulatingKoin (amount : BitVec 128)
  | koinMint (amount : BitVec 128)
  | koinBurn (amount : BitVec 128)

def record (tc : TotalValueConservation) : Record → Bool × TotalValueConservation
  | .mint amount => tc.recordMint amount
  | .burn amount => tc.recordBurn amount
  | .stake amount => tc.recordStake amount
  | .unstake amount => tc.recordUnstake amount
  | .treasuryOikos amount => tc.recordTreasuryOikos amount
  | .treasuryKoin amount => tc.recordTreasuryKoin amount
  | .circulatingKoin amount => tc.recordCirculatingKoin amount
  | .koinMint amount => tc.recordKoinMint amount
  | .koinBurn amount => tc.recordKoinBurn amount

/-- The record moves nothing on one side of a sum only.  Stakes and KOIN that is
minted or burned are entered on both sides. -/
def Record.Balanced (tc : TotalValueConservation) : Record → Prop
  | .mint amount => amount.toNat = 0
  | .burn amount => amount.toNat = 0 ∨ tc.totalCirculatingOikos.toNat = 0
  | .treasuryOikos amount => amount.toNat = 0
  | .treasuryKoin amount => amount.toNat = 0
  | .circulatingKoin amount => amount.toNat = 0
  | .stake _ | .unstake _ | .koinMint _ | .koinBurn _ => True

theorem recordMint_cases (tc : TotalValueConservation) (amount : OikosAmount) :
    (oikosMaxSupply.toNat < tc.minted.toNat + amount.toNat ∧ tc.recordMint amount = (false, tc)) ∨
    ∃ minted total : OikosAmount, minted.toNat = tc.minted.toNat + amount.toNat ∧
      minted.toNat ≤ oikosMaxSupply.toNat ∧
      ((total.toNat = tc.totalOikos.toNat + amount.toNat ∧
          tc.recordMint amount = (true, { tc with minted := minted, totalOikos := total })) ∨
        (2 ^ 128 ≤ tc.totalOikos.toNat + amount.toNat ∧
          tc.recordMint amount = (false, { tc with minted := minted }))) := by
  unfold recordMint
  cases hminted : tc.minted.checkedAdd amount with
  | none =>
    have hfull := OikosAmount.checkedAdd_eq_none.mp hminted
    exact Or.inl ⟨lt_of_lt_of_le oikosMaxSupply.isLt hfull, rfl⟩
  | some minted =>
    have hsum := OikosAmount.checkedAdd_eq_some.mp hminted
    by_cases hcap : oikosMaxSupply < minted.units
    · exact Or.inl ⟨by rw [← hsum]; exact hcap, if_pos hcap⟩
    · simp only [hcap, if_false]
      have hle : minted.toNat ≤ oikosMaxSupply.toNat := by
        rw [BitVec.lt_def] at hcap
        exact Nat.le_of_not_lt hcap
      right
      cases htotal : tc.totalOikos.checkedAdd amount with
      | none =>
        exact ⟨minted, minted, OikosAmount.checkedAdd_eq_some.mp hminted, hle,
          Or.inr ⟨OikosAmount.checkedAdd_eq_none.mp htotal, rfl⟩⟩
      | some total =>
        exact ⟨minted, total, OikosAmount.checkedAdd_eq_some.mp hminted, hle,
          Or.inl ⟨OikosAmount.checkedAdd_eq_some.mp htotal, rfl⟩⟩

theorem recordBurn_cases (tc : TotalValueConservation) (amount : OikosAmount) :
    tc.recordBurn amount = (false, tc) ∨
    ∃ burned circ : OikosAmount, burned.toNat = tc.burned.toNat + amount.toNat ∧
      circ.toNat = tc.totalCirculatingOikos.toNat - amount.toNat ∧
      (tc.recordBurn amount).2 = { tc with burned := burned, totalCirculatingOikos := circ } := by
  unfold recordBurn
  cases hburned : tc.burned.checkedAdd amount with
  | none => exact Or.inl rfl
  | some burned =>
    exact Or.inr ⟨burned, _, OikosAmount.checkedAdd_eq_some.mp hburned,
      toNat_saturatingSub _ _, rfl⟩

theorem recordStake_cases (tc : TotalValueConservation) (amount : OikosAmount) :
    tc.recordStake amount = (false, tc) ∨
    ∃ staked circ : OikosAmount, staked.toNat = tc.totalStaked.toNat + amount.toNat ∧
      tc.totalCirculatingOikos.toNat = circ.toNat + amount.toNat ∧
      tc.recordStake amount =
        (true, { tc with totalStaked := staked, totalCirculatingOikos := circ }) := by
  unfold recordStake
  split
  · next staked circ hstaked hcirc =>
    exact Or.inr ⟨staked, circ, OikosAmount.checkedAdd_eq_some.mp hstaked,
      OikosAmount.checkedSub_eq_some.mp hcirc, rfl⟩
  · exact Or.inl rfl

theorem recordUnstake_cases (tc : TotalValueConservation) (amount : OikosAmount) :
    tc.recordUnstake amount = (false, tc) ∨
    ∃ staked circ : OikosAmount, tc.totalStaked.toNat = staked.toNat + amount.toNat ∧
      circ.toNat = tc.totalCirculatingOikos.toNat + amount.toNat ∧
      tc.recordUnstake amount =
        (true, { tc with totalStaked := staked, totalCirculatingOikos := circ }) := by
  unfold recordUnstake
  split
  · next staked circ hstaked hcirc =>
    exact Or.inr ⟨staked, circ, OikosAmount.checkedSub_eq_some.mp hstaked,
      OikosAmount.checkedAdd_eq_some.mp hcirc, rfl⟩
  · exact Or.inl rfl

theorem recordTreasuryOikos_cases (tc : TotalValueConservation) (amount : OikosAmount) :
    tc.recordTreasuryOikos amount = (false, tc) ∨
    ∃ treasury : OikosAmount, treasury.toNat = tc.totalTreasuryOikos.toNat + amount.toNat ∧
      tc.recordTreasuryOikos amount = (true, { tc with totalTreasuryOikos := treasury }) := by
  unfold recordTreasuryOikos
  split
  · next treasury h => exact Or.inr ⟨treasury, OikosAmount.checkedAdd_eq_some.mp h, rfl⟩
  · exact Or.inl rfl

theorem recordTreasuryKoin_cases (tc : TotalValueConservation) (amount : BitVec 128) :
    tc.recordTreasuryKoin amount = (false, tc) ∨
    ∃ treasury : BitVec 128, treasury.toNat = tc.totalTreasuryKoin.toNat + amount.toNat ∧
      tc.recordTreasuryKoin amount = (true, { tc with totalTreasuryKoin := treasury }) := by
  unfold recordTreasuryKoin
  split
  · next treasury h => exact Or.inr ⟨treasury, checkedAdd_eq_some.mp h, rfl⟩
  · exact Or.inl rfl

theorem recordCirculatingKoin_cases (tc : TotalValueConservation) (amount : BitVec 128) :
    tc.recordCirculatingKoin amount = (false, tc) ∨
    ∃ circ : BitVec 128, circ.toNat = tc.totalCirculatingKoin.toNat + amount.toNat ∧
      tc.recordCirculatingKoin amount = (true, { tc with totalCirculatingKoin := circ }) := by
  unfold recordCirculatingKoin
  split
  · next circ h => exact Or.inr ⟨circ, checkedAdd_eq_some.mp h, rfl⟩
  · exact Or.inl rfl

theorem recordKoinMint_cases (tc : TotalValueConservation) (amount : BitVec 128) :
    tc.recordKoinMint amount = (false, tc) ∨
    ∃ total circ : BitVec 128, total.toNat = tc.totalKoin.toNat + amount.toNat ∧
      circ.toNat = tc.totalCirculatingKoin.toNat + amount.toNat ∧
      tc.recordKoinMint amount =
        (true, { tc with totalKoin := total, totalCirculatingKoin := circ }) := by
  unfold recordKoinMint
  cases htotal : checkedAdd tc.totalKoin amount with
  | none => exact Or.inl rfl
  | some total =>
    cases hcirc : checkedAdd tc.totalCirculatingKoin amount with
    | none => exact Or.inl rfl
    | some circ =>
      exact Or.inr ⟨total, circ, checkedAdd_eq_some.mp htotal, checkedAdd_eq_some.mp hcirc, rfl⟩

theorem recordKoinBurn_cases (tc : TotalValueConservation) (amount : BitVec 128) :
    tc.recordKoinBurn amount = (false, tc) ∨
    ∃ total circ : BitVec 128, tc.totalKoin.toNat = total.toNat + amount.toNat ∧
      tc.totalCirculatingKoin.toNat = circ.toNat + amount.toNat ∧
      tc.recordKoinBurn amount =
        (true, { tc with totalKoin := total, totalCirculatingKoin := circ }) := by
  unfold recordKoinBurn
  cases htotal : checkedSub tc.totalKoin amount with
  | none => exact Or.inl rfl
  | some total =>
    cases hcirc : checkedSub tc.totalCirculatingKoin amount with
    | none => exact Or.inl rfl
    | some circ =>
      exact Or.inr ⟨total, circ, checkedSub_eq_some.mp htotal, checkedSub_eq_some.mp hcirc, rfl⟩

/-- A balanced record keeps value conserved, even if it returns `false`. -/
theorem Conserved.record (h : tc.Conserved) {r : Record} (hr : r.Balanced tc) :
    (tc.record r).2.Conserved := by
  obtain ⟨hoikos, hkoin, hsupply⟩ := id h
  cases r with
  | mint amount =>
    simp only [Record.Balanced] at hr
    rcases tc.recordMint_cases amount with ⟨-, heq⟩ |
      ⟨minted, total, hm, hcap, ⟨ht, heq⟩ | ⟨-, heq⟩⟩
    · rwa [TotalValueConservation.record, heq]
    · rw [TotalValueConservation.record, heq]
      constructor <;> dsimp only <;> omega
    · rw [TotalValueConservation.record, heq]
      constructor <;> dsimp only <;> omega
  | burn amount =>
    simp only [Record.Balanced] at hr
    rcases tc.recordBurn_cases amount with heq | ⟨burned, circ, hb, hc, heq⟩
    · rwa [TotalValueConservation.record, heq]
    · rw [TotalValueConservation.record, heq]
      constructor <;> dsimp only <;> omega
  | stake amount =>
    rcases tc.recordStake_cases amount with heq | ⟨staked, circ, hs, hc, heq⟩
    · rwa [TotalValueConservation.record, heq]
    · rw [TotalValueConservation.record, heq]
      constructor <;> dsimp only <;> omega
  | unstake amount =>
    rcases tc.recordUnstake_cases amount with heq | ⟨staked, circ, hs, hc, heq⟩
    · rwa [TotalValueConservation.record, heq]
    · rw [TotalValueConservation.record, heq]
      constructor <;> dsimp only <;> omega
  | treasuryOikos amount =>
    simp only [Record.Balanced] at hr
    rcases tc.recordTreasuryOikos_cases amount with heq | ⟨treasury, ht, heq⟩
    · rwa [TotalValueConservation.record, heq]
    · rw [TotalValueConservation.record, heq]
      constructor <;> dsimp only <;> omega
  | treasuryKoin amount =>
    simp only [Record.Balanced] at hr
    rcases tc.recordTreasuryKoin_cases amount with heq | ⟨treasury, ht, heq⟩
    · rwa [TotalValueConservation.record, heq]
    · rw [TotalValueConservation.record, heq]
      constructor <;> dsimp only <;> omega
  | circulatingKoin amount =>
    simp only [Record.Balanced] at hr
    rcases tc.recordCirculatingKoin_cases amount with heq | ⟨circ, hc, heq⟩
    · rwa [TotalValueConservation.record, heq]
    · rw [TotalValueConservation.record, heq]
      constructor <;> dsimp only <;> omega
  | koinMint amount =>
    rcases tc.recordKoinMint_cases amount with heq | ⟨total, circ, ht, hc, heq⟩
    · rwa [TotalValueConservation.record, heq]
    · rw [TotalValueConservation.record, heq]
      constructor <;> dsimp only <;> omega
  | koinBurn amount =>
    rcases tc.recordKoinBurn_cases amount with heq | ⟨total, circ, ht, hc, heq⟩
    · rwa [TotalValueConservation.record, heq]
    · rw [TotalValueConservation.record, heq]
      constructor <;> dsimp only <;> omega

/-- A record that returns `true` and keeps value conserved was balanced. -/
theorem Conserved.balanced_of_record (h : tc.Conserved) {r : Record}
    (hrec : (tc.record r).1 = true) (hafter : (tc.record r).2.Conserved) : r.Balanced tc := by
  have hoikos := h.oikos
  have hkoin := h.koin
  cases r with
  | mint amount =>
    rcases tc.recordMint_cases amount with ⟨-, heq⟩ |
      ⟨minted, total, hm, hcap, ⟨ht, heq⟩ | ⟨-, heq⟩⟩
    · rw [TotalValueConservation.record, heq] at hrec
      cases hrec
    · rw [TotalValueConservation.record, heq] at hafter
      have hsum := hafter.oikos
      simp only [Record.Balanced]
      dsimp only at hsum
      omega
    · rw [TotalValueConservation.record, heq] at hrec
      cases hrec
  | burn amount =>
    rcases tc.recordBurn_cases amount with heq | ⟨burned, circ, hb, hc, heq⟩
    · rw [TotalValueConservation.record, heq] at hrec
      cases hrec
    · rw [TotalValueConservation.record, heq] at hafter
      have hsum := hafter.oikos
      simp only [Record.Balanced]
      dsimp only at hsum
      omega
  | treasuryOikos amount =>
    rcases tc.recordTreasuryOikos_cases amount with heq | ⟨treasury, ht, heq⟩
    · rw [TotalValueConservation.record, heq] at hrec
      cases hrec
    · rw [TotalValueConservation.record, heq] at hafter
      have hsum := hafter.oikos
      simp only [Record.Balanced]
      dsimp only at hsum
      omega
  | treasuryKoin amount =>
    rcases tc.recordTreasuryKoin_cases amount with heq | ⟨treasury, ht, heq⟩
    · rw [TotalValueConservation.record, heq] at hrec
      cases hrec
    · rw [TotalValueConservation.record, heq] at hafter
      have hsum := hafter.koin
      simp only [Record.Balanced]
      dsimp only at hsum
      omega
  | circulatingKoin amount =>
    rcases tc.recordCirculatingKoin_cases amount with heq | ⟨circ, hc, heq⟩
    · rw [TotalValueConservation.record, heq] at hrec
      cases hrec
    · rw [TotalValueConservation.record, heq] at hafter
      have hsum := hafter.koin
      simp only [Record.Balanced]
      dsimp only at hsum
      omega
  | stake => trivial
  | unstake => trivial
  | koinMint => trivial
  | koinBurn => trivial

/-! ### Runs -/

/-- The tracker after the records, made one after another. -/
def recordAll (tc : TotalValueConservation) (records : List Record) : TotalValueConservation :=
  records.foldl (fun tc r => (tc.record r).2) tc

/-- Every record of a run is one that the ledger can balance. -/
def AllBalanced : TotalValueConservation → List Record → Prop
  | _, [] => True
  | tc, r :: records => r.Balanced tc ∧ AllBalanced (tc.record r).2 records

theorem Conserved.recordAll {records : List Record} (h : tc.Conserved)
    (hrecords : tc.AllBalanced records) : (tc.recordAll records).Conserved := by
  induction records generalizing tc with
  | nil => exact h
  | cons r records ih => exact ih (h.record hrecords.1) hrecords.2

theorem conserved_new : new.Conserved :=
  checkFullInvariant_iff.mp (by decide)

/-- From a state in which value is conserved, a record that succeeds keeps it so
exactly when it is balanced; and value is conserved throughout every run of
balanced records. -/
theorem records_conserve_iff_balanced (records : List Record) :
    (∀ r, ((new.recordAll records).record r).1 = true →
        (new.recordAll records).checkFullInvariant = true →
        (((new.recordAll records).record r).2.checkFullInvariant = true ↔
          r.Balanced (new.recordAll records))) ∧
      (new.AllBalanced records → (new.recordAll records).checkFullInvariant = true) := by
  simp only [checkFullInvariant_iff]
  constructor
  · intro r hrec hbefore
    exact ⟨hbefore.balanced_of_record hrec, hbefore.record⟩
  · exact conserved_new.recordAll

/-- A first mint of 1000 units succeeds and breaks the sum of the OIKOS. -/
theorem mint_breaks_conservation :
    new.checkFullInvariant = true ∧ (new.record (.mint ⟨1000⟩)).1 = true ∧
      (new.record (.mint ⟨1000⟩)).2.checkFullInvariant = false := by
  decide

end TotalValueConservation

end Oikos.Koinon
