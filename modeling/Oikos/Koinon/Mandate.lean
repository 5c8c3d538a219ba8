/-
Agent mandates of `koinon-mandates`: a principal's budgets, scopes and contract list for
an agent.  Spending is recorded against the budgets, and checked beforehand in another way.
-/
import Oikos.Koinon.Ledger

namespace Oikos.Koinon

section Mandates

abbrev MandateId := UInt64

structure ContractAddress where
  address : String
deriving Repr, DecidableEq

/-- What a mandate may allow its agent. -/
inductive MandateScope where
  | transferOikos
  | transferKoin
  | mintKoin
  | burnKoin
  | escrowManage
  | streamManage
  | rfpPublish
  | rfpRespond
  | delegateTo (did : String)
  | custom (name : String)
deriving Repr, DecidableEq

/-- A principal's mandate, with what has been spent under it. -/
structure AgentMandate where
  id : MandateId
  did : String
  principalDid : String
  agentDid : String
  oikosBudget : OikosAmount
  oikosSpent : OikosAmount
  koinBudget : KoinAmount
  koinSpent : KoinAmount
  scopes : List MandateScope
  allowedContracts : List ContractAddress
  timeBound : Option UInt64
  active : Bool
deriving DecidableEq

namespace AgentMandate

/-- What is left of the budget, unless it is overspent. -/
def oikosRemaining (mandate : AgentMandate) : Option OikosAmount :=
  mandate.oikosBudget.checkedSub mandate.oikosSpent

def koinRemaining (mandate : AgentMandate) : Option KoinAmount :=
  (mandate.koinBudget.checkedSub mandate.koinSpent).bind fun r =>
    if r.isNegative then none else some r

end AgentMandate

/-! ### Enforcement -/

inductive EnforcementError where
  | mandateInactive
  | mandateExpired
  | oikosBudgetExceeded (remaining requested : BitVec 128)
  | koinBudgetExceeded (remaining requested : BitVec 128)
  | scopeNotAllowed (scope : MandateScope)
  | contractNotAllowed (contract : ContractAddress)
deriving DecidableEq

/-- A cost of zero is within every budget. -/
def checkOikosBudget (mandate : AgentMandate) (oikosCost : BitVec 128) :
    Except EnforcementError Unit :=
  if 0 < oikosCost then
    match mandate.oikosRemaining with
    | none => .error (.oikosBudgetExceeded 0 oikosCost)
    | some remaining =>
      if remaining.units < oikosCost then
        .error (.oikosBudgetExceeded remaining.units oikosCost)
      else .ok ()
  else .ok ()

def checkKoinBudget (mandate : AgentMandate) (koinCost : BitVec 128) :
    Except EnforcementError Unit :=
  if (0#128).slt koinCost then
    match mandate.koinRemaining with
    | none => .error (.koinBudgetExceeded 0 koinCost)
    | some remaining =>
      if remaining.units.slt koinCost then
        .error (.koinBudgetExceeded remaining.units koinCost)
      else .ok ()
  else .ok ()

def checkBudget (mandate : AgentMandate) (oikosCost koinCost : BitVec 128) :
    Except EnforcementError Unit :=
  if !mandate.active then .error .mandateInactive
  else (checkOikosBudget mandate oikosCost).bind fun _ => checkKoinBudget mandate koinCost

/-- Whether the time bound has passed; the bound itself is within it. -/
def AgentMandate.expired (mandate : AgentMandate) (currentTime : UInt64) : Bool :=
  mandate.timeBound.any (· < currentTime)

def checkBudgetWithTime (mandate : AgentMandate) (oikosCost koinCost : BitVec 128)
    (currentTime : UInt64) : Except EnforcementError Unit :=
  if !mandate.active then .error .mandateInactive
  else if mandate.expired currentTime then .error .mandateExpired
  else checkBudget mandate oikosCost koinCost

def checkScope (mandate : AgentMandate) (required : MandateScope) : Except EnforcementError Unit :=
  if !mandate.active then .error .mandateInactive
  else if required ∈ mandate.scopes then .ok ()
  else .error (.scopeNotAllowed required)

/-- An empty list of contracts allows all of them. -/
def checkContract (mandate : AgentMandate) (contract : ContractAddress) :
    Except EnforcementError Unit :=
  if !mandate.active then .error .mandateInactive
  else if mandate.allowedContracts.isEmpty then .ok ()
  else if contract ∈ mandate.allowedContracts then .ok ()
  else .error (.contractNotAllowed contract)

def checkAll (mandate : AgentMandate) (oikosCost koinCost : BitVec 128)
    (contract : ContractAddress) (currentTime : UInt64) : Except EnforcementError Unit :=
  (checkBudgetWithTime mandate oikosCost koinCost currentTime).bind fun _ =>
    checkContract mandate contract

/-! ### Decisions -/

/-- Two mandates allow the same. -/
structure SamePermissions (m m' : AgentMandate) : Prop where
  scope : ∀ required, (checkScope m required).isOk = (checkScope m' required).isOk
  contract : ∀ address, (checkContract m address).isOk = (checkContract m' address).isOk
  all : ∀ oikosCost koinCost address currentTime,
    (checkAll m oikosCost koinCost address currentTime).isOk =
      (checkAll m' oikosCost koinCost address currentTime).isOk

variable {m m' : AgentMandate}

theorem isOk_checkScope (m : AgentMandate) (required : MandateScope) :
    (checkScope m required).isOk = true ↔ m.active = true ∧ required ∈ m.scopes := by
  unfold checkScope
  cases m.active with
  | false => simp [Except.isOk, Except.toBool]
  | true =>
    by_cases h : required ∈ m.scopes
    · simp [h, Except.isOk, Except.toBool]
    · simp [h, Except.isOk, Except.toBool]

theorem isOk_checkContract (m : AgentMandate) (contract : ContractAddress) :
    (checkContract m contract).isOk = true ↔
      m.active = true ∧ (m.allowedContracts = [] ∨ contract ∈ m.allowedContracts) := by
  unfold checkContract
  cases m.active with
  | false => simp [Except.isOk, Except.toBool]
  | true =>
    by_cases hnil : m.allowedContracts = []
    · simp [hnil, Except.isOk, Except.toBool]
    · by_cases h : contract ∈ m.allowedContracts
      · simp [hnil, h, Except.isOk, Except.toBool]
      · simp [hnil, h, Except.isOk, Except.toBool]

theorem samePermissions_of_inactive (h : m.active = false) (h' : m'.active = false) :
    SamePermissions m m' := by
  constructor
  · intro required
    simp [checkScope, h, h', Except.isOk, Except.toBool]
  · intro address
    simp [checkContract, h, h', Except.isOk, Except.toBool]
  · intro oikosCost koinCost address currentTime
    simp [checkAll, checkBudgetWithTime, h, h', Except.bind, Except.isOk, Except.toBool]

end Mandates

section Budgets

def KoinAmount.checkedAdd (a b : KoinAmount) : Option KoinAmount :=
  if a.units.saddOverflow b.units then none else some ⟨a.units + b.units⟩

structure MandateConfig where
  did : String
  principalDid : String
  agentDid : String
  oikosBudget : OikosAmount
  koinBudget : KoinAmount
  scopes : List MandateScope
  allowedContracts : List ContractAddress
  timeBound : Option UInt64

namespace AgentMandate

def create (id : MandateId) (config : MandateConfig) : AgentMandate where
  id := id
  did := config.did
  principalDid := config.principalDid
  agentDid := config.agentDid
  oikosBudget := config.oikosBudget
  oikosSpent := ⟨0⟩
  koinBudget := config.koinBudget
  koinSpent := .zero
  scopes := config.scopes
  allowedContracts := config.allowedContracts
  timeBound := config.timeBound
  active := true

/-- Spending under an inactive mandate, or beyond the budget, is refused. -/
def recordOikosSpend (mandate : AgentMandate) (amount : OikosAmount) : Bool × AgentMandate :=
  if !mandate.active then (false, mandate)
  else
    match mandate.oikosRemaining with
    | none => (false, mandate)
    | some remaining =>
      if amount.units ≤ remaining.units then
        match mandate.oikosSpent.checkedAdd amount with
        | some newSpent => (true, { mandate with oikosSpent := newSpent })
        | none => (false, mandate)
      else (false, mandate)

def recordKoinSpend (mandate : AgentMandate) (amount : KoinAmount) : Bool × AgentMandate :=
  if !mandate.active || amount.isNegative then (false, mandate)
  else
    match mandate.koinSpent.checkedAdd amount with
    | none => (false, mandate)
    | some newSpent =>
      if newSpent.units.sle mandate.koinBudget.units then
        (true, { mandate with koinSpent := newSpent })
      else (false, mandate)

def revoke (mandate : AgentMandate) : AgentMandate :=
  { mandate with active := false }

def addAllowedContract (mandate : AgentMandate) (contract : ContractAddress) : AgentMandate :=
  if contract ∈ mandate.allowedContracts then mandate
  else { mandate with allowedContracts := mandate.allowedContracts ++ [contract] }

/-- The calls that change a mandate. -/
inductive Change where
  | recordOikosSpend (amount : OikosAmount)
  | recordKoinSpend (amount : KoinAmount)
  | revoke
  | addAllowedContract (contract : ContractAddress)

def change (mandate : AgentMandate) : Change → AgentMandate
  | .recordOikosSpend amount => (mandate.recordOikosSpend amount).2
  | .recordKoinSpend amount => (mandate.recordKoinSpend amount).2
  | .revoke => mandate.revoke
  | .addAllowedContract contract => mandate.addAllowedContract contract

end AgentMandate

/-! ### Signed amounts -/

namespace KoinAmount

variable {a b c : KoinAmount}

theorem isNegative_iff : a.isNegative = true ↔ a.units.toInt < 0 := by
  rw [isNegative, BitVec.slt_iff_toInt_lt]
  rfl

theorem eq_of_toInt (h : a.units.toInt = b.units.toInt) : a = b := by
  cases a
  cases b
  exact congrArg KoinAmount.mk (BitVec.toInt_inj.mp h)

theorem checkedAdd_eq_some :
    a.checkedAdd b = some c ↔ c.units.toInt = a.units.toInt + b.units.toInt := by
  unfold checkedAdd
  split
  · next hover =>
    have hlow := BitVec.le_toInt c.units
    have hhigh := BitVec.toInt_lt (x := c.units)
    simp only [BitVec.saddOverflow, Bool.or_eq_true, decide_eq_true_eq] at hover
    constructor
    · intro h
      cases h
    · intro h
      omega
  · next hover =>
    have hsum := BitVec.toInt_add_of_not_saddOverflow hover
    constructor
    · intro h
      cases h
      exact hsum
    · intro h
      exact congrArg some (eq_of_toInt (hsum.trans h.symm))

theorem checkedSub_eq_some :
    a.checkedSub b = some c ↔ c.units.toInt = a.units.toInt - b.units.toInt := by
  unfold checkedSub
  split
  · next hover =>
    have hlow := BitVec.le_toInt c.units
    have hhigh := BitVec.toInt_lt (x := c.units)
    simp only [BitVec.ssubOverflow, Bool.or_eq_true, decide_eq_true_eq] at hover
    constructor
    · intro h
      cases h
    · intro h
      omega
  · next hover =>
    have hdiff := BitVec.toInt_sub_of_not_ssubOverflow hover
    constructor
    · intro h
      cases h
      exact hdiff
    · intro h
      exact congrArg some (eq_of_toInt (hdiff.trans h.symm))

theorem exists_units {n : Int} (hlow : -2 ^ 127 ≤ n) (hhigh : n < 2 ^ 127) :
    ∃ c : KoinAmount, c.units.toInt = n :=
  ⟨⟨BitVec.ofInt 128 n⟩, BitVec.toInt_ofInt_eq_self (by decide) hlow hhigh⟩

end KoinAmount

namespace AgentMandate

variable {m : AgentMandate} {o : OikosAmount} {k : KoinAmount} {c : Change}

/-! ### Spending -/

/-- What is spent is within the budgets; a negative KOIN budget leaves nothing to
spend. -/
structure Solvent (m : AgentMandate) : Prop where
  oikos : m.oikosSpent.toNat ≤ m.oikosBudget.toNat
  spent_nonneg : 0 ≤ m.koinSpent.units.toInt
  koin : m.koinSpent.units.toInt = 0 ∨ m.koinSpent.units.toInt ≤ m.koinBudget.units.toInt

theorem solvent_create (id : MandateId) (config : MandateConfig) : Solvent (create id config) :=
  ⟨Nat.zero_le _, le_rfl, Or.inl rfl⟩

/-- A spend of OIKOS that stays within the budget. -/
def OikosFits (m : AgentMandate) (o : OikosAmount) : Prop :=
  m.active = true ∧ m.oikosSpent.toNat + o.toNat ≤ m.oikosBudget.toNat

/-- A spend of KOIN that is not negative and stays within the budget. -/
def KoinFits (m : AgentMandate) (k : KoinAmount) : Prop :=
  m.active = true ∧ 0 ≤ k.units.toInt ∧
    m.koinSpent.units.toInt + k.units.toInt ≤ m.koinBudget.units.toInt

theorem oikosRemaining_eq (h : m.Solvent) :
    ∃ r : OikosAmount, m.oikosRemaining = some r ∧
      r.toNat + m.oikosSpent.toNat = m.oikosBudget.toNat := by
  cases hr : m.oikosRemaining with
  | none => exact absurd (OikosAmount.checkedSub_eq_none.mp hr) (not_lt.mpr h.oikos)
  | some r => exact ⟨r, rfl, (OikosAmount.checkedSub_eq_some.mp hr).symm⟩

theorem recordOikosSpend_cases (h : m.Solvent) (o : OikosAmount) :
    (m.OikosFits o ∧ ∃ spent : OikosAmount, spent.toNat = m.oikosSpent.toNat + o.toNat ∧
      m.recordOikosSpend o = (true, { m with oikosSpent := spent })) ∨
    (¬ m.OikosFits o ∧ m.recordOikosSpend o = (false, m)) := by
  obtain ⟨r, hr, hsum⟩ := oikosRemaining_eq h
  cases hactive : m.active with
  | false =>
    refine Or.inr ⟨fun hfits => by simp [hfits.1] at hactive, ?_⟩
    simp [recordOikosSpend, hactive]
  | true =>
    by_cases hle : o.units ≤ r.units
    · have hnat : o.toNat ≤ r.toNat := hle
      have hbudget := m.oikosBudget.toNat_lt
      cases hadd : m.oikosSpent.checkedAdd o with
      | none =>
        have hover := OikosAmount.checkedAdd_eq_none.mp hadd
        omega
      | some spent =>
        have hspent := OikosAmount.checkedAdd_eq_some.mp hadd
        refine Or.inl ⟨⟨hactive, by omega⟩, spent, hspent, ?_⟩
        simp [recordOikosSpend, hactive, hr, hle, hadd]
    · have hnat : ¬ o.toNat ≤ r.toNat := hle
      refine Or.inr ⟨fun hfits => ?_, ?_⟩
      · have hfit := hfits.2
        omega
      · simp [recordOikosSpend, hactive, hr, hle]

theorem recordKoinSpend_cases (h : m.Solvent) (k : KoinAmount) :
    (m.KoinFits k ∧ ∃ spent : KoinAmount,
      spent.units.toInt = m.koinSpent.units.toInt + k.units.toInt ∧
      m.recordKoinSpend k = (true, { m with koinSpent := spent })) ∨
    (¬ m.KoinFits k ∧ m.recordKoinSpend k = (false, m)) := by
  cases hactive : m.active with
  | false =>
    refine Or.inr ⟨fun hfits => by simp [hfits.1] at hactive, ?_⟩
    simp [recordKoinSpend, hactive]
  | true =>
    by_cases hneg : k.isNegative = true
    · have hlt := KoinAmount.isNegative_iff.mp hneg
      refine Or.inr ⟨fun hfits => absurd hfits.2.1 (Int.not_le.mpr hlt), ?_⟩
      simp [recordKoinSpend, hneg]
    · have hnonneg : 0 ≤ k.units.toInt := by
        rw [KoinAmount.isNegative_iff] at hneg
        exact Int.not_lt.mp hneg
      have hbudget := BitVec.toInt_lt (x := m.koinBudget.units)
      have hspent := h.spent_nonneg
      cases hadd : m.koinSpent.checkedAdd k with
      | none =>
        refine Or.inr ⟨fun hfits => ?_, ?_⟩
        · have hfit := hfits.2.2
          obtain ⟨c, hc⟩ := @KoinAmount.exists_units
            (m.koinSpent.units.toInt + k.units.toInt) (by omega) (by omega)
          simp [KoinAmount.checkedAdd_eq_some.mpr hc] at hadd
        · simp [recordKoinSpend, hactive, hneg, hadd]
      | some spent =>
        have hsum := KoinAmount.checkedAdd_eq_some.mp hadd
        by_cases hle : spent.units.sle m.koinBudget.units = true
        · refine Or.inl ⟨⟨hactive, hnonneg, ?_⟩, spent, hsum, ?_⟩
          · rw [← hsum]
            exact BitVec.sle_iff_toInt_le.mp hle
          · simp [recordKoinSpend, hactive, hneg, hadd, hle]
        · refine Or.inr ⟨fun hfits => ?_, ?_⟩
          · rw [BitVec.sle_iff_toInt_le, hsum] at hle
            exact hle hfits.2.2
          · simp [recordKoinSpend, hactive, hneg, hadd, hle]

theorem recordOikosSpend_iff (h : m.Solvent) : (m.recordOikosSpend o).1 = true ↔ m.OikosFits o := by
  rcases recordOikosSpend_cases h o with ⟨hfits, spent, _, heq⟩ | ⟨hnot, heq⟩
  · simp [heq, hfits]
  · simp [heq, hnot]

theorem recordKoinSpend_iff (h : m.Solvent) : (m.recordKoinSpend k).1 = true ↔ m.KoinFits k := by
  rcases recordKoinSpend_cases h k with ⟨hfits, spent, _, heq⟩ | ⟨hnot, heq⟩
  · simp [heq, hfits]
  · simp [heq, hnot]

theorem Solvent.change (h : m.Solvent) (c : Change) : (m.change c).Solvent := by
  cases c with
  | recordOikosSpend o =>
    rcases recordOikosSpend_cases h o with ⟨hfits, spent, hspent, heq⟩ | ⟨_, heq⟩
    · rw [AgentMandate.change, heq]
      exact ⟨hspent.trans_le hfits.2, h.spent_nonneg, h.koin⟩
    · rw [AgentMandate.change, heq]
      exact h
  | recordKoinSpend k =>
    rcases recordKoinSpend_cases h k with ⟨hfits, spent, hspent, heq⟩ | ⟨_, heq⟩
    · rw [AgentMandate.change, heq]
      refine ⟨h.oikos, ?_, Or.inr (hspent.trans_le hfits.2.2)⟩
      dsimp only
      rw [hspent]
      exact Int.add_nonneg h.spent_nonneg hfits.2.1
    · rw [AgentMandate.change, heq]
      exact h
  | revoke => exact ⟨h.oikos, h.spent_nonneg, h.koin⟩
  | addAllowedContract contract =>
    change (m.addAllowedContract contract).Solvent
    unfold addAllowedContract
    split
    · exact h
    · exact ⟨h.oikos, h.spent_nonneg, h.koin⟩

/-! ### Checking beforehand -/

theorem isOk_checkOikosBudget (h : m.Solvent) :
    (checkOikosBudget m o.units).isOk = true ↔
      m.oikosSpent.toNat + o.toNat ≤ m.oikosBudget.toNat := by
  obtain ⟨r, hr, hsum⟩ := oikosRemaining_eq h
  have hle := h.oikos
  unfold checkOikosBudget
  split
  · next hpos =>
    simp only [hr]
    split
    · next hlt =>
      have hnat : r.toNat < o.toNat := hlt
      simp only [Except.isOk, Except.toBool, Bool.false_eq_true, false_iff]
      omega
    · next hge =>
      have hnat : ¬ r.toNat < o.toNat := hge
      simp only [Except.isOk, Except.toBool, true_iff]
      omega
  · next hzero =>
    have hnat : ¬ 0 < o.toNat := hzero
    simp only [Except.isOk, Except.toBool, true_iff]
    omega

theorem isOk_checkKoinBudget (h : m.Solvent) :
    (checkKoinBudget m k.units).isOk = true ↔ (0 < k.units.toInt →
      m.koinSpent.units.toInt + k.units.toInt ≤ m.koinBudget.units.toInt) := by
  unfold checkKoinBudget
  split
  · next hpos =>
    have hpos' : 0 < k.units.toInt := BitVec.slt_iff_toInt_lt.mp hpos
    cases hsub : m.koinBudget.checkedSub m.koinSpent with
    | none =>
      have hrest : m.koinBudget.units.toInt < m.koinSpent.units.toInt := by
        by_contra hle
        have hlow := BitVec.le_toInt m.koinBudget.units
        have hhigh := BitVec.toInt_lt (x := m.koinBudget.units)
        have hnonneg := h.spent_nonneg
        obtain ⟨c, hc⟩ := @KoinAmount.exists_units
          (m.koinBudget.units.toInt - m.koinSpent.units.toInt) (by omega) (by omega)
        simp [KoinAmount.checkedSub_eq_some.mpr hc] at hsub
      simp only [koinRemaining, hsub, Option.bind_none, Except.isOk, Except.toBool,
        Bool.false_eq_true, false_iff]
      omega
    | some r =>
      have hdiff := KoinAmount.checkedSub_eq_some.mp hsub
      by_cases hneg : r.isNegative = true
      · have hlt := KoinAmount.isNegative_iff.mp hneg
        simp only [koinRemaining, hsub, Option.bind_some, hneg, if_true, Except.isOk, Except.toBool,
          Bool.false_eq_true, false_iff]
        omega
      · simp only [koinRemaining, hsub, Option.bind_some, hneg, Bool.false_eq_true, if_false]
        split
        · next hlt =>
          have hlt' := BitVec.slt_iff_toInt_lt.mp hlt
          simp only [Except.isOk, Except.toBool, Bool.false_eq_true, false_iff]
          omega
        · next hge =>
          have hge' : ¬ r.units.toInt < k.units.toInt := fun hlt =>
            hge (BitVec.slt_iff_toInt_lt.mpr hlt)
          simp only [Except.isOk, Except.toBool, true_iff]
          omega
  · next hpos =>
    have hpos' : ¬ 0 < k.units.toInt := fun hlt => hpos (BitVec.slt_iff_toInt_lt.mpr hlt)
    simp [Except.isOk, Except.toBool, hpos']

theorem isOk_checkBudget (m : AgentMandate) (o k : BitVec 128) :
    (checkBudget m o k).isOk = true ↔ m.active = true ∧ (checkOikosBudget m o).isOk = true ∧
      (checkKoinBudget m k).isOk = true := by
  unfold checkBudget
  cases m.active with
  | false => simp [Except.isOk, Except.toBool]
  | true =>
    cases checkOikosBudget m o with
    | error e => simp [Except.bind, Except.isOk, Except.toBool]
    | ok u => simp [Except.bind, Except.isOk, Except.toBool]

/-- Checking beforehand answers what recording the spends one after the other does. -/
def Agrees (m : AgentMandate) (o : OikosAmount) (k : KoinAmount) : Prop :=
  (checkBudget m o.units k.units).isOk = true ↔
    (m.recordOikosSpend o).1 = true ∧ (m.recordKoinSpend k).1 = true

/-- Nothing can be spent, or the KOIN cost is positive, or it is zero and the budget
is not negative. -/
def Plain (m : AgentMandate) (o : OikosAmount) (k : KoinAmount) : Prop :=
  m.active = false ∨ m.oikosBudget.toNat < m.oikosSpent.toNat + o.toNat ∨ 0 < k.units.toInt ∨
    k.units.toInt = 0 ∧ 0 ≤ m.koinBudget.units.toInt

theorem agrees_iff (h : m.Solvent) : m.Agrees o k ↔ m.Plain o k := by
  rw [Agrees, isOk_checkBudget, isOk_checkOikosBudget h, isOk_checkKoinBudget h,
    recordOikosSpend_iff h, recordKoinSpend_iff h, OikosFits, KoinFits, Plain]
  have hnonneg := h.spent_nonneg
  have hkoin := h.koin
  cases m.active with
  | false => simp
  | true =>
    simp only [true_and, Bool.true_eq_false, false_or]
    omega

/-- A mandate after these calls. -/
def after (id : MandateId) (config : MandateConfig) (changes : List Change) : AgentMandate :=
  changes.foldl change (create id config)

theorem solvent_after (id : MandateId) (config : MandateConfig) (changes : List Change) :
    (after id config changes).Solvent :=
  visited_preserve (solvent_create id config) (fun _ c h => h.change c) _ foldl_mem_visited

/-- In every state of a mandate, the check agrees with the records exactly on plain
costs; OIKOS is never overspent, and KOIN only by a budget that starts negative. -/
theorem budget_check_agrees (id : MandateId) (config : MandateConfig) (changes : List Change) :
    (∀ o k, (after id config changes).Agrees o k ↔ (after id config changes).Plain o k) ∧
      (after id config changes).oikosSpent.toNat ≤ (after id config changes).oikosBudget.toNat ∧
      ((after id config changes).koinSpent.units.toInt ≤
          (after id config changes).koinBudget.units.toInt ↔
        0 ≤ (after id config changes).koinBudget.units.toInt) := by
  have hsolvent := solvent_after id config changes
  refine ⟨fun o k => agrees_iff hsolvent, hsolvent.oikos, ?_⟩
  have hnonneg := hsolvent.spent_nonneg
  have hkoin := hsolvent.koin
  omega

/-- A mandate with a KOIN budget of `koin`, and nothing else. -/
def koinMandate (koin : BitVec 128) : AgentMandate :=
  create 1 ⟨"", "", "", ⟨0⟩, ⟨koin⟩, [], [], none⟩

/-- The check lets a negative cost pass that cannot be recorded, and one of zero
against a negative budget, which is overspent from the start. -/
theorem negative_cost_passes :
    ¬ (koinMandate 500).Agrees ⟨0⟩ ⟨-1⟩ ∧ ¬ (koinMandate (-1)).Agrees ⟨0⟩ ⟨0⟩ ∧
      ¬ (koinMandate (-1)).koinSpent.units.toInt ≤ (koinMandate (-1)).koinBudget.units.toInt := by
  refine ⟨?_, ?_, by decide⟩
  · intro h
    exact absurd (h.mp (by decide)).2 (by decide)
  · intro h
    exact absurd (h.mp (by decide)).2 (by decide)

end AgentMandate

end Budgets

end Oikos.Koinon
