/-
The escrows of `koinon-escrow`: an amount held until its conditions let it go, the
calls that release, dispute or refund it, and what a multi-signature condition counts.
-/
import Mathlib.Algebra.BigOperators.Group.List.Lemmas
import Mathlib.Data.List.Dedup
import Mathlib.Data.List.Perm.Subperm
import Oikos.Koinon.Dag

namespace Oikos.Koinon

open List

abbrev EscrowId := UInt64

inductive EscrowState where
  | funded
  | released
  | disputed
  | refunded
  | completed
deriving Repr, DecidableEq

/-- The errors of the calls modelled here; three more of the source are never raised by them. -/
inductive EscrowError where
  | alreadyFinalized
  | conditionsNotSatisfied
  | cannotDispute
deriving Repr, DecidableEq

inductive EscrowCondition where
  | timeLock (lockTime : UInt64)
  | multiSig (required : UInt32) (signers : List AccountId)
  | oracle (name : String)
deriving Repr, DecidableEq

def EscrowCondition.once : EscrowCondition → EscrowCondition
  | .multiSig required signers => .multiSig required signers.dedup
  | condition => condition

structure Escrow where
  id : EscrowId
  sender : AccountId
  receiver : AccountId
  oikosAmount : OikosAmount
  koinAmount : KoinAmount
  state : EscrowState
  conditions : List EscrowCondition
deriving DecidableEq

namespace Escrow

def new (id : EscrowId) (sender receiver : AccountId) (oikosAmount : OikosAmount)
    (koinAmount : KoinAmount) : Escrow :=
  ⟨id, sender, receiver, oikosAmount, koinAmount, .funded, []⟩

def addCondition (e : Escrow) (condition : EscrowCondition) : Escrow :=
  { e with conditions := e.conditions ++ [condition] }

def canRelease (e : Escrow) : Bool :=
  e.state == .funded

/-- `approvals.iter().filter(|a| signers.contains(a)).count() as u32`. -/
def approvalsCount (signers approvals : List AccountId) : UInt32 :=
  UInt32.ofNat (approvals.filter fun a => signers.contains a).length

def conditionMet (currentTime : UInt64) (approvals : List AccountId) : EscrowCondition → Bool
  | .timeLock lockTime => lockTime ≤ currentTime
  | .multiSig required signers => required ≤ approvalsCount signers approvals
  | .oracle _ => true

def evaluateConditions (e : Escrow) (currentTime : UInt64) (approvals : List AccountId) : Bool :=
  e.conditions.all (conditionMet currentTime approvals)

def dispute (e : Escrow) : Except EscrowError Escrow :=
  if e.state ≠ .funded then .error .cannotDispute else .ok { e with state := .disputed }

/-- A release that looks at no condition. -/
def release (e : Escrow) : Except EscrowError Escrow :=
  if !e.canRelease then .error .alreadyFinalized else .ok { e with state := .completed }

def releaseChecked (e : Escrow) (currentTime : UInt64) (approvals : List AccountId) :
    Except EscrowError Escrow :=
  if !e.canRelease then .error .alreadyFinalized
  else if !e.evaluateConditions currentTime approvals then .error .conditionsNotSatisfied
  else .ok { e with state := .completed }

def refund (e : Escrow) : Except EscrowError Escrow :=
  match e.state with
  | .funded | .disputed => .ok { e with state := .refunded }
  | _ => .error .alreadyFinalized

variable {e : Escrow} {currentTime : UInt64} {approvals signers : List AccountId}

/-! ### Thresholds -/

def Backed (required : UInt32) (signers approvals : List AccountId) : Prop :=
  ∃ accounts : List AccountId, accounts.Nodup ∧ required.toNat ≤ accounts.length ∧
    ∀ a ∈ accounts, a ∈ signers ∧ a ∈ approvals

def approvers (signers approvals : List AccountId) : List AccountId :=
  approvals.dedup.filter fun a => signers.contains a

theorem mem_approvers {a : AccountId} :
    a ∈ approvers signers approvals ↔ a ∈ signers ∧ a ∈ approvals := by
  rw [approvers, mem_filter, mem_dedup, contains_iff_mem, and_comm]

theorem nodup_approvers : (approvers signers approvals).Nodup :=
  (nodup_dedup approvals).filter _

theorem backed_iff {required : UInt32} :
    Backed required signers approvals ↔ required.toNat ≤ (approvers signers approvals).length := by
  constructor
  · rintro ⟨accounts, hnodup, hlength, hall⟩
    have hsub : accounts.Subperm (approvers signers approvals) :=
      subperm_of_subset hnodup fun a ha => mem_approvers.mpr (hall a ha)
    exact le_trans hlength hsub.length_le
  · intro hlength
    exact ⟨_, nodup_approvers, hlength, fun a ha => mem_approvers.mp ha⟩

theorem toNat_approvalsCount_dedup :
    (approvalsCount signers approvals.dedup).toNat =
      (approvers signers approvals).length % 2 ^ 32 := by
  rw [approvalsCount, UInt32.toNat_ofNat']
  rfl

/-- No signer is listed twice; the count of the entries wraps around. -/
def CountedOnce (signers approvals : List AccountId) : Prop :=
  ∀ a ∈ signers, a ∈ approvals → approvals.count a % 2 ^ 32 = 1

theorem CountedOnce.mono {signers' : List AccountId} (h : CountedOnce signers approvals)
    (hsub : signers' ⊆ signers) : CountedOnce signers' approvals :=
  fun a ha => h a (hsub ha)

theorem nodup_of_countedOnce (hlen : approvals.length < 2 ^ 32) :
    CountedOnce signers approvals ↔ (approvals.filter fun a => signers.contains a).Nodup := by
  rw [nodup_iff_count_eq_one]
  simp only [mem_filter, contains_iff_mem]
  constructor
  · rintro h a ⟨ha, hsigner⟩
    have hone := h a hsigner ha
    have hle : approvals.count a ≤ approvals.length := count_le_length
    rw [Nat.mod_eq_of_lt (by omega)] at hone
    rw [count_filter (by simpa using hsigner), hone]
  · intro h a hsigner ha
    have hone := h a ⟨ha, hsigner⟩
    rw [count_filter (by simpa using hsigner)] at hone
    omega

/-- Entries that are counted once come to as many as the accounts behind them. -/
theorem approvalsCount_dedup (h : CountedOnce signers approvals) :
    approvalsCount signers approvals.dedup = approvalsCount signers approvals := by
  have hcount : (approvals.filter fun a => signers.contains a).length =
      ((approvers signers approvals).map fun a => approvals.count a).sum := by
    rw [approvers, sum_map_count_dedup_filter_eq_countP, countP_eq_length_filter]
  have hmod : ∀ {accounts : List AccountId}, (∀ a ∈ accounts, approvals.count a % 2 ^ 32 = 1) →
      (accounts.map fun a => approvals.count a).sum % 2 ^ 32 = accounts.length % 2 ^ 32 := by
    intro accounts hone
    induction accounts with
    | nil => rfl
    | cons a accounts ih =>
      have ha := hone a mem_cons_self
      have hrest := ih fun b hb => hone b (mem_cons_of_mem a hb)
      rw [map_cons, sum_cons, length_cons]
      omega
  rw [← UInt32.toNat_inj, toNat_approvalsCount_dedup, approvalsCount, UInt32.toNat_ofNat', hcount]
  exact (hmod fun a ha => h a (mem_approvers.mp ha).1 (mem_approvers.mp ha).2).symm

theorem conditionMet_once (condition : EscrowCondition) :
    conditionMet currentTime approvals (EscrowCondition.once condition) =
      conditionMet currentTime approvals condition := by
  cases condition with
  | multiSig required signers =>
    have hcount : approvalsCount signers.dedup approvals = approvalsCount signers approvals := by
      unfold approvalsCount
      refine congrArg (fun l : List AccountId => UInt32.ofNat l.length)
        (filter_congr fun a _ => ?_)
      rw [Bool.eq_iff_iff, contains_iff_mem, contains_iff_mem, mem_dedup]
    simp only [EscrowCondition.once, conditionMet, hcount]
  | timeLock lockTime => rfl
  | oracle name => rfl

/-- Repeated signers are never counted twice. -/
theorem evaluateConditions_once :
    { e with conditions := e.conditions.map EscrowCondition.once }.evaluateConditions currentTime
      approvals = e.evaluateConditions currentTime approvals := by
  rw [evaluateConditions, evaluateConditions, all_map]
  exact congrArg e.conditions.all (funext conditionMet_once)

structure Threshold (e : Escrow) (currentTime : UInt64) (approvals : List AccountId) : Prop where
  accepted : e.evaluateConditions currentTime approvals = true → ∀ required signers,
    .multiSig required signers ∈ e.conditions → Backed required signers approvals
  released : ∀ e', e.releaseChecked currentTime approvals = .ok e' → ∀ required signers,
    .multiSig required signers ∈ e.conditions → Backed required signers approvals
  approvals_once : e.evaluateConditions currentTime approvals.dedup =
    e.evaluateConditions currentTime approvals
  signers_once : { e with conditions := e.conditions.map EscrowCondition.once }.evaluateConditions
    currentTime approvals = e.evaluateConditions currentTime approvals

theorem evaluateConditions_of_releaseChecked {e' : Escrow}
    (h : e.releaseChecked currentTime approvals = .ok e') :
    e.evaluateConditions currentTime approvals = true := by
  unfold releaseChecked at h
  split at h
  · cases h
  · split at h
    · cases h
    · next hmet => simpa using hmet

theorem backed_of_evaluateConditions
    (h : e.evaluateConditions currentTime approvals.dedup = true) {required : UInt32}
    (hmem : .multiSig required signers ∈ e.conditions) : Backed required signers approvals := by
  have hmet := all_eq_true.mp h _ hmem
  have hle : required ≤ approvalsCount signers approvals.dedup := by
    simpa [conditionMet] using hmet
  rw [UInt32.le_iff_toNat_le, toNat_approvalsCount_dedup] at hle
  exact backed_iff.mpr (le_trans hle (Nat.mod_le _ _))

/-- Every multi-signature condition names some of these signers. -/
def SignedBy (e : Escrow) (signers : List AccountId) : Prop :=
  ∀ required those, .multiSig required those ∈ e.conditions → those ⊆ signers

theorem threshold_of_countedOnce (hsigned : e.SignedBy signers)
    (h : CountedOnce signers approvals) : e.Threshold currentTime approvals := by
  have honce : e.evaluateConditions currentTime approvals.dedup =
      e.evaluateConditions currentTime approvals := by
    rw [evaluateConditions, evaluateConditions, Bool.eq_iff_iff, all_eq_true, all_eq_true]
    refine forall₂_congr fun condition hmem => ?_
    cases condition with
    | timeLock lockTime => rfl
    | oracle name => rfl
    | multiSig required those =>
      rw [conditionMet, conditionMet, approvalsCount_dedup (h.mono (hsigned _ _ hmem))]
  have haccepted : e.evaluateConditions currentTime approvals = true → ∀ required signers,
      .multiSig required signers ∈ e.conditions → Backed required signers approvals :=
    fun h required signers hmem => backed_of_evaluateConditions (honce.trans h) hmem
  exact ⟨haccepted, fun e' h => haccepted (evaluateConditions_of_releaseChecked h), honce,
    evaluateConditions_once⟩

/-- Thresholds are kept by all escrows of some signers, at every time, exactly where none of
them is listed twice. -/
theorem threshold_iff (signers approvals : List AccountId) :
    ((∀ (e : Escrow) (currentTime : UInt64), e.SignedBy signers →
        e.Threshold currentTime approvals) ↔ CountedOnce signers approvals) ∧
      (approvals.length < 2 ^ 32 →
        (CountedOnce signers approvals ↔
        (approvals.filter fun a => signers.contains a).Nodup)) := by
  refine ⟨⟨?_, fun h e currentTime hsigned => threshold_of_countedOnce hsigned h⟩,
    nodup_of_countedOnce⟩
  intro h a hsigner ha
  -- the account alone, asked for one approval and for two
  have hsole : ∀ required : UInt32, (required ≤ approvalsCount [a] approvals.dedup ↔
      required ≤ approvalsCount [a] approvals) := by
    intro required
    have hsigned : ((new 0 0 0 ⟨0⟩ ⟨0⟩).addCondition (.multiSig required [a])).SignedBy
      signers := by
      intro required' those hmem
      obtain ⟨rfl, rfl⟩ := EscrowCondition.multiSig.inj (mem_singleton.mp hmem)
      exact cons_subset.mpr ⟨hsigner, nil_subset signers⟩
    have honce := (h _ 0 hsigned).approvals_once
    simpa [evaluateConditions, conditionMet, addCondition, new] using honce
  have hentries : ∀ l : List AccountId,
      (approvalsCount [a] l).toNat = l.count a % 2 ^ 32 := by
    intro l
    rw [approvalsCount, UInt32.toNat_ofNat', ← countP_eq_length_filter, count]
    refine congrArg (· % 2 ^ 32) (countP_congr fun b _ => ?_)
    rw [contains_iff_mem, mem_singleton, beq_iff_eq]
  have hdistinct := hentries approvals.dedup
  rw [count_dedup, if_pos ha] at hdistinct
  have hone := hsole 1
  have htwo := hsole 2
  rw [UInt32.le_iff_toNat_le, UInt32.le_iff_toNat_le, hdistinct, hentries] at hone htwo
  change 1 ≤ 1 ↔ 1 ≤ _ at hone
  change 2 ≤ 1 ↔ 2 ≤ _ at htwo
  omega

/-- One signer that approves twice passes for two. -/
theorem repeated_approval_accepted :
    let e := (new 1 100 200 ⟨0⟩ ⟨50⟩).addCondition (.multiSig 2 [10, 20, 30])
    e.evaluateConditions 0 [10, 10] = true ∧
      e.releaseChecked 0 [10, 10] = .ok { e with state := .completed } ∧
      ¬ Backed 2 [10, 20, 30] [10, 10] ∧ e.evaluateConditions 0 [10] = false := by
  refine ⟨by decide, by decide, ?_, by decide⟩
  rw [backed_iff]
  decide

/-! ### Runs -/

inductive Call where
  | addCondition (condition : EscrowCondition)
  | dispute
  | release
  | releaseChecked (currentTime : UInt64) (approvals : List AccountId)
  | refund

def call (e : Escrow) : Call → Except EscrowError Escrow
  | .addCondition condition => .ok (e.addCondition condition)
  | .dispute => e.dispute
  | .release => e.release
  | .releaseChecked currentTime approvals => e.releaseChecked currentTime approvals
  | .refund => e.refund

def step (e : Escrow) (c : Call) : Escrow :=
  match e.call c with
  | .ok e' => e'
  | .error _ => e

theorem step_completed {c : Call} (hc : c ≠ .release) (hopen : e.state ≠ .completed)
    (h : (e.step c).state = .completed) :
    ∃ t approvals, c = .releaseChecked t approvals ∧ e.state = .funded ∧
      e.evaluateConditions t approvals = true := by
  cases c with
  | addCondition => exact absurd h hopen
  | release => exact absurd rfl hc
  | dispute => cases hs : e.state <;> simp_all [step, call, dispute]
  | refund => cases hs : e.state <;> simp_all [step, call, refund]
  | releaseChecked t approvals =>
    refine ⟨t, approvals, rfl, ?_⟩
    cases hs : e.state <;> cases hmet : e.evaluateConditions t approvals <;>
      simp_all [step, call, releaseChecked, canRelease]

/-- An escrow that is released by checked calls only has met its conditions, while funded,
when it completes. -/
theorem completed_when_met {calls : List Call} (hchecked : .release ∉ calls)
    (hopen : e.state ≠ .completed) (h : (calls.foldl step e).state = .completed) :
    ∃ before after t approvals, calls = before ++ .releaseChecked t approvals :: after ∧
      (before.foldl step e).state = .funded ∧
        (before.foldl step e).evaluateConditions t approvals = true := by
  induction calls generalizing e with
  | nil => exact absurd h hopen
  | cons c calls ih =>
    obtain ⟨hc, hrest⟩ := ne_and_not_mem_of_not_mem_cons hchecked
    by_cases hdone : (e.step c).state = .completed
    · obtain ⟨t, approvals, rfl, hfunded, hmet⟩ := step_completed hc.symm hopen hdone
      exact ⟨[], calls, t, approvals, rfl, hfunded, hmet⟩
    · obtain ⟨before, after, t, approvals, rfl, hbefore⟩ := ih hrest hdone h
      exact ⟨c :: before, after, t, approvals, rfl, hbefore⟩

theorem completed_when_met_locked :
    let e := new 1 100 200 ⟨0⟩ ⟨50⟩
    let calls : List Call :=
      [.addCondition (.timeLock 100), .releaseChecked 50 [], .releaseChecked 120 []]
    ∃ before after t approvals, calls = before ++ .releaseChecked t approvals :: after ∧
      (before.foldl step e).state = .funded ∧
        (before.foldl step e).evaluateConditions t approvals = true :=
  completed_when_met (by simp) (by decide) (by decide)

end Escrow

end Oikos.Koinon
