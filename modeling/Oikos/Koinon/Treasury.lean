/-
The treasury of `koinon-treasury`: proposals to spend from its balance, the
votes on them, and their execution.
-/
import Oikos.Lib.Partial
import Oikos.Koinon.Block

namespace Oikos.Koinon.Treasury

inductive ProposalStatus where
  | pending
  | approved
  | rejected
  | executed
  | expired
deriving Repr, DecidableEq

structure TreasuryProposal where
  id : UInt64
  proposer : String
  recipient : String
  amount : OikosAmount
  description : String
  status : ProposalStatus
  votesFor : UInt64
  votesAgainst : UInt64
  totalStaked : UInt64
  createdAt : UInt64
  expiresAt : UInt64
deriving DecidableEq

def TreasuryProposal.Decided (p : TreasuryProposal) : Prop :=
  p.status = .executed ∨ p.status = .rejected

inductive TreasuryError where
  | proposalNotFound
  | insufficientBalance
  | alreadyVoted
  | notVotingPeriod
  | quorumNotMet
  | alreadyExecuted
deriving Repr, DecidableEq

structure TreasuryPool extends Koinon.TreasuryPool where
  proposals : Table UInt64 TreasuryProposal
  nextProposalId : UInt64
  quorumPct : UInt32

namespace TreasuryPool

def new (initialBalance : OikosAmount) : TreasuryPool :=
  ⟨⟨initialBalance⟩, .empty, 1, 67⟩

/-- Change a proposal in its place. -/
def update (pool : TreasuryPool) (id : UInt64) (f : TreasuryProposal → TreasuryProposal) :
    TreasuryPool :=
  { pool with proposals := pool.proposals.modify id f }

/-- `checked_add` on votes; an overflow is reported as a missing proposal. -/
def addVotes (votes stake : UInt64) : Except TreasuryError UInt64 :=
  if votes.toNat + stake.toNat < 2 ^ 64 then .ok (votes + stake) else .error .proposalNotFound

/-- A new proposal.  The block at which it expires may overflow, which panics. -/
def createProposal (pool : TreasuryPool) (proposer recipient : String) (amount : OikosAmount)
    (description : String) (totalStaked currentBlock votingPeriod : UInt64) :
    Option (TreasuryPool × Except TreasuryError UInt64) :=
  let id := pool.nextProposalId
  if id.toNat + 1 < 2 ^ 64 then
    if currentBlock.toNat + votingPeriod.toNat < 2 ^ 64 then
      let proposal : TreasuryProposal :=
        ⟨id, proposer, recipient, amount, description, .pending, 0, 0, totalStaked, currentBlock,
          currentBlock + votingPeriod⟩
      some ({ pool with
        nextProposalId := id + 1
        proposals := pool.proposals.insert id proposal }, .ok id)
    else none
  else some (pool, .error .proposalNotFound)

def vote (pool : TreasuryPool) (proposalId voterStake : UInt64) (inFavor : Bool) :
    TreasuryPool × Except TreasuryError Unit :=
  match pool.proposals.get proposalId with
  | none => (pool, .error .proposalNotFound)
  | some proposal =>
    if proposal.status ≠ .pending then (pool, .error .notVotingPeriod)
    else if inFavor then
      match addVotes proposal.votesFor voterStake with
      | .ok votes => (pool.update proposalId fun p => { p with votesFor := votes }, .ok ())
      | .error e => (pool, .error e)
    else
      match addVotes proposal.votesAgainst voterStake with
      | .ok votes => (pool.update proposalId fun p => { p with votesAgainst := votes }, .ok ())
      | .error e => (pool, .error e)

def quorumNeeded (pool : TreasuryPool) (proposal : TreasuryProposal) : Nat :=
  proposal.totalStaked.toNat * pool.quorumPct.toNat / 100

def reject (pool : TreasuryPool) (proposalId : UInt64) : TreasuryPool :=
  pool.update proposalId fun p => { p with status := .rejected }

def tallyAndExecute (pool : TreasuryPool) (proposalId : UInt64) :
    TreasuryPool × Except TreasuryError Unit :=
  match pool.proposals.get proposalId with
  | none => (pool, .error .proposalNotFound)
  | some proposal =>
    if proposal.status = .executed then (pool, .error .alreadyExecuted)
    else if proposal.status ≠ .pending then (pool, .error .notVotingPeriod)
    else if proposal.votesFor.toNat < pool.quorumNeeded proposal then
      (pool.reject proposalId, .error .quorumNotMet)
    else if pool.balance.units < proposal.amount.units then
      (pool.reject proposalId, .error .insufficientBalance)
    else
      ({ pool.update proposalId fun p => { p with status := .executed } with
        balance := ⟨pool.balance.units - proposal.amount.units⟩ }, .ok ())

/-! ### Runs -/

inductive Call where
  | createProposal (proposer recipient : String) (amount : OikosAmount) (description : String)
      (totalStaked currentBlock votingPeriod : UInt64)
  | vote (proposalId voterStake : UInt64) (inFavor : Bool)
  | tallyAndExecute (proposalId : UInt64)

/-- The treasury after a call, whether it succeeds or not, unless it panics. -/
def call (pool : TreasuryPool) : Call → Option TreasuryPool
  | .createProposal proposer recipient amount description totalStaked currentBlock votingPeriod =>
    (pool.createProposal proposer recipient amount description totalStaked currentBlock
      votingPeriod).map Prod.fst
  | .vote proposalId voterStake inFavor => some (pool.vote proposalId voterStake inFavor).1
  | .tallyAndExecute proposalId => some (pool.tallyAndExecute proposalId).1

def Call.BlocksFit : Call → Prop
  | .createProposal _ _ _ _ _ currentBlock votingPeriod =>
    currentBlock.toNat + votingPeriod.toNat < 2 ^ 64
  | _ => True

/-! ### What a call does -/

variable {pool pool' : TreasuryPool} {c : Call} {calls more : List Call} {id : UInt64}
  {p : TreasuryProposal} {b : OikosAmount}

inductive Step (pool : TreasuryPool) (c : Call) : TreasuryPool → Prop
  | same : Step pool c pool
  | created (p : TreasuryProposal) (hid : pool.nextProposalId.toNat + 1 < 2 ^ 64)
      (hpending : p.status = .pending) :
      Step pool c { pool with
        nextProposalId := pool.nextProposalId + 1
        proposals := pool.proposals.insert pool.nextProposalId p }
  | voted (id : UInt64) (p : TreasuryProposal) (f : TreasuryProposal → TreasuryProposal)
      (hget : pool.proposals.get id = some p) (hpending : p.status = .pending)
      (hf : (f p).status = .pending) : Step pool c (pool.update id f)
  | rejected (id : UInt64) (p : TreasuryProposal) (hget : pool.proposals.get id = some p)
      (hpending : p.status = .pending) : Step pool c (pool.reject id)
  | executed (id : UInt64) (p : TreasuryProposal) (hc : c = .tallyAndExecute id)
      (hget : pool.proposals.get id = some p) (hpending : p.status = .pending)
      (hquorum : pool.quorumNeeded p ≤ p.votesFor.toNat)
      (hbalance : p.amount.units.toNat ≤ pool.balance.units.toNat) :
      Step pool c { pool.update id fun p => { p with status := .executed } with
        balance := ⟨pool.balance.units - p.amount.units⟩ }

theorem step_createProposal {proposer recipient description : String} {amount : OikosAmount}
    {totalStaked currentBlock votingPeriod : UInt64} {r : Except TreasuryError UInt64}
    (h : pool.createProposal proposer recipient amount description totalStaked currentBlock
      votingPeriod = some (pool', r)) : Step pool c pool' := by
  simp only [createProposal] at h
  split at h
  · next hid =>
    split at h
    · cases h
      exact .created _ hid rfl
    · cases h
  · cases h
    exact .same

theorem step_vote (pool : TreasuryPool) (id stake : UInt64) (inFavor : Bool) :
    Step pool c (pool.vote id stake inFavor).1 := by
  unfold vote
  split
  · exact .same
  · next p hget =>
    split
    · exact .same
    · next hstatus =>
      have hpending : p.status = .pending := Classical.not_not.mp hstatus
      split
      · split
        · exact .voted id p _ hget hpending hpending
        · exact .same
      · split
        · exact .voted id p _ hget hpending hpending
        · exact .same

theorem step_tallyAndExecute (pool : TreasuryPool) (id : UInt64) :
    Step pool (.tallyAndExecute id) (pool.tallyAndExecute id).1 := by
  unfold tallyAndExecute
  split
  · exact .same
  · next p hget =>
    split
    · exact .same
    · split
      · exact .same
      · next hstatus =>
        have hpending : p.status = .pending := Classical.not_not.mp hstatus
        split
        · exact .rejected id p hget hpending
        · next hquorum =>
          split
          · exact .rejected id p hget hpending
          · next hbalance =>
            exact .executed id p rfl hget hpending (Nat.le_of_not_lt hquorum)
              (Nat.le_of_not_lt (by rwa [BitVec.lt_def] at hbalance))

theorem step_of_call (h : pool.call c = some pool') : Step pool c pool' := by
  cases c with
  | createProposal proposer recipient amount description totalStaked currentBlock votingPeriod =>
    obtain ⟨⟨_, r⟩, hcreate, rfl⟩ := Option.map_eq_some_iff.mp h
    exact step_createProposal hcreate
  | vote id stake inFavor =>
    cases h
    exact step_vote pool id stake inFavor
  | tallyAndExecute id =>
    cases h
    exact step_tallyAndExecute pool id

theorem call_of_blocksFit (pool : TreasuryPool) (h : c.BlocksFit) :
    ∃ pool', pool.call c = some pool' := by
  cases c with
  | createProposal proposer recipient amount description totalStaked currentBlock votingPeriod =>
    have hblocks : currentBlock.toNat + votingPeriod.toNat < 2 ^ 64 := h
    simp only [call, createProposal, if_pos hblocks]
    split
    · exact ⟨_, rfl⟩
    · exact ⟨_, rfl⟩
  | vote id stake inFavor => exact ⟨_, rfl⟩
  | tallyAndExecute id => exact ⟨_, rfl⟩

/-! ### Conservation -/

def spent (pool : TreasuryPool) : Nat :=
  pool.proposals.total fun p => if p.status = .executed then p.amount.units.toNat else 0

/-- The ids are given out in order, and what was spent is missing from the balance. -/
structure Conserves (b : OikosAmount) (pool : TreasuryPool) : Prop where
  fresh : ∀ id ∈ pool.proposals.keys, id.toNat < pool.nextProposalId.toNat
  balance : b.units.toNat = pool.balance.units.toNat + pool.spent

theorem conserves_new (b : OikosAmount) : Conserves b (new b) where
  fresh _ h := nomatch h
  balance := rfl

theorem Conserves.next_notMem (h : Conserves b pool) : pool.nextProposalId ∉ pool.proposals.keys :=
  fun hmem => lt_irrefl _ (h.fresh _ hmem)

variable {f : TreasuryProposal → TreasuryProposal}

theorem spent_update (hget : pool.proposals.get id = some p) (hpending : p.status = .pending) :
    (pool.update id f).spent =
      pool.spent + if (f p).status = .executed then (f p).amount.units.toNat else 0 := by
  have hsum := Table.total_modify (f := f)
    (fun q : TreasuryProposal => if q.status = .executed then q.amount.units.toNat else 0) hget
  rw [if_neg (by simp [hpending]), add_zero] at hsum
  exact hsum

theorem Conserves.update (h : Conserves b pool)
    (hget : pool.proposals.get id = some p) (hpending : p.status = .pending)
    (hf : (f p).status ≠ .executed) : Conserves b (pool.update id f) where
  fresh id' hid' := h.fresh id' (by rwa [TreasuryPool.update, Table.keys_modify] at hid')
  balance := by
    rw [spent_update hget hpending, if_neg hf]
    exact h.balance

theorem Conserves.step (h : Conserves b pool) (hstep : Step pool c pool') : Conserves b pool' := by
  cases hstep with
  | same => exact h
  | created p hid hpending =>
    have hnext : (pool.nextProposalId + 1).toNat = pool.nextProposalId.toNat + 1 := by
      rw [UInt64.toNat_add]
      exact Nat.mod_eq_of_lt hid
    constructor
    · intro id hmem
      dsimp only
      rw [hnext]
      rcases Table.mem_keys_insert.mp hmem with rfl | hmem
      · exact Nat.lt_succ_self _
      · exact (h.fresh id hmem).trans (Nat.lt_succ_self _)
    · rw [h.balance, spent, spent, Table.total_insert_of_notMem _ h.next_notMem]
      simp [hpending]
  | voted id p f hget hpending hf => exact h.update hget hpending (by simp [hf])
  | rejected id p hget hpending => exact h.update hget hpending (by simp)
  | executed id p _ hget hpending _ hbalance =>
    constructor
    · intro id' hid'
      exact h.fresh id' (by rwa [TreasuryPool.update, Table.keys_modify] at hid')
    · have hspent := spent_update (f := fun p => { p with status := .executed }) hget hpending
      rw [if_pos rfl] at hspent
      change _ = (pool.balance.units - p.amount.units).toNat +
        (pool.update id fun p => { p with status := .executed }).spent
      rw [hspent, BitVec.toNat_sub_of_le hbalance, h.balance]
      dsimp only
      omega

theorem Conserves.frozen (h : Conserves b pool) (hstep : Step pool c pool')
    (hget : pool.proposals.get id = some p) (hdecided : p.Decided) :
    pool'.proposals.get id = some p := by
  have hupdate : ∀ {id' : UInt64} {q : TreasuryProposal} (f : TreasuryProposal → TreasuryProposal),
      pool.proposals.get id' = some q → q.status = .pending →
      (pool.update id' f).proposals.get id = some p := by
    intro id' q f hq hpending
    rw [TreasuryPool.update, Table.get_modify, if_neg, hget]
    rintro rfl
    obtain rfl := Option.some.inj (hget.symm.trans hq)
    rcases hdecided with hstatus | hstatus <;> simp [hpending] at hstatus
  cases hstep with
  | same => exact hget
  | created q _ _ =>
    rw [Table.get_insert, if_neg, hget]
    rintro rfl
    exact h.next_notMem (Table.mem_keys_of_get hget)
  | voted id' q f hq hpending _ => exact hupdate f hq hpending
  | rejected id' q hq hpending => exact hupdate _ hq hpending
  | executed id' q _ hq hpending _ _ =>
    exact hupdate (fun p => { p with status := .executed }) hq hpending

theorem Conserves.run (h : Conserves b pool) (hrun : perform call pool calls = some pool') :
    Conserves b pool' :=
  perform_preserve (fun _ _ _ hinv hc => hinv.step (step_of_call hc)) h hrun

theorem Conserves.frozen_run (h : Conserves b pool) (hget : pool.proposals.get id = some p)
    (hdecided : p.Decided) (hrun : perform call pool calls = some pool') :
    pool'.proposals.get id = some p := by
  have hkept : Conserves b pool' ∧ pool'.proposals.get id = some p := by
    refine @perform_preserve _ _ _ (fun pool => Conserves b pool ∧ pool.proposals.get id = some p)
      pool pool' calls ?_ ⟨h, hget⟩ hrun
    intro pool c pool' hinv hc
    have hstep := step_of_call hc
    exact ⟨hinv.1.step hstep, hinv.1.frozen hstep hinv.2 hdecided⟩
  exact hkept.2

theorem performs_of_blocksFit (pool : TreasuryPool) (h : ∀ c ∈ calls, c.BlocksFit) :
    ∃ pool', perform call pool calls = some pool' := by
  induction calls generalizing pool with
  | nil => exact ⟨pool, rfl⟩
  | cons c calls ih =>
    obtain ⟨next, hnext⟩ := call_of_blocksFit pool (h c List.mem_cons_self)
    obtain ⟨pool', hrun⟩ := ih next fun d hd => h d (List.mem_cons_of_mem c hd)
    exact ⟨pool', perform_cons_eq_some.mpr ⟨next, hnext, hrun⟩⟩

/-- After every run the initial balance is the current one and what was spent, and
whatever follows, a decided proposal stays as it is. -/
theorem treasury_conserved (b : OikosAmount) (h : ∀ c ∈ calls ++ more, c.BlocksFit) :
    ∃ pool pool', perform call (new b) calls = some pool ∧ perform call pool more = some pool' ∧
      b.units.toNat = pool.balance.units.toNat + pool.spent ∧
      ∀ id p, pool.proposals.get id = some p → p.Decided → pool'.proposals.get id = some p := by
  obtain ⟨pool, hrun⟩ := performs_of_blocksFit (new b) fun c hc =>
    h c (List.mem_append_left more hc)
  obtain ⟨pool', hmore⟩ := performs_of_blocksFit pool fun c hc =>
    h c (List.mem_append_right calls hc)
  have hconserves := (conserves_new b).run hrun
  exact ⟨pool, pool', hrun, hmore, hconserves.balance, fun id p hget hdecided =>
    hconserves.frozen_run hget hdecided hmore⟩

/-- A proposal for 100 of 1000, with all the votes that it needs. -/
theorem treasury_conserved_execution :
    ∃ pool pool', perform call (new ⟨1000⟩)
        [.createProposal "alice" "bob" ⟨100⟩ "dev" 1000 0 100, .vote 1 670 true,
          .tallyAndExecute 1] = some pool ∧
      perform call pool [.vote 1 5 false, .tallyAndExecute 1] = some pool' ∧
      (1000#128).toNat = pool.balance.units.toNat + pool.spent ∧
      ∀ id p, pool.proposals.get id = some p → p.Decided → pool'.proposals.get id = some p :=
  treasury_conserved ⟨1000⟩ (by simp [Call.BlocksFit])

/-! ### The quorum -/

def Backed (pool : TreasuryPool) : Prop :=
  ∀ id p, pool.proposals.get id = some p → p.status = .executed →
    67 * p.totalStaked.toNat ≤ 100 * p.votesFor.toNat ∧ 0 < p.votesFor.toNat

/-- No proposal that can be paid is tallied with exactly the rounded quorum, unless
its stake is a multiple of 100 other than zero. -/
def Careful (pool : TreasuryPool) : Call → Prop
  | .tallyAndExecute id => ∀ p, pool.proposals.get id = some p → p.status = .pending →
      p.amount.units.toNat ≤ pool.balance.units.toNat →
      p.votesFor.toNat = 67 * p.totalStaked.toNat / 100 →
      100 ∣ p.totalStaked.toNat ∧ 0 < p.totalStaked.toNat
  | _ => True

/-- What the rounded quorum leaves to be checked. -/
theorem backed_iff {stake votes : Nat} (hquorum : 67 * stake / 100 ≤ votes) :
    67 * stake ≤ 100 * votes ∧ 0 < votes ↔
      (votes = 67 * stake / 100 → 100 ∣ stake ∧ 0 < stake) := by
  omega

theorem quorumPct_step (h : Step pool c pool') : pool'.quorumPct = pool.quorumPct := by
  cases h with
  | same => rfl
  | created => rfl
  | voted => rfl
  | rejected => rfl
  | executed => rfl

theorem Backed.update (h : pool.Backed)
    (hget : pool.proposals.get id = some p) (hf : (f p).status ≠ .executed) :
    (pool.update id f).Backed := by
  intro id' q hq hstatus
  rw [TreasuryPool.update, Table.get_modify] at hq
  split at hq
  · rw [hget] at hq
    cases hq
    exact absurd hstatus hf
  · exact h id' q hq hstatus

theorem Backed.insert (h : pool.Backed) (hp : p.status = .pending) :
    Backed { pool with
      nextProposalId := pool.nextProposalId + 1
      proposals := pool.proposals.insert pool.nextProposalId p } := by
  intro id q hq hstatus
  dsimp only at hq
  rw [Table.get_insert] at hq
  split at hq
  · cases hq
    rw [hp] at hstatus
    cases hstatus
  · exact h id q hq hstatus

theorem Backed.call (h : pool.Backed) (hpct : pool.quorumPct = 67) :
    (∀ pool', pool.call c = some pool' → pool'.Backed) ↔ pool.Careful c := by
  constructor
  · intro hall
    cases c with
    | createProposal => trivial
    | vote => trivial
    | tallyAndExecute id =>
      intro p hget hpending hamount hvotes
      have hquorum : pool.quorumNeeded p = 67 * p.totalStaked.toNat / 100 := by
        rw [quorumNeeded, hpct, mul_comm]
        rfl
      have hnext := hall _ rfl
      have hlt : ¬ pool.balance.units < p.amount.units := by
        rw [BitVec.lt_def]
        exact not_lt.mpr hamount
      rw [tallyAndExecute] at hnext
      simp only [hget, hpending, reduceCtorEq, if_false, ne_eq, not_true_eq_false, hquorum, hvotes,
        lt_irrefl, hlt] at hnext
      have hbacked := hnext id { p with status := .executed }
        (by simp [TreasuryPool.update, Table.get_modify, hget]) rfl
      exact (backed_iff hvotes.ge).mp hbacked hvotes
  · intro hcareful pool' hcall
    cases step_of_call hcall with
    | same => exact h
    | created p _ hpending => exact h.insert hpending
    | voted id p f hget _ hf => exact h.update hget (by simp [hf])
    | rejected id p hget _ => exact h.update hget (by simp)
    | executed id p hc hget hpending hquorum hbalance =>
      subst hc
      rw [quorumNeeded, hpct, mul_comm] at hquorum
      intro id' q hq hstatus
      change (pool.update id _).proposals.get id' = some q at hq
      rw [TreasuryPool.update, Table.get_modify] at hq
      split at hq
      · rw [hget] at hq
        cases hq
        exact (backed_iff hquorum).mpr (hcareful p hget hpending hbalance)
      · exact h id' q hq hstatus

/-- After every part of a run the executed proposals have the votes of 67% of the
stake, if and only if every call of the run is careful. -/
theorem spending_backed_iff (b : OikosAmount) (calls : List Call) :
    (∀ before, before <+: calls → ∀ pool, perform call (new b) before = some pool → pool.Backed) ↔
      Guarded call Careful (new b) calls := by
  refine forall_parts_iff_guarded (fun pool => pool.quorumPct = 67) ?_ ?_ rfl ?_
  · intro pool c pool' hpct hc
    rw [quorumPct_step (step_of_call hc), hpct]
  · intro pool c hpct hbacked
    exact hbacked.call hpct
  · intro id p hget
    cases hget

/-- A proposal with a stake of 1 is executed without a vote. -/
theorem executed_without_votes :
    ∃ pool p, perform call (new ⟨1000⟩)
        [.createProposal "alice" "bob" ⟨100⟩ "dev" 1 0 100, .tallyAndExecute 1] = some pool ∧
      pool.proposals.get 1 = some p ∧ p.status = .executed ∧ p.votesFor = 0 ∧ ¬ pool.Backed := by
  refine ⟨_, _, rfl, rfl, rfl, rfl, ?_⟩
  intro h
  exact absurd (h 1 _ rfl rfl).2 (by decide)

end TreasuryPool

end Oikos.Koinon.Treasury
