/-
Everything that a call of `produce_block` can leave behind, short of a panic; and what a
failed call leaves of the mempool, the ledgers and the rewards.
-/
import Oikos.Koinon.BlockProducer

namespace Oikos.Koinon

open BlockRewardProcessor

/-! ### The stored height -/

namespace StateStore

variable {α : Type} {store store' : StateStore}

theorem keeps_execute {V : Type} {view : StateStore → V} {statement : StateStore → α × StateStore}
    (hfaults : ∀ store faults, view { store with faults := faults } = view store)
    (hstatement : ∀ store, view (statement store).2 = view store) :
    (execute statement).Keeps view := by
  intro store
  unfold execute
  dsimp only
  split
  · exact hfaults store _
  · rw [hstatement, hfaults]

theorem keeps_query {V : Type} {view : StateStore → V} (read : StateStore → α)
    (hfaults : ∀ store faults, view { store with faults := faults } = view store) :
    (query read).Keeps view :=
  keeps_execute hfaults fun _ => rfl

theorem keeps_getBlock (height : UInt64) : (getBlock height).Keeps chainState := by
  refine (Effect.Keeps.lift _).bind fun key => (keeps_query _ fun _ _ => rfl).bind fun row => ?_
  cases row with
  | none => exact .pure _
  | some row => exact (Effect.Keeps.lift _).bind fun _ => .pure _

theorem keeps_getLastBlockHeight : getLastBlockHeight.Keeps chainState :=
  (keeps_query _ fun _ _ => rfl).bind fun _ => .pure _

theorem keeps_upsertValidator (v : Validator) : (upsertValidator v).Keeps chainState :=
  (Effect.Keeps.lift _).bind fun _ => keeps_execute (fun _ _ => rfl) fun _ => rfl

theorem lastHeight_congr (h : store'.chainState = store.chainState) :
    store'.lastHeight = store.lastHeight := by
  rw [lastHeight, lastHeight, h]

theorem getLastBlockHeight_eq_ok {height : UInt64}
    (h : getLastBlockHeight store = (.ok height, store')) : height = store.lastHeight := by
  obtain ⟨value, _, hvalue, hheight⟩ := Effect.bind_eq_ok.mp h
  have hread : store.chainState.get lastBlockHeightKey = value := query_eq_ok hvalue
  cases hheight
  rw [lastHeight, hread]

theorem lastHeight_applyBlock {block : Block} {r : Result StoreError Unit}
    (h : applyBlock block store = (r, store')) :
    r = .ok () ∧ store'.lastHeight = block.height ∨
      r ≠ .ok () ∧ store'.lastHeight = store.lastHeight := by
  rcases Effect.bind_cases h with ⟨stop, hrow, rfl⟩ | ⟨⟨height, row⟩, _, hrow, hwrite⟩
  · obtain ⟨-, rfl⟩ := Effect.lift_eq.mp hrow
    exact .inr ⟨nofun, rfl⟩
  · obtain ⟨-, rfl⟩ := Effect.lift_eq.mp hrow
    rcases Effect.bind_cases hwrite with ⟨stop, hinsert, rfl⟩ | ⟨_, middle, hinsert, hset⟩
    · rcases write_cases hinsert with ⟨hok, -⟩ | ⟨-, rfl⟩
      · cases hok
      · exact .inr ⟨nofun, rfl⟩
    · have hmiddle : middle.lastHeight = store.lastHeight := by
        rcases write_cases hinsert with ⟨-, rfl⟩ | ⟨herr, -⟩
        · rfl
        · cases herr
      rcases write_cases hset with ⟨rfl, rfl⟩ | ⟨rfl, rfl⟩
      · refine .inl ⟨rfl, ?_⟩
        rw [lastHeight, Table.get_insert, if_pos rfl, Option.bind_some, parseUnsigned_showUnsigned]
        rfl
      · exact .inr ⟨nofun, hmiddle⟩

end StateStore

/-! ### Outcomes -/

namespace BlockProducer

def nextHeight (p : BlockProducer) : UInt64 :=
  p.store.lastHeight + 1

/-- The base reward of the block that is due. -/
def nextReward (p : BlockProducer) : OikosAmount :=
  p.state.rewardProcessor.baseReward p.nextHeight

/-- What recording that reward answers, and the ledger after it. -/
def nextRecord (p : BlockProducer) : Bool × TotalValueConservation :=
  recordBase p.state.rewardProcessor.conservation p.nextReward

/-- The state after a reward that the ledger refused. -/
def rejectedState (p : BlockProducer) : NodeState :=
  { p.state with
    rewardProcessor := { p.state.rewardProcessor with conservation := p.nextRecord.2 } }

/-- The state after a reward that was recorded and shared out. -/
def rewardedState (p : BlockProducer) (pool : StakingPool) : NodeState :=
  { p.state with
    stakingPool := pool
    conservation := (recordBase p.state.conservation p.nextReward).2
    rewardProcessor := ⟨p.state.rewardProcessor.config, p.nextRecord.2,
      p.state.rewardProcessor.yearForBlock p.nextHeight⟩ }

inductive Outcome (p : BlockProducer) (order : List UInt64) :
    Result NodeError Block → BlockProducer → Prop
  | unread {stop : Stop StoreError} {store : StateStore}
      (hread : readParent p.store = (.error stop, store)) :
      Outcome p order (mapErr .store (.error stop)) { p with store := store }
  | rejected {read : UInt64 × Digest} {store : StateStore} {e : RewardError}
      (hread : readParent p.store = (.ok read, store)) (hrecord : p.nextRecord.1 = false) :
      Outcome p order (.error (.err (.reward e)))
        { p with store := store, mempool := [], state := p.rejectedState }
  | rewarded {read : UInt64 × Digest} {store store' : StateStore} {pool : StakingPool}
      {r : Result NodeError Block} (hread : readParent p.store = (.ok read, store))
      (hrecord : p.nextRecord.1 = true)
      (hpool : p.state.stakingPool.distributeRewards order p.nextReward = some pool)
      (hheight : store'.lastHeight = p.nextHeight ∨
        store'.lastHeight = p.store.lastHeight ∧ ∀ block, r ≠ .ok block) :
      Outcome p order r
        { p with store := store', mempool := [], state := p.rewardedState pool }

variable {p p' : BlockProducer} {sha256 : List UInt8 → Digest} {order : List UInt64}
  {now : UInt64} {r : Result NodeError Block} {store : StateStore}

theorem keeps_readParent : readParent.Keeps StateStore.chainState := by
  refine StateStore.keeps_getLastBlockHeight.bind fun last => (Effect.Keeps.lift _).bind fun h => ?_
  split
  · exact .pure _
  · exact (StateStore.keeps_getBlock _).bind fun _ => .pure _

theorem lastHeight_readParent {read : Result StoreError (UInt64 × Digest)}
    (h : readParent p.store = (read, store)) : store.lastHeight = p.store.lastHeight := by
  apply StateStore.lastHeight_congr
  rw [← keeps_readParent p.store, h]

theorem fst_readParent {read : UInt64 × Digest} (h : readParent p.store = (.ok read, store)) :
    read.1 = p.nextHeight ∧ p.nextHeight.toNat = p.store.lastHeight.toNat + 1 := by
  obtain ⟨last, _, hlast, hrest⟩ := Effect.bind_eq_ok.mp h
  obtain ⟨height, _, hheight, hparent⟩ := Effect.bind_eq_ok.mp hrest
  obtain ⟨hsucc, -⟩ := Effect.lift_eq.mp hheight
  rw [StateStore.getLastBlockHeight_eq_ok hlast] at hsucc
  have hnat := checkedSucc_eq_ok hsucc
  have hnext : height = p.nextHeight := by
    unfold checkedSucc at hsucc
    split at hsucc
    · exact (Except.ok.inj hsucc).symm
    · cases hsucc
  rw [hnext] at hnat
  refine ⟨?_, hnat⟩
  split at hparent
  · cases hparent
    exact hnext
  · obtain ⟨block, _, -, hpure⟩ := Effect.bind_eq_ok.mp hparent
    cases hpure
    exact hnext

theorem onStore_eq_ok {α : Type} {x : Effect StateStore StoreError α} {a : α}
    (h : onStore x p = (.ok a, p')) :
    ∃ store, x p.store = (.ok a, store) ∧ p' = { p with store := store } := by
  obtain ⟨hresult, hp⟩ := Prod.mk_inj.mp h
  rcases hx : x p.store with ⟨read, store⟩
  rw [hx] at hresult hp
  cases read with
  | ok b =>
    cases hresult
    exact ⟨store, rfl, hp.symm⟩
  | error stop => cases stop <;> cases hresult

theorem onStore_eq_error {α : Type} {x : Effect StateStore StoreError α} {stop : Stop NodeError}
    (h : onStore x p = (.error stop, p')) :
    ∃ cause store, x p.store = (.error cause, store) ∧
      (.error stop : Result NodeError Block) = mapErr .store (.error cause) ∧
      p' = { p with store := store } := by
  obtain ⟨hresult, hp⟩ := Prod.mk_inj.mp h
  rcases hx : x p.store with ⟨read, store⟩
  rw [hx] at hresult hp
  cases read with
  | ok b => cases hresult
  | error cause =>
    refine ⟨cause, store, rfl, ?_, hp.symm⟩
    cases cause <;> cases hresult <;> rfl

theorem processReward_cases {height : UInt64} {txs : List Transaction}
    {result : Result NodeError BlockReward} (hheight : height = p.nextHeight)
    (h : processReward height txs p = (result, p')) (hpanic : result ≠ .error .panic) :
    (∃ e, result = .error (.err (.reward e)) ∧ p.nextRecord.1 = false ∧
        p' = { p with state := p.rejectedState }) ∨
      ∃ reward, result = .ok reward ∧ reward.baseReward = p.nextReward ∧
        p.nextRecord.1 = true ∧
        p' = { p with state := { p.state with rewardProcessor :=
          ⟨p.state.rewardProcessor.config, p.nextRecord.2,
            p.state.rewardProcessor.yearForBlock p.nextHeight⟩ } } := by
  subst hheight
  unfold processReward at h
  split at h
  · next stop hfees =>
    obtain rfl := stops_sumI128 _ _ stop hfees
    cases h
    exact (hpanic rfl).elim
  · next fees hfees =>
    dsimp only at h
    rcases hproc : p.state.rewardProcessor.processBlock p.nextHeight fees with ⟨outcome, proc⟩
    rw [hproc] at h
    cases h
    cases outcome with
    | ok reward =>
      obtain ⟨hbase, hrecord, rfl⟩ := processBlock_eq_ok hproc
      exact .inr ⟨reward, rfl, hbase, hrecord, rfl⟩
    | error stop =>
      have hstop : stop ≠ .panic := by
        rintro rfl
        exact hpanic rfl
      obtain ⟨⟨e, rfl⟩, hrecord, rfl⟩ := processBlock_eq_error hstop hproc
      exact .inl ⟨e, rfl, hrecord, rfl⟩

theorem creditReward_cases {reward : BlockReward} {result : Result NodeError Unit}
    (h : creditReward order reward p = (result, p')) (hpanic : result ≠ .error .panic) :
    ∃ pool, result = .ok () ∧
      p.state.stakingPool.distributeRewards order reward.baseReward = some pool ∧
      p' = { p with state := { p.state with
        conservation := (recordBase p.state.conservation reward.baseReward).2
        stakingPool := pool } } := by
  unfold creditReward at h
  dsimp only at h
  split at h
  · cases h
    exact (hpanic rfl).elim
  · next pool hpool =>
    cases h
    exact ⟨pool, rfl, hpool, rfl⟩

/-- The producer after it has taken the transactions. -/
def drained (p : BlockProducer) (store : StateStore) : BlockProducer :=
  { p with store := store, mempool := [] }

theorem nextHeight_drained (h : store.lastHeight = p.store.lastHeight) :
    (p.drained store).nextHeight = p.nextHeight := by
  rw [nextHeight, nextHeight, drained, h]

theorem nextReward_drained (h : store.lastHeight = p.store.lastHeight) :
    (p.drained store).nextReward = p.nextReward := by
  rw [nextReward, nextReward, nextHeight_drained h]
  rfl

theorem nextRecord_drained (h : store.lastHeight = p.store.lastHeight) :
    (p.drained store).nextRecord = p.nextRecord := by
  rw [nextRecord, nextRecord, nextReward_drained h]
  rfl

theorem persist_cases {block : Block} (h : (do
      onStore (StateStore.applyBlock block)
      let validators ← Effect.gets (validatorsIn order)
      onStore (validators.forM StateStore.upsertValidator)
      pure block) p = (r, p')) :
    ∃ store, p' = { p with store := store } ∧ (store.lastHeight = block.height ∨
      store.lastHeight = p.store.lastHeight ∧ ∀ block, r ≠ .ok block) := by
  rcases Effect.bind_cases h with ⟨stop, happly, rfl⟩ | ⟨_, p₁, happly, hrest⟩
  · obtain ⟨cause, store, hcall, -, rfl⟩ := onStore_eq_error happly
    refine ⟨store, rfl, .inr ⟨?_, nofun⟩⟩
    rcases StateStore.lastHeight_applyBlock hcall with ⟨hok, -⟩ | ⟨-, hkept⟩
    · cases hok
    · exact hkept
  · obtain ⟨store, hcall, rfl⟩ := onStore_eq_ok happly
    have hheight : store.lastHeight = block.height := by
      rcases StateStore.lastHeight_applyBlock hcall with ⟨-, hset⟩ | ⟨herr, -⟩
      · exact hset
      · exact (herr rfl).elim
    have hkept : ∀ {validators : List Validator} {result store₂},
        validators.forM StateStore.upsertValidator store = (result, store₂) →
        store₂.lastHeight = block.height := by
      intro validators result store₂ hrun
      have hkeeps : (validators.forM StateStore.upsertValidator).Keeps StateStore.chainState :=
        .forM StateStore.keeps_upsertValidator
      have hchain := hkeeps store
      rw [hrun] at hchain
      rw [StateStore.lastHeight_congr hchain, hheight]
    rcases Effect.bind_cases hrest with ⟨stop, hgets, -⟩ | ⟨validators, _, hgets, hupserts⟩
    · cases hgets
    · cases hgets
      rcases Effect.bind_cases hupserts with ⟨stop, hloop, rfl⟩ | ⟨_, p₂, hloop, hpure⟩
      · obtain ⟨cause, store₂, hrun, -, rfl⟩ := onStore_eq_error hloop
        exact ⟨store₂, rfl, .inl (hkept hrun)⟩
      · obtain ⟨store₂, hrun, rfl⟩ := onStore_eq_ok hloop
        cases hpure
        exact ⟨store₂, rfl, .inl (hkept hrun)⟩

theorem produceBlock_outcome (h : produceBlock sha256 order now p = (r, p'))
    (hpanic : r ≠ .error .panic) : Outcome p order r p' := by
  rcases Effect.bind_cases h with ⟨stop, hfirst, rfl⟩ | ⟨⟨height, parent⟩, p₁, hfirst, hrest⟩
  · obtain ⟨cause, store, hread, hstop, rfl⟩ := onStore_eq_error hfirst
    rw [hstop]
    exact .unread hread
  · obtain ⟨store, hread, rfl⟩ := onStore_eq_ok hfirst
    have hheight : height = p.nextHeight := (fst_readParent hread).1
    have hlast := lastHeight_readParent hread
    have hnext := nextHeight_drained hlast
    rcases Effect.bind_cases hrest with ⟨stop, hdrain, -⟩ | ⟨txs, p₂, hdrain, hreward⟩
    · cases hdrain
    · obtain rfl : p₂ = p.drained store := (congrArg Prod.snd hdrain).symm
      rcases Effect.bind_cases hreward with ⟨stop, hprocess, rfl⟩ | ⟨reward, _, hprocess, hshare⟩
      · rcases processReward_cases (hheight.trans hnext.symm) hprocess
          (fun heq => hpanic (by rw [Except.error.inj heq])) with ⟨e, heq, hrecord, rfl⟩ |
          ⟨_, heq, _⟩
        · cases heq
          rw [nextRecord_drained hlast] at hrecord
          rw [rejectedState, nextRecord_drained hlast]
          exact .rejected hread hrecord
        · cases heq
      · rcases processReward_cases (hheight.trans hnext.symm) hprocess nofun with
          ⟨_, heq, _⟩ | ⟨_, heq, hbase, hrecord, rfl⟩
        · cases heq
        · cases heq
          rw [nextReward_drained hlast] at hbase
          rw [nextRecord_drained hlast] at hrecord hshare
          rw [hnext] at hshare
          rcases Effect.bind_cases hshare with ⟨stop, hcredit, rfl⟩ | ⟨_, _, hcredit, hmake⟩
          · obtain ⟨_, heq, _⟩ := creditReward_cases hcredit
              (fun heq => hpanic (by rw [Except.error.inj heq]))
            cases heq
          · obtain ⟨pool, -, hpool, rfl⟩ := creditReward_cases hcredit nofun
            rcases Effect.bind_cases hmake with ⟨stop, hgets, -⟩ | ⟨block, _, hgets, hpersist⟩
            · cases hgets
            · cases hgets
              obtain ⟨store', rfl, hstored⟩ := persist_cases hpersist
              have hstored' : store'.lastHeight = p.nextHeight ∨
                  store'.lastHeight = p.store.lastHeight ∧ ∀ block, r ≠ .ok block := by
                rcases hstored with hset | ⟨hkept, hr⟩
                · exact .inl (hset.trans hheight)
                · exact .inr ⟨hkept.trans hlast, hr⟩
              rw [hbase] at hpool ⊢
              exact .rewarded hread hrecord hpool hstored'

/-! ### Blocks that fail -/

/-- Nothing was lost and nothing was minted. -/
structure Unchanged (p p' : BlockProducer) : Prop where
  mempool : p'.mempool = p.mempool
  conservation : p'.state.conservation = p.state.conservation
  rewardProcessor : p'.state.rewardProcessor = p.state.rewardProcessor
  rewardDebts : ∀ vid, (p'.state.stakingPool.validators.get vid).map Validator.rewardDebt =
    (p.state.stakingPool.validators.get vid).map Validator.rewardDebt

/-- The parent block cannot be read. -/
def ReadsFail (p : BlockProducer) : Prop :=
  (readParent p.store).1.isOk = false

/-- A call that fails here leaves no trace. -/
def NothingToLose (p : BlockProducer) : Prop :=
  p.mempool = [] ∧
    (p.nextReward.toNat = 0 ∧
        p.state.rewardProcessor.currentYear = p.state.rewardProcessor.yearForBlock p.nextHeight ∨
      0 < p.nextReward.toNat ∧ oikosMaxSupply.toNat <
        p.state.rewardProcessor.conservation.minted.toNat + p.nextReward.toNat)

variable {p p' : BlockProducer} {sha256 : List UInt8 → Digest} {order : List UInt64}
  {now : UInt64} {store : StateStore} {pool : StakingPool}

theorem not_readsFail {read : UInt64 × Digest} (h : readParent p.store = (.ok read, store)) :
    ¬ p.ReadsFail := by
  rw [ReadsFail, h]
  exact nofun

theorem unchanged_unread (store : StateStore) : Unchanged p { p with store := store } :=
  ⟨rfl, rfl, rfl, fun _ => rfl⟩

theorem unchanged_minted_iff (hpos : 0 < p.nextReward.toNat)
    (hroom : p.state.rewardProcessor.conservation.minted.toNat + p.nextReward.toNat ≤
      oikosMaxSupply.toNat)
    (hminted : p'.state.rewardProcessor.conservation.minted.toNat =
      p.state.rewardProcessor.conservation.minted.toNat + p.nextReward.toNat) :
    Unchanged p p' ↔ p.NothingToLose := by
  constructor
  · intro hsame
    rw [hsame.rewardProcessor] at hminted
    omega
  · rintro ⟨-, ⟨hzero, -⟩ | ⟨-, hfull⟩⟩
    · omega
    · omega

theorem unchanged_rejected_iff (hrecord : p.nextRecord.1 = false) :
    Unchanged p { p with store := store, mempool := [], state := p.rejectedState } ↔
      p.NothingToLose := by
  rcases recordBase_cases p.state.rewardProcessor.conservation p.nextReward with
    ⟨-, heq⟩ | ⟨hpos, hfull, heq⟩ | ⟨hpos, hroom, hminted⟩
  · rw [nextRecord, heq] at hrecord
    cases hrecord
  · constructor
    · intro hsame
      exact ⟨hsame.mempool.symm, .inr ⟨hpos, hfull⟩⟩
    · rintro ⟨hmempool, -⟩
      refine ⟨hmempool.symm, rfl, ?_, fun _ => rfl⟩
      rw [rejectedState, nextRecord, heq]
  · exact unchanged_minted_iff hpos hroom hminted

theorem unchanged_rewarded_iff (hrecord : p.nextRecord.1 = true)
    (hpool : p.state.stakingPool.distributeRewards order p.nextReward = some pool) :
    Unchanged p { p with store := store, mempool := [], state := p.rewardedState pool } ↔
      p.NothingToLose := by
  rcases recordBase_cases p.state.rewardProcessor.conservation p.nextReward with
    ⟨hzero, heq⟩ | ⟨hpos, hfull, heq⟩ | ⟨hpos, hroom, hminted⟩
  · have hunits : p.nextReward.units = 0 := BitVec.toNat_inj.mp hzero
    have hpool' : pool = p.state.stakingPool := by
      rw [StakingPool.distributeRewards, if_pos hunits] at hpool
      exact (Option.some.inj hpool).symm
    have hcons : (recordBase p.state.conservation p.nextReward).2 = p.state.conservation := by
      rw [recordBase, if_neg (by rw [hunits]; decide)]
    constructor
    · intro hsame
      have hyear := congrArg currentYear hsame.rewardProcessor
      exact ⟨hsame.mempool.symm, .inl ⟨hzero, hyear.symm⟩⟩
    · rintro ⟨hmempool, ⟨-, hyear⟩ | ⟨hpos, -⟩⟩
      · refine ⟨hmempool.symm, hcons, ?_, fun vid => ?_⟩
        · rw [rewardedState, nextRecord, heq, ← hyear]
        · rw [rewardedState, hpool']
      · omega
  · rw [nextRecord, heq] at hrecord
    cases hrecord
  · exact unchanged_minted_iff hpos hroom hminted

/-- A call of `produce_block` that returns an error leaves the mempool, both
ledgers and the rewards as they were if and only if it failed before the mempool
was taken, or there was nothing to lose. -/
theorem failed_block_unchanged_iff {e : NodeError}
    (h : produceBlock sha256 order now p = (.error (.err e), p')) :
    Unchanged p p' ↔ p.ReadsFail ∨ p.NothingToLose := by
  have houtcome := produceBlock_outcome h nofun
  generalize (.error (.err e) : Result NodeError Block) = r at houtcome
  cases houtcome with
  | unread hread =>
    exact iff_of_true (unchanged_unread _) (.inl (by rw [ReadsFail, hread]; rfl))
  | rejected hread hrecord =>
    rw [unchanged_rejected_iff hrecord, or_iff_right (not_readsFail hread)]
  | rewarded hread hrecord hpool _ =>
    rw [unchanged_rewarded_iff hrecord hpool, or_iff_right (not_readsFail hread)]

/-- A producer without validators, whose store fails on the marked statements. -/
def sampleProducer (mempool : List Transaction) (faults : List Bool) : BlockProducer :=
  ⟨.default, ⟨.new, .new .zero, .new, .new .default, .empty, []⟩, .empty faults, mempool⟩

def sampleTransaction : Transaction :=
  ⟨zeroDigest, .transferOikos, 1, 2, ⟨100⟩, .zero, 21000, 0, [], 500⟩

/-- A store that cannot be read leaves the producer as it was. -/
theorem sampleProducer_unread :
    ∃ p', produceBlock (fun _ => zeroDigest) [] 1000
        (sampleProducer [sampleTransaction] [true]) = (.error (.err (.store .sqlite)), p') ∧
      Unchanged (sampleProducer [sampleTransaction] [true]) p' := by
  have h : produceBlock (fun _ => zeroDigest) [] 1000
      (sampleProducer [sampleTransaction] [true]) = (.error (.err (.store .sqlite)),
        sampleProducer [sampleTransaction] []) := rfl
  exact ⟨_, h, (failed_block_unchanged_iff h).mpr (.inl rfl)⟩

/-- The block cannot be stored: its transaction is gone and its reward is minted. -/
theorem sampleProducer_loses_transaction :
    ∃ p', produceBlock (fun _ => zeroDigest) [] 1000
        (sampleProducer [sampleTransaction] [false, true]) = (.error (.err (.store .sqlite)), p') ∧
      p'.mempool = [] ∧ p'.state.conservation.minted = ⟨1⟩ ∧
      ¬ Unchanged (sampleProducer [sampleTransaction] [false, true]) p' := by
  refine ⟨_, rfl, rfl, by decide, ?_⟩
  intro hsame
  cases hsame.mempool

end BlockProducer

end Oikos.Koinon
