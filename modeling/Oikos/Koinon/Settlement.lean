/-
Settling batches of transactions: a transaction of the batch settles when all of
its parents have settled and no settled transaction conflicts with it, where
both are judged on the DAG as it was before the batch.
-/
import Oikos.Koinon.Dag

namespace Oikos.Koinon

structure SettlementResult where
  settled : List TxHash
  failed : List TxHash
  conflicted : List TxHash
deriving DecidableEq

namespace Dag

/-- `node.status = status`, through `get_mut`. -/
def setStatus (status : TxStatus) (dag : Dag) (hash : TxHash) : Dag :=
  dag.modify hash fun node => { node with status := status }

def hasConflict (dag : Dag) (hash : TxHash) : Bool :=
  match dag.get hash with
  | none => false
  | some node =>
    dag.settledNodes.any fun p => p.1 != hash && node.tx.conflictsWith p.2.tx

def depsOk (dag : Dag) (node : DagNode) : Bool :=
  node.tx.parentHashes.all fun parent =>
    match dag.get parent with
    | none => false
    | some n => n.status == .settled

/-- The turn of one transaction of the batch. -/
def classify (dag : Dag) (result : SettlementResult) (entry : TxHash × Bool) :
    SettlementResult :=
  if entry.2 then
    { result with conflicted := result.conflicted ++ [entry.1] }
  else
    match dag.get entry.1 with
    | none => result
    | some node =>
      if dag.depsOk node then { result with settled := result.settled ++ [entry.1] }
      else { result with failed := result.failed ++ [entry.1] }

/-- `ParallelSettler::settle_batch`. -/
def settleBatch (dag : Dag) (batch : List TxHash) : SettlementResult × Dag :=
  let conflictMap := batch.map fun hash => (hash, dag.hasConflict hash)
  let result := conflictMap.foldl dag.classify ⟨[], [], []⟩
  let dag := result.settled.foldl (setStatus .settled) dag
  let dag := result.failed.foldl (setStatus .failed) dag
  let dag := result.conflicted.foldl (setStatus .conflict) dag
  (result, dag)

variable {dag : Dag} {h h' : TxHash} {node : DagNode} {batch : List TxHash}

/-! ### One batch -/

/-- The status `settle_batch` gives to a node of the batch. -/
def verdict (dag : Dag) (hash : TxHash) (node : DagNode) : TxStatus :=
  if dag.hasConflict hash then .conflict
  else if dag.depsOk node then .settled
  else .failed

theorem hasConflict_iff (hget : dag.get h = some node) :
    dag.hasConflict h = true ↔ ∃ h' node', h' ≠ h ∧ dag.get h' = some node' ∧
      node'.status = .settled ∧ node.tx.conflictsWith node'.tx = true := by
  rw [hasConflict, hget]
  simp only [List.any_eq_true, Bool.and_eq_true, bne_iff_ne, Prod.exists, mem_settledNodes]
  constructor
  · rintro ⟨h', node', ⟨hget', hsettled⟩, hne, hconf⟩
    exact ⟨h', node', hne, hget', hsettled, hconf⟩
  · rintro ⟨h', node', hne, hget', hsettled, hconf⟩
    exact ⟨h', node', ⟨hget', hsettled⟩, hne, hconf⟩

theorem depsOk_iff : dag.depsOk node = true ↔ ∀ parent ∈ node.tx.parentHashes,
    ∃ n, dag.get parent = some n ∧ n.status = .settled := by
  rw [depsOk, List.all_eq_true]
  apply forall₂_congr
  intro parent _
  cases dag.get parent with
  | none => simp
  | some n => simp

theorem verdict_eq_settled :
    dag.verdict h node = .settled ↔ dag.hasConflict h = false ∧ dag.depsOk node = true := by
  unfold verdict
  cases dag.hasConflict h with
  | true => simp
  | false => cases dag.depsOk node with
    | true => simp
    | false => simp

/-- Whether a hash is present and its verdict is `status`. -/
def judged (dag : Dag) (status : TxStatus) (hash : TxHash) : Bool :=
  (dag.get hash).any fun node => dag.verdict hash node == status

theorem classify_eq (dag : Dag) (result : SettlementResult) (h : TxHash) :
    dag.classify result (h, dag.hasConflict h) =
      ⟨result.settled ++ [h].filter (dag.judged .settled),
        result.failed ++ [h].filter (dag.judged .failed),
        result.conflicted ++ [h].filter (dag.judged .conflict)⟩ := by
  cases hget : dag.get h with
  | none =>
    have hconf : dag.hasConflict h = false := by
      rw [hasConflict, hget]
    simp [classify, judged, hget, hconf]
  | some node =>
    by_cases hconf : dag.hasConflict h = true
    · simp [classify, judged, verdict, hget, hconf]
    · by_cases hdeps : dag.depsOk node = true
      · simp [classify, judged, verdict, hget, hconf, hdeps]
      · simp [classify, judged, verdict, hget, hconf, hdeps]

theorem foldl_classify (dag : Dag) (batch : List TxHash) (result : SettlementResult) :
    (batch.map fun hash => (hash, dag.hasConflict hash)).foldl dag.classify result =
      ⟨result.settled ++ batch.filter (dag.judged .settled),
        result.failed ++ batch.filter (dag.judged .failed),
        result.conflicted ++ batch.filter (dag.judged .conflict)⟩ := by
  induction batch generalizing result with
  | nil => simp
  | cons h batch ih =>
    rw [List.map_cons, List.foldl_cons, ih, classify_eq]
    simp only [List.append_assoc, ← List.filter_append, List.singleton_append]

theorem get_foldl_setStatus (status : TxStatus) (hashes : List TxHash) (dag : Dag) (h : TxHash) :
    (hashes.foldl (setStatus status) dag).get h = (dag.get h).map fun node =>
      if h ∈ hashes then { node with status := status } else node := by
  induction hashes generalizing dag with
  | nil => simp
  | cons hash hashes ih =>
    rw [List.foldl_cons, ih, setStatus, get_modify]
    by_cases heq : h = hash
    · subst heq
      rw [if_pos rfl, Option.map_map]
      congr 1
      funext node
      simp
    · simp [heq]

theorem get_settleBatch (dag : Dag) (batch : List TxHash) (h : TxHash) :
    (dag.settleBatch batch).2.get h = (dag.get h).map fun node =>
      if h ∈ batch then { node with status := dag.verdict h node } else node := by
  simp only [settleBatch, foldl_classify, get_foldl_setStatus, Option.map_map, List.nil_append,
    List.mem_filter]
  cases hget : dag.get h with
  | none => rfl
  | some node =>
    simp only [judged, hget, Option.map_some, Option.any_some, Function.comp_apply, beq_iff_eq]
    by_cases hmem : h ∈ batch
    · cases hverdict : dag.verdict h node with
      | pending =>
        unfold verdict at hverdict
        split at hverdict
        · cases hverdict
        · split at hverdict <;> cases hverdict
      | _ => simp [hmem]
    · simp [hmem]

/-! ### Runs -/

inductive Call where
  | insert (tx : Transaction)
  | settleBatch (batch : List TxHash)

def step (dag : Dag) : Call → Dag
  | .insert tx => dag.insertStep tx
  | .settleBatch batch => (dag.settleBatch batch).2

def SettledAt (dag : Dag) (h : TxHash) (tx : Transaction) : Prop :=
  ∃ node, dag.get h = some node ∧ node.tx = tx ∧ node.status = .settled

def ConflictFree (dag : Dag) : Prop :=
  ∀ h₁ h₂ tx₁ tx₂, dag.SettledAt h₁ tx₁ → dag.SettledAt h₂ tx₂ → h₁ ≠ h₂ →
    tx₁.conflictsWith tx₂ = false

def Ready (dag : Dag) (h : TxHash) (tx : Transaction) : Prop :=
  (∃ node, dag.get h = some node ∧ node.tx = tx) ∧
    (∀ parent ∈ tx.parentHashes, ∃ ptx, dag.SettledAt parent ptx) ∧
    ∀ h' tx', h' ≠ h → dag.SettledAt h' tx' → tx.conflictsWith tx' = false

theorem settledAt_insertStep {tx tx' : Transaction} :
    (dag.insertStep tx).SettledAt h tx' ↔ dag.SettledAt h tx' := by
  by_cases hins : dag.Insertable tx
  · have hnew : dag.get tx.hash = none := by
      simpa [containsKey] using hins.1
    unfold SettledAt
    rw [get_insertStep hins]
    by_cases heq : h = tx.hash
    · simp [heq, hnew]
    · simp [heq, pushChildren]
  · rw [insertStep_of_not_insertable hins]

theorem ready_iff_verdict (hget : dag.get h = some node) :
    dag.Ready h node.tx ↔ dag.verdict h node = .settled := by
  rw [verdict_eq_settled, depsOk_iff, ← Bool.not_eq_true, hasConflict_iff hget]
  constructor
  · rintro ⟨_, hparents, hclear⟩
    constructor
    · rintro ⟨h', node', hne, hget', hsettled, hconf⟩
      rw [hclear h' node'.tx hne ⟨node', hget', rfl, hsettled⟩] at hconf
      cases hconf
    · intro parent hparent
      obtain ⟨_, n, hn, _, hsettled⟩ := hparents parent hparent
      exact ⟨n, hn, hsettled⟩
  · rintro ⟨hclear, hparents⟩
    refine ⟨⟨node, hget, rfl⟩, ?_, ?_⟩
    · intro parent hparent
      obtain ⟨n, hn, hsettled⟩ := hparents parent hparent
      exact ⟨n.tx, n, hn, rfl, hsettled⟩
    · rintro h' tx' hne ⟨node', hget', rfl, hsettled⟩
      by_contra hconf
      exact hclear ⟨h', node', hne, hget', hsettled, by simpa using hconf⟩

theorem settledAt_settleBatch {tx : Transaction} :
    (dag.settleBatch batch).2.SettledAt h tx ↔
      if h ∈ batch then dag.Ready h tx else dag.SettledAt h tx := by
  unfold SettledAt
  rw [get_settleBatch]
  cases hget : dag.get h with
  | none =>
    have hnot : ¬ dag.Ready h tx := by
      rintro ⟨⟨node, hnode, _⟩, _⟩
      rw [hget] at hnode
      cases hnode
    simp [hnot]
  | some node =>
    by_cases hmem : h ∈ batch
    · simp only [hmem, if_true, Option.map_some, Option.some.injEq, exists_eq_left']
      rw [← ready_iff_verdict hget]
      constructor
      · rintro ⟨rfl, hready⟩
        exact hready
      · rintro hready
        obtain ⟨node', hnode', rfl⟩ := hready.1
        obtain rfl : node = node' := Option.some.inj (hget.symm.trans hnode')
        exact ⟨rfl, hready⟩
    · simp [hmem]

theorem conflictFree_new : ConflictFree new := by
  rintro h₁ h₂ tx₁ tx₂ ⟨node, hget, _⟩
  cases hget

def Compatible (dag : Dag) (batch : List TxHash) : Prop :=
  ∀ h₁ ∈ batch, ∀ h₂ ∈ batch, ∀ tx₁ tx₂, h₁ ≠ h₂ → dag.Ready h₁ tx₁ → dag.Ready h₂ tx₂ →
    tx₁.conflictsWith tx₂ = false

theorem conflictsWith_comm (tx tx' : Transaction) :
    tx.conflictsWith tx' = tx'.conflictsWith tx := by
  rw [Transaction.conflictsWith, Transaction.conflictsWith, BEq.comm (a := tx.sender),
    BEq.comm (a := tx.nonce)]

theorem conflictFree_settleBatch_iff (hfree : dag.ConflictFree) :
    (dag.settleBatch batch).2.ConflictFree ↔ dag.Compatible batch := by
  constructor
  · intro hafter h₁ hmem₁ h₂ hmem₂ tx₁ tx₂ hne hready₁ hready₂
    apply hafter h₁ h₂ tx₁ tx₂ _ _ hne
    · rw [settledAt_settleBatch, if_pos hmem₁]
      exact hready₁
    · rw [settledAt_settleBatch, if_pos hmem₂]
      exact hready₂
  · intro hcompat h₁ h₂ tx₁ tx₂ hset₁ hset₂ hne
    rw [settledAt_settleBatch] at hset₁ hset₂
    by_cases hmem₁ : h₁ ∈ batch
    · rw [if_pos hmem₁] at hset₁
      by_cases hmem₂ : h₂ ∈ batch
      · rw [if_pos hmem₂] at hset₂
        exact hcompat h₁ hmem₁ h₂ hmem₂ tx₁ tx₂ hne hset₁ hset₂
      · rw [if_neg hmem₂] at hset₂
        exact hset₁.2.2 h₂ tx₂ (Ne.symm hne) hset₂
    · rw [if_neg hmem₁] at hset₁
      by_cases hmem₂ : h₂ ∈ batch
      · rw [if_pos hmem₂] at hset₂
        rw [conflictsWith_comm]
        exact hset₂.2.2 h₁ tx₁ hne hset₁
      · rw [if_neg hmem₂] at hset₂
        exact hfree h₁ h₂ tx₁ tx₂ hset₁ hset₂ hne

theorem conflictFree_insertStep_iff (tx : Transaction) :
    (dag.insertStep tx).ConflictFree ↔ dag.ConflictFree := by
  simp only [ConflictFree, settledAt_insertStep]

/-- A call that keeps double spends out of the settled transactions. -/
def Call.Fair (dag : Dag) : Call → Prop
  | .insert _ => True
  | .settleBatch batch => dag.Compatible batch

/-- A run never has two conflicting settled transactions exactly when none of
its batches holds two transactions that are ready and conflict. -/
theorem conflictFree_iff_fair (calls : List Call) :
    (∀ dag ∈ visited step new calls, dag.ConflictFree) ↔ Meets step Call.Fair new calls := by
  apply forall_visited_iff_meets fun _ => True
  · exact fun _ _ _ => trivial
  · intro dag call _ hfree
    cases call with
    | insert tx => exact ⟨fun _ => trivial, fun _ => (conflictFree_insertStep_iff tx).mpr hfree⟩
    | settleBatch batch => exact conflictFree_settleBatch_iff hfree
  · trivial
  · exact conflictFree_new

/-- Two transactions of one batch that spend the same nonce both settle. -/
theorem double_spend_settles :
    ¬ConflictFree ([.insert (sampleTx 1 0 []), .insert (sampleTx 2 0 []),
      .settleBatch [Vector.replicate 32 1, Vector.replicate 32 2]].foldl step new) := by
  intro hfree
  have hconf := hfree (Vector.replicate 32 1) (Vector.replicate 32 2) _ _ ⟨_, rfl, rfl, rfl⟩
    ⟨_, rfl, rfl, rfl⟩ (by decide)
  exact absurd hconf (by decide)

/-! ### Finality -/

def CausallyClosed (dag : Dag) : Prop :=
  ∀ h tx, dag.SettledAt h tx → ∀ parent ∈ tx.parentHashes, ∃ ptx, dag.SettledAt parent ptx

def Call.NoDoubleSpend (dag : Dag) : Call → Prop
  | .insert _ => True
  | .settleBatch batch => ∀ h₁ ∈ batch, ∀ h₂ ∈ batch, ∀ node₁ node₂, h₁ ≠ h₂ →
      dag.get h₁ = some node₁ → dag.get h₂ = some node₂ →
      node₁.tx.conflictsWith node₂.tx = false

instance decidableNoDoubleSpend (dag : Dag) (call : Call) : Decidable (call.NoDoubleSpend dag) :=
  match call with
  | .insert _ => inferInstanceAs (Decidable True)
  | .settleBatch batch =>
    decidable_of_iff
      ((batch.all fun h₁ => batch.all fun h₂ => h₁ == h₂ || (dag.get h₁).all fun node₁ =>
        (dag.get h₂).all fun node₂ => !node₁.tx.conflictsWith node₂.tx) = true) <| by
      simp only [List.all_eq_true, Bool.or_eq_true, beq_iff_eq, Option.all_eq_true,
        Bool.not_eq_true']
      constructor
      · intro hall h₁ hmem₁ h₂ hmem₂ node₁ node₂ hne hget₁ hget₂
        exact ((hall h₁ hmem₁ h₂ hmem₂).resolve_left hne) node₁ hget₁ node₂ hget₂
      · intro hall h₁ hmem₁ h₂ hmem₂
        by_cases heq : h₁ = h₂
        · exact .inl heq
        · exact .inr fun node₁ hget₁ node₂ hget₂ =>
            hall h₁ hmem₁ h₂ hmem₂ node₁ node₂ heq hget₁ hget₂

/-- The joint invariant that makes settlement final. -/
structure Sound (dag : Dag) : Prop where
  free : dag.ConflictFree
  closed : dag.CausallyClosed

theorem sound_new : Sound new where
  free := conflictFree_new
  closed := by
    rintro h tx ⟨node, hget, _⟩
    cases hget

theorem Sound.ready {tx : Transaction} (hsound : dag.Sound) (hset : dag.SettledAt h tx) :
    dag.Ready h tx := by
  obtain ⟨node, hget, htx, _⟩ := id hset
  refine ⟨⟨node, hget, htx⟩, hsound.closed h tx hset, ?_⟩
  intro h' tx' hne hset'
  exact hsound.free h h' tx tx' hset hset' (Ne.symm hne)

theorem compatible_of_noDoubleSpend (hcall : Call.NoDoubleSpend dag (.settleBatch batch)) :
    dag.Compatible batch := by
  intro h₁ hmem₁ h₂ hmem₂ tx₁ tx₂ hne hready₁ hready₂
  obtain ⟨node₁, hget₁, rfl⟩ := hready₁.1
  obtain ⟨node₂, hget₂, rfl⟩ := hready₂.1
  exact hcall h₁ hmem₁ h₂ hmem₂ node₁ node₂ hne hget₁ hget₂

theorem Sound.settledAt_step {tx : Transaction} (hsound : dag.Sound) (call : Call)
    (hset : dag.SettledAt h tx) : (dag.step call).SettledAt h tx := by
  cases call with
  | insert tx' => exact settledAt_insertStep.mpr hset
  | settleBatch batch =>
    apply settledAt_settleBatch.mpr
    split
    · exact hsound.ready hset
    · exact hset

theorem Sound.step {call : Call} (hsound : dag.Sound) (hcall : call.NoDoubleSpend dag) :
    (dag.step call).Sound := by
  constructor
  case free =>
    cases call with
    | insert tx => exact (conflictFree_insertStep_iff tx).mpr hsound.free
    | settleBatch batch =>
      exact (conflictFree_settleBatch_iff hsound.free).mpr (compatible_of_noDoubleSpend hcall)
  case closed =>
    intro h tx hset parent hparent
    -- the parents were settled before the call, and nothing settled is lost
    have hbefore : ∃ ptx, dag.SettledAt parent ptx := by
      cases call with
      | insert tx' => exact hsound.closed h tx (settledAt_insertStep.mp hset) parent hparent
      | settleBatch batch =>
        have hready := settledAt_settleBatch.mp hset
        split at hready
        · exact hready.2.1 parent hparent
        · exact hsound.closed h tx hready parent hparent
    obtain ⟨ptx, hptx⟩ := hbefore
    exact ⟨ptx, hsound.settledAt_step call hptx⟩

/-- In a run without a batch that holds two conflicting transactions, a settled
transaction stays settled and its parents are settled. -/
theorem settlement_final_and_closed (calls : List Call)
    (hcalls : Meets step Call.NoDoubleSpend new calls) :
    (∀ pre post, calls = pre ++ post → ∀ h tx, (pre.foldl step new).SettledAt h tx →
      ∀ dag ∈ visited step (pre.foldl step new) post, dag.SettledAt h tx) ∧
    ∀ dag ∈ visited step new calls, dag.CausallyClosed := by
  constructor
  · rintro pre post rfl h tx hset
    obtain ⟨hpre, hpost⟩ := meets_append.mp hcalls
    have hsound : (pre.foldl step new).Sound :=
      hpre.foldl sound_new fun dag call hsound hcall => hsound.step hcall
    have hboth : ∀ dag ∈ visited step (pre.foldl step new) post,
        dag.Sound ∧ dag.SettledAt h tx :=
      hpost.forall_visited ⟨hsound, hset⟩ fun dag call hdag hcall =>
        ⟨hdag.1.step hcall, hdag.1.settledAt_step call hdag.2⟩
    exact fun dag hdag => (hboth dag hdag).2
  · intro dag hdag
    exact (hcalls.forall_visited sound_new
      (fun dag call hsound hcall => hsound.step hcall) dag hdag).closed

/-- Settling a transaction again, together with its child. -/
def resettled : List Call :=
  [.insert (sampleTx 1 0 []), .settleBatch [Vector.replicate 32 1],
    .insert (sampleTx 2 1 [Vector.replicate 32 1]),
    .settleBatch [Vector.replicate 32 1, Vector.replicate 32 2]]

theorem settlement_final_and_closed_resettle :
    Meets step Call.NoDoubleSpend new resettled ∧
      ∀ dag ∈ visited step new resettled, dag.CausallyClosed := by
  have hcalls : Meets step Call.NoDoubleSpend new resettled := by decide
  exact ⟨hcalls, (settlement_final_and_closed resettled hcalls).2⟩

end Dag

end Oikos.Koinon
