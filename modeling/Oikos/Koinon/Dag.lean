/-
The transaction DAG of `koinon-dag`: transactions keyed by their hashes, each with a status
and the list of its children, and the set of tips.  The children are exact in every DAG
built by `insert`; no insert ever takes a parent out of the tips.
-/
import Mathlib.Data.List.AList
import Oikos.Lib.Trace

namespace Oikos.Koinon

abbrev TxHash := Vector UInt8 32

abbrev AccountId := UInt64

/-- `u128` units of OIKOS. -/
structure OikosAmount where
  units : BitVec 128
deriving Repr, DecidableEq

/-- `i128` units of KOIN, in two's complement. -/
structure KoinAmount where
  units : BitVec 128
deriving Repr, DecidableEq

inductive TxKind where
  | transferOikos
  | transferKoin
  | mintKoin
  | burnKoin
  | escrowCreate
  | escrowRelease
  | escrowCancel
  | streamStart
  | streamStop
  | rfpPublish
  | rfpRespond
  | mandateCreate
  | mandateSpend
deriving Repr, DecidableEq

inductive TxStatus where
  | pending
  | settled
  | failed
  | conflict
deriving Repr, DecidableEq

structure Transaction where
  hash : TxHash
  kind : TxKind
  sender : AccountId
  recipient : AccountId
  oikosAmount : OikosAmount
  koinAmount : KoinAmount
  gasLimit : UInt64
  nonce : UInt64
  parentHashes : List TxHash
  timestamp : UInt64
deriving DecidableEq

def Transaction.conflictsWith (tx other : Transaction) : Bool :=
  tx.sender == other.sender && tx.nonce == other.nonce

def sampleTx (byte : UInt8) (nonce : UInt64) (parents : List TxHash) : Transaction :=
  ⟨Vector.replicate 32 byte, .transferKoin, 1, 99, ⟨0⟩, ⟨100⟩, 21000, nonce, parents, 1⟩

/-- The errors `insert` returns; the source declares two more that nothing
raises. -/
inductive DagError where
  | missingParent (hash : TxHash)
  | alreadyExists (hash : TxHash)
deriving DecidableEq

structure DagNode where
  tx : Transaction
  status : TxStatus
  children : List TxHash
deriving DecidableEq

/-- The hash map of the nodes is an association list without repeated keys; its
order, like that of the tips, stands for the order of iteration. -/
structure Dag where
  nodes : AList fun _ : TxHash => DagNode
  tipSet : List TxHash

namespace Dag

def new : Dag :=
  ⟨∅, []⟩

def get (dag : Dag) (hash : TxHash) : Option DagNode :=
  dag.nodes.lookup hash

def containsKey (dag : Dag) (hash : TxHash) : Bool :=
  (dag.get hash).isSome

/-- Change the node of a hash through `get_mut`, if there is one. -/
def modify (dag : Dag) (hash : TxHash) (f : DagNode → DagNode) : Dag :=
  match dag.get hash with
  | some node => { dag with nodes := dag.nodes.insert hash (f node) }
  | none => dag

def tips (dag : Dag) : List TxHash :=
  dag.tipSet

/-- The nodes whose status is `Settled`, with their hashes. -/
def settledNodes (dag : Dag) : List (TxHash × DagNode) :=
  (dag.nodes.entries.map fun e => (e.1, e.2)).filter fun p => p.2.status == .settled

/-- `parent.children.push(hash)`. -/
def pushChild (hash : TxHash) (node : DagNode) : DagNode :=
  { node with children := node.children ++ [hash] }

def insert (dag : Dag) (tx : Transaction) : Except DagError Dag :=
  if dag.containsKey tx.hash then
    .error (.alreadyExists tx.hash)
  else
    match tx.parentHashes.find? fun parent => !dag.containsKey parent with
    | some parent => .error (.missingParent parent)
    | none =>
      let dag := { dag with tipSet := dag.tipSet.filter (· != tx.hash) }
      let dag := tx.parentHashes.foldl
        (fun dag parent => dag.modify parent (pushChild tx.hash)) dag
      .ok ⟨dag.nodes.insert tx.hash ⟨tx, .pending, []⟩, dag.tipSet ++ [tx.hash]⟩

variable {dag dag' : Dag} {h h' : TxHash} {node : DagNode} {tx : Transaction}
  {f : DagNode → DagNode}

/-! ### Reading -/

@[simp] theorem get_new (h : TxHash) : new.get h = none := rfl

theorem get_modify (dag : Dag) (h : TxHash) (f : DagNode → DagNode) (h' : TxHash) :
    (dag.modify h f).get h' = if h' = h then (dag.get h).map f else dag.get h' := by
  unfold modify
  split
  · next node hget =>
    by_cases heq : h' = h
    · rw [if_pos heq, heq, hget]
      exact AList.lookup_insert _
    · rw [if_neg heq]
      exact AList.lookup_insert_ne heq
  · next hget =>
    by_cases heq : h' = h
    · rw [if_pos heq, heq, hget, Option.map_none]
    · rw [if_neg heq]

@[simp] theorem tipSet_modify : (dag.modify h f).tipSet = dag.tipSet := by
  unfold modify
  split <;> rfl

theorem mem_settledNodes :
    (h, node) ∈ dag.settledNodes ↔ dag.get h = some node ∧ node.status = .settled := by
  rw [settledNodes, List.mem_filter, beq_iff_eq, get, ← Option.mem_def, AList.mem_lookup_iff]
  apply and_congr_left
  intro _
  simp only [List.mem_map, Prod.mk.injEq]
  constructor
  · rintro ⟨e, he, rfl, rfl⟩
    exact he
  · exact fun he => ⟨_, he, rfl, rfl⟩

/-! ### Inserting -/

/-- What a node becomes when a transaction lists it as a parent `n` times. -/
def pushChildren (hash : TxHash) (n : Nat) (node : DagNode) : DagNode :=
  { node with children := node.children ++ List.replicate n hash }

theorem get_foldl_modify (parents : List TxHash) (dag : Dag) (hash h' : TxHash) :
    (parents.foldl (fun dag parent => dag.modify parent (pushChild hash)) dag).get h' =
      (dag.get h').map (pushChildren hash (parents.count h')) := by
  induction parents generalizing dag with
  | nil =>
    have hid : pushChildren hash (List.count h' []) = id := by
      funext node
      simp [pushChildren]
    rw [hid, Option.map_id_fun, id, List.foldl_nil]
  | cons parent parents ih =>
    rw [List.foldl_cons, ih, get_modify, List.count_cons]
    by_cases heq : h' = parent
    · subst heq
      rw [if_pos rfl, Option.map_map, beq_self_eq_true, if_pos rfl]
      congr 1
      funext node
      simp [pushChild, pushChildren, ← List.replicate_succ]
    · simp [heq, Ne.symm heq]

theorem tipSet_foldl_modify (parents : List TxHash) (dag : Dag) (f : DagNode → DagNode) :
    (parents.foldl (fun dag parent => dag.modify parent f) dag).tipSet = dag.tipSet := by
  induction parents generalizing dag with
  | nil => rfl
  | cons parent parents ih => rw [List.foldl_cons, ih, tipSet_modify]

/-- A transaction that `insert` takes in: its hash is new and its parents are
present. -/
def Insertable (dag : Dag) (tx : Transaction) : Prop :=
  dag.containsKey tx.hash = false ∧ ∀ parent ∈ tx.parentHashes, dag.containsKey parent = true

theorem insert_of_not_insertable (hnot : ¬ dag.Insertable tx) :
    ∃ e, dag.insert tx = .error e := by
  unfold insert
  split
  · exact ⟨_, rfl⟩
  · next hnew =>
    split
    · exact ⟨_, rfl⟩
    · next hfind =>
      refine absurd ⟨by simpa using hnew, fun parent hparent => ?_⟩ hnot
      simpa using List.find?_eq_none.mp hfind parent hparent

/-- Everything a successful `insert` does. -/
theorem insert_of_insertable (hins : dag.Insertable tx) :
    ∃ dag', dag.insert tx = .ok dag' ∧
      (∀ h, dag'.get h = if h = tx.hash then some ⟨tx, .pending, []⟩
        else (dag.get h).map (pushChildren tx.hash (tx.parentHashes.count h))) ∧
      dag'.tipSet = dag.tipSet.filter (· != tx.hash) ++ [tx.hash] := by
  have hfind : (tx.parentHashes.find? fun parent => !dag.containsKey parent) = none :=
    List.find?_eq_none.mpr fun parent hparent => by simp [hins.2 parent hparent]
  refine ⟨_, by rw [insert, if_neg (by simp [hins.1]), hfind], fun h => ?_, ?_⟩
  · by_cases heq : h = tx.hash
    · rw [if_pos heq, heq]
      exact AList.lookup_insert _
    · rw [if_neg heq]
      exact (AList.lookup_insert_ne heq).trans (get_foldl_modify _ _ _ _)
  · exact congrArg (· ++ [tx.hash]) (tipSet_foldl_modify _ _ _)

def insertStep (dag : Dag) (tx : Transaction) : Dag :=
  match dag.insert tx with
  | .ok dag => dag
  | .error _ => dag

theorem insertStep_of_not_insertable (hnot : ¬ dag.Insertable tx) : dag.insertStep tx = dag := by
  obtain ⟨e, he⟩ := insert_of_not_insertable hnot
  rw [insertStep, he]

theorem get_insertStep (hins : dag.Insertable tx) (h : TxHash) :
    (dag.insertStep tx).get h = if h = tx.hash then some ⟨tx, .pending, []⟩
      else (dag.get h).map (pushChildren tx.hash (tx.parentHashes.count h)) := by
  obtain ⟨dag', hok, hget, _⟩ := insert_of_insertable hins
  rw [insertStep, hok]
  exact hget h

theorem tipSet_insertStep (hins : dag.Insertable tx) :
    (dag.insertStep tx).tipSet = dag.tipSet.filter (· != tx.hash) ++ [tx.hash] := by
  obtain ⟨dag', hok, _, htips⟩ := insert_of_insertable hins
  rw [insertStep, hok]
  exact htips

/-! ### Indexes -/

section Indexes

variable {dag : Dag} {h child : TxHash} {node : DagNode} {tx : Transaction}

/-- `child` is present and lists `h` as a parent. -/
def ListsParent (dag : Dag) (child h : TxHash) : Prop :=
  ∃ node, dag.get child = some node ∧ h ∈ node.tx.parentHashes

/-- The tips are the present hashes that no present transaction has as a parent. -/
def TipsExact (dag : Dag) : Prop :=
  ∀ h, h ∈ dag.tips ↔ dag.containsKey h = true ∧ ∀ child, ¬ dag.ListsParent child h

def ChildrenExact (dag : Dag) : Prop :=
  ∀ h node, dag.get h = some node → ∀ child, child ∈ node.children ↔ dag.ListsParent child h

/-- What every DAG built by `insert` satisfies. -/
structure Linked (dag : Dag) : Prop where
  hash : ∀ h node, dag.get h = some node → node.tx.hash = h
  parents : ∀ h child, dag.ListsParent child h → dag.containsKey h = true
  children : dag.ChildrenExact
  tips : ∀ h, h ∈ dag.tips ↔ dag.containsKey h = true

theorem linked_new : Linked new where
  hash h node hget := by cases hget
  parents h child hlists := by
    obtain ⟨node, hget, _⟩ := hlists
    cases hget
  children h node hget := by cases hget
  tips h := by simp [tips, new, containsKey, get]

theorem containsKey_insertStep (hins : dag.Insertable tx) (h : TxHash) :
    (dag.insertStep tx).containsKey h = true ↔ h = tx.hash ∨ dag.containsKey h = true := by
  rw [containsKey, get_insertStep hins]
  by_cases heq : h = tx.hash
  · simp [heq]
  · simp [heq, containsKey]

theorem listsParent_insertStep (hins : dag.Insertable tx) (child h : TxHash) :
    (dag.insertStep tx).ListsParent child h ↔
      (child = tx.hash ∧ h ∈ tx.parentHashes) ∨ dag.ListsParent child h := by
  have hnew : dag.get tx.hash = none := by
    simpa [containsKey] using hins.1
  unfold ListsParent
  rw [get_insertStep hins]
  by_cases heq : child = tx.hash
  · simp [heq, hnew]
  · simp [heq, pushChildren]

theorem Linked.insertStep (hlinked : dag.Linked) (tx : Transaction) :
    (dag.insertStep tx).Linked := by
  by_cases hins : dag.Insertable tx
  · constructor
    case hash =>
      intro h node hget
      rw [get_insertStep hins] at hget
      split at hget
      · next heq =>
        obtain rfl := Option.some.inj hget
        exact heq.symm
      · obtain ⟨old, hold, rfl⟩ := Option.map_eq_some_iff.mp hget
        exact hlinked.hash h old hold
    case parents =>
      intro h child hlists
      rw [containsKey_insertStep hins]
      rcases (listsParent_insertStep hins child h).mp hlists with ⟨_, hparent⟩ | hlists
      · exact Or.inr (hins.2 h hparent)
      · exact Or.inr (hlinked.parents h child hlists)
    case children =>
      intro h node hget child
      rw [listsParent_insertStep hins]
      rw [get_insertStep hins] at hget
      split at hget
      · next heq =>
        -- a fresh hash has no children yet: no present transaction can list it
        obtain rfl := Option.some.inj hget
        have hfresh : dag.containsKey h ≠ true := by
          rw [heq, hins.1]
          exact Bool.false_ne_true
        constructor
        · exact fun hmem => absurd hmem List.not_mem_nil
        · rintro (⟨_, hparent⟩ | hlists)
          · exact absurd (hins.2 h hparent) hfresh
          · exact absurd (hlinked.parents h child hlists) hfresh
      · obtain ⟨old, hold, rfl⟩ := Option.map_eq_some_iff.mp hget
        rw [pushChildren, List.mem_append, List.mem_replicate, hlinked.children h old hold child,
          or_comm, Ne, List.count_eq_zero, not_not, and_comm]
    case tips =>
      intro h
      rw [Dag.tips, tipSet_insertStep hins, containsKey_insertStep hins, List.mem_append,
        List.mem_filter, List.mem_singleton, bne_iff_ne, ← hlinked.tips h, Dag.tips]
      by_cases heq : h = tx.hash
      · simp [heq]
      · simp [heq]
  · rw [insertStep_of_not_insertable hins]
    exact hlinked

theorem Linked.tipsExact_iff (hlinked : dag.Linked) :
    dag.TipsExact ↔ ∀ child h, ¬ dag.ListsParent child h := by
  constructor
  · intro hexact child h hlists
    have htip : h ∈ dag.tips := (hlinked.tips h).mpr (hlinked.parents h child hlists)
    exact ((hexact h).mp htip).2 child hlists
  · intro hnone h
    rw [hlinked.tips h]
    exact ⟨fun hmem => ⟨hmem, fun child => hnone child h⟩, And.left⟩

theorem Linked.tipsExact_insertStep_iff (hlinked : dag.Linked) (hexact : dag.TipsExact) :
    (dag.insertStep tx).TipsExact ↔ (dag.Insertable tx → tx.parentHashes = []) := by
  by_cases hins : dag.Insertable tx
  · have hnone := hlinked.tipsExact_iff.mp hexact
    rw [(hlinked.insertStep tx).tipsExact_iff]
    simp only [listsParent_insertStep hins, hnone, or_false, hins, forall_const]
    constructor
    · intro hall
      apply List.eq_nil_iff_forall_not_mem.mpr
      exact fun h hmem => hall tx.hash h ⟨rfl, hmem⟩
    · rintro hnil child h ⟨_, hmem⟩
      rw [hnil] at hmem
      exact List.not_mem_nil hmem
  · rw [insertStep_of_not_insertable hins]
    exact ⟨fun _ h => absurd h hins, fun _ => hexact⟩

/-- Tips and children are exact in every DAG of a run of inserts exactly when no
transaction of the run is taken in with a parent. -/
theorem indexes_exact_iff (txs : List Transaction) :
    (∀ dag ∈ visited insertStep new txs, dag.TipsExact ∧ dag.ChildrenExact) ↔
      Meets insertStep (fun dag tx => dag.Insertable tx → tx.parentHashes = []) new txs := by
  apply forall_visited_iff_meets Linked
  · exact fun dag tx hlinked => hlinked.insertStep tx
  · intro dag tx hlinked hexact
    rw [hlinked.tipsExact_insertStep_iff hexact.1 |>.symm]
    exact and_iff_left (hlinked.insertStep tx).children
  · exact linked_new
  · refine ⟨linked_new.tipsExact_iff.mpr ?_, linked_new.children⟩
    rintro child h ⟨node, hget, _⟩
    cases hget

/-- The parent of a present transaction is still a tip. -/
theorem parent_stays_tip :
    ¬TipsExact ([sampleTx 1 0 [], sampleTx 2 1 [Vector.replicate 32 1]].foldl insertStep new) := by
  intro hexact
  have htip := (hexact (Vector.replicate 32 1)).mp (by decide)
  exact htip.2 (Vector.replicate 32 2) ⟨_, rfl, by decide⟩

end Indexes

end Dag

end Oikos.Koinon
