/-
The multi-version store of `tpt-archon-relational`.  A transaction reads from a snapshot
and buffers its writes; committing validates the keys it touched and appends one version
for each write.  The transactions that commit are serializable, however the calls of many
are interleaved.
-/
import Oikos.Lib.Fold
import Oikos.Archon.BTree
import Oikos.Lib.Bits

namespace Oikos.Archon

open List

section Store

open Std (TreeMap)

/-- A committed version of a value.  Nats are counted without bound; the
clock panics where the 64-bit counter overflows. -/
structure Version where
  commitTs : Nat
  value : Bytes
deriving Repr, DecidableEq

/-- Versions of each key in the order of their commits, and the last commit
timestamp handed out. -/
structure MvccStore where
  versions : TreeMap Key (List Version)
  clock : Nat

structure Transaction where
  snapshot : Nat
  reads : List Key
  writes : TreeMap Key Bytes
  committed : Bool

inductive CommitError where
  | conflict
deriving Repr, DecidableEq

namespace Transaction

def getWrite (txn : Transaction) (key : Key) : Option Bytes :=
  txn.writes[key]?

def writesIter (txn : Transaction) : List (Key × Bytes) :=
  txn.writes.toList

end Transaction

namespace MvccStore

def new : MvccStore :=
  ⟨∅, 0⟩

def begin (store : MvccStore) : Transaction :=
  ⟨store.clock, [], ∅, false⟩

/-- The newest version not after `asOf`. -/
def visibleValue (store : MvccStore) (key : Key) (asOf : Nat) : Option Bytes := do
  let chain ← store.versions[key]?
  let v ← chain.reverse.find? fun v => decide (v.commitTs ≤ asOf)
  some v.value

def read (store : MvccStore) (txn : Transaction) (key : Key) : Option Bytes × Transaction :=
  let txn := { txn with reads := txn.reads ++ [key] }
  match txn.writes[key]? with
  | some v => (some v, txn)
  | none => (store.visibleValue key txn.snapshot, txn)

def write (_store : MvccStore) (txn : Transaction) (key : Key) (value : Bytes) : Transaction :=
  { txn with writes := txn.writes.insert key value }

def latestCommitTs (store : MvccStore) (key : Key) : Option Nat := do
  let chain ← store.versions[key]?
  let v ← chain.getLast?
  some v.commitTs

def stale (store : MvccStore) (snapshot : Nat) (key : Key) : Bool :=
  match store.latestCommitTs key with
  | some latest => decide (latest > snapshot)
  | none => false

/-- Append a version of `key`. -/
def pushVersion (commitTs : Nat) (versions : TreeMap Key (List Version))
    (p : Key × Bytes) : TreeMap Key (List Version) :=
  versions.insert p.1 ((versions[p.1]?).getD [] ++ [⟨commitTs, p.2⟩])

def commit (store : MvccStore) (txn : Transaction) :
    Result Empty (MvccStore × Except CommitError Nat) :=
  if (txn.reads ++ txn.writes.keys).any (store.stale txn.snapshot) then
    .ok (store, .error .conflict)
  else if store.clock + 1 < 2 ^ 64 then
    let commitTs := store.clock + 1
    let versions := txn.writes.toList.foldl (pushVersion commitTs) store.versions
    .ok (⟨versions, commitTs⟩, .ok commitTs)
  else .error .panic

def latest (store : MvccStore) (key : Key) : Option Bytes := do
  let chain ← store.versions[key]?
  let v ← chain.getLast?
  some v.value

def chain (store : MvccStore) (key : Key) : List Version :=
  (store.versions[key]?).getD []

variable {store store' : MvccStore} {txn : Transaction} {key : Key} {ts : Nat}

theorem visibleValue_eq (store : MvccStore) (key : Key) (asOf : Nat) :
    store.visibleValue key asOf =
      ((store.chain key).reverse.find? fun v => decide (v.commitTs ≤ asOf)).map Version.value := by
  unfold visibleValue chain
  cases store.versions[key]? with
  | none => rfl
  | some c => cases hf : c.reverse.find? (fun v => decide (v.commitTs ≤ asOf)) <;> simp [hf]

theorem latestCommitTs_eq (store : MvccStore) (key : Key) :
    store.latestCommitTs key = (store.chain key).getLast?.map Version.commitTs := by
  unfold latestCommitTs chain
  cases store.versions[key]? with
  | none => rfl
  | some c => cases hl : c.getLast? <;> simp [hl]

theorem latest_eq (store : MvccStore) (key : Key) :
    store.latest key = (store.chain key).getLast?.map Version.value := by
  unfold latest chain
  cases store.versions[key]? with
  | none => rfl
  | some c => cases hl : c.getLast? <;> simp [hl]

/-- What `commit` can do: refuse and change nothing, or append the writes. -/
theorem commit_cases {r : Except CommitError Nat}
    (h : store.commit txn = .ok (store', r)) :
    (r = .error .conflict ∧ store' = store) ∨
    ((∀ key, (key ∈ txn.reads ∨ key ∈ txn.writes) → store.stale txn.snapshot key = false) ∧
      r = .ok (store.clock + 1) ∧ store'.clock = store.clock + 1 ∧
      store'.versions =
        txn.writes.toList.foldl (pushVersion (store.clock + 1)) store.versions) := by
  unfold commit at h
  split at h
  · obtain ⟨rfl, rfl⟩ : store = store' ∧ Except.error CommitError.conflict = r := by
      simpa using h
    exact Or.inl ⟨rfl, rfl⟩
  · next hstale =>
    split at h
    · obtain ⟨rfl, rfl⟩ : _ = store' ∧ _ = r := by simpa using h
      refine Or.inr ⟨?_, rfl, rfl, rfl⟩
      intro key hkey
      simp only [any_eq_true, not_exists, not_and, Bool.not_eq_true] at hstale
      apply hstale key
      rcases hkey with hkey | hkey
      · exact mem_append_left _ hkey
      · exact mem_append_right _ (Std.TreeMap.mem_keys.mpr hkey)
    · cases h

theorem chain_of_commit
    (h : store'.versions = txn.writes.toList.foldl (pushVersion ts) store.versions) (key : Key) :
    store'.chain key = match txn.writes[key]? with
      | some v => store.chain key ++ [⟨ts, v⟩]
      | none => store.chain key := by
  have hfold := get_foldl_toList (fun (m : TreeMap Key (List Version)) k => (m[k]?).getD [])
    (pushVersion ts) (fun c v => c ++ [⟨ts, v⟩]) ?_ txn.writes store.versions key
  · simp only [chain, h]
    rw [hfold]
    cases txn.writes[key]? <;> rfl
  · intro m k v k'
    simp only [pushVersion, Std.TreeMap.getElem?_insert, Std.compare_eq_iff_eq]
    by_cases hk : k' = k
    · simp [hk]
    · simp [hk, Ne.symm hk]

/-! ### Timestamps -/

/-- No version is newer than the clock. -/
def Timely (store : MvccStore) : Prop :=
  ∀ key, ∀ v ∈ store.chain key, v.commitTs ≤ store.clock

theorem timely_new : new.Timely := by
  intro key v hv
  simp [chain, new] at hv

theorem Timely.not_stale (h : store.Timely) (key : Key) :
    store.stale store.clock key = false := by
  unfold stale
  rw [latestCommitTs_eq]
  rcases eq_nil_or_concat (store.chain key) with hnil | ⟨c, v, hc⟩
  · simp [hnil]
  · have hv := h key v (by simp [hc])
    simp [hc, hv]

theorem Timely.commit (h : store.Timely)
    (hversions : store'.versions =
      txn.writes.toList.foldl (pushVersion (store.clock + 1)) store.versions)
    (hclock : store'.clock = store.clock + 1) :
    store'.Timely := by
  intro key v hv
  rw [hclock]
  rw [chain_of_commit hversions key] at hv
  cases hw : txn.writes[key]? with
  | none =>
    rw [hw] at hv
    exact Nat.le_succ_of_le (h key v hv)
  | some w =>
    rw [hw] at hv
    rcases mem_append.mp hv with hv | hv
    · exact Nat.le_succ_of_le (h key v hv)
    · obtain rfl : v = ⟨store.clock + 1, w⟩ := by simpa using hv
      exact le_refl _

/-- Whether it is refused or not. -/
theorem Timely.of_commit {r : Except CommitError Nat} (h : store.Timely)
    (hcommit : store.commit txn = .ok (store', r)) : store'.Timely := by
  rcases commit_cases hcommit with ⟨_, rfl⟩ | ⟨_, _, hclock, hversions⟩
  · exact h
  · exact h.commit hversions hclock

theorem Timely.commit_ok (h : store.Timely) (hsnap : txn.snapshot = store.clock)
    (hclock : store.clock + 1 < 2 ^ 64) :
    ∃ store', store.commit txn = .ok (store', .ok (store.clock + 1)) := by
  have hfresh : ¬ (txn.reads ++ txn.writes.keys).any (store.stale txn.snapshot) = true := by
    rw [hsnap, any_eq_true]
    rintro ⟨key, _, hstale⟩
    rw [h.not_stale key] at hstale
    cases hstale
  exact ⟨_, by rw [MvccStore.commit, if_neg hfresh, if_pos hclock]⟩

end MvccStore

end Store

section Interleavings

open Std (TreeMap)

/-! ### Interleaved calls -/

/-- The name by which a client refers to its transaction. -/
abbrev TxnId := Nat

inductive TxnOp where
  | read (key : Key)
  | write (key : Key) (value : Bytes)
deriving Repr, DecidableEq

/-- A transaction in progress, with what it did and what its reads returned. -/
structure Session where
  txn : Transaction
  ops : List TxnOp
  seen : List (Option Bytes)

structure Committed where
  ts : Nat
  ops : List TxnOp
  seen : List (Option Bytes)

/-- The store, the transactions in progress, and those committed so far. -/
structure Clients where
  store : MvccStore
  session : TxnId → Option Session
  history : List Committed

inductive ClientCall where
  | begin (id : TxnId)
  | read (id : TxnId) (key : Key)
  | write (id : TxnId) (key : Key) (value : Bytes)
  | commit (id : TxnId)
deriving Repr, DecidableEq

namespace Clients

def initial : Clients :=
  ⟨.new, fun _ => none, []⟩

def setSession (c : Clients) (id : TxnId) (s : Option Session) : Clients :=
  { c with session := fun i => if i = id then s else c.session i }

/-- One call.  A client without a transaction can only begin one, and `commit`
uses the transaction up. -/
def step (c : Clients) : ClientCall → Result Empty Clients
  | .begin id => .ok (c.setSession id (some ⟨c.store.begin, [], []⟩))
  | .read id key =>
    match c.session id with
    | none => .ok c
    | some s =>
      let (value, txn) := c.store.read s.txn key
      .ok (c.setSession id (some ⟨txn, s.ops ++ [.read key], s.seen ++ [value]⟩))
  | .write id key value =>
    match c.session id with
    | none => .ok c
    | some s =>
      .ok (c.setSession id
        (some ⟨c.store.write s.txn key value, s.ops ++ [.write key value], s.seen⟩))
  | .commit id =>
    match c.session id with
    | none => .ok c
    | some s => do
      let (store, outcome) ← c.store.commit s.txn
      let c := { c.setSession id none with store := store }
      match outcome with
      | .ok ts => .ok { c with history := c.history ++ [⟨ts, s.ops, s.seen⟩] }
      | .error .conflict => .ok c

end Clients

/-! ### Serial execution -/

/-- A single-version map. -/
abbrev Single := Key → Option Bytes

/-- The map after one operation. -/
def TxnOp.after (m : Single) : TxnOp → Single
  | .read _ => m
  | .write key value => fun k => if k = key then some value else m k

/-- Run the operations of one transaction: what the reads return and the map
afterwards. -/
def rerun (m : Single) : List TxnOp → List (Option Bytes) × Single
  | [] => ([], m)
  | .read key :: ops => (m key :: (rerun m ops).1, (rerun m ops).2)
  | .write key value :: ops => rerun (TxnOp.after m (.write key value)) ops

/-- Run transactions one after another. -/
def rerunAll (m : Single) : List (List TxnOp) → List (List (Option Bytes)) × Single
  | [] => ([], m)
  | ops :: rest =>
    ((rerun m ops).1 :: (rerunAll (rerun m ops).2 rest).1, (rerunAll (rerun m ops).2 rest).2)

theorem rerun_append (m : Single) (ops ops' : List TxnOp) :
    rerun m (ops ++ ops') =
      ((rerun m ops).1 ++ (rerun (rerun m ops).2 ops').1, (rerun (rerun m ops).2 ops').2) := by
  induction ops generalizing m with
  | nil => rfl
  | cons op ops ih => cases op <;> simp [rerun, ih]

theorem rerunAll_append (m : Single) (txns txns' : List (List TxnOp)) :
    rerunAll m (txns ++ txns') =
      ((rerunAll m txns).1 ++ (rerunAll (rerunAll m txns).2 txns').1,
        (rerunAll (rerunAll m txns).2 txns').2) := by
  induction txns generalizing m with
  | nil => rfl
  | cons ops txns ih => simp [rerunAll, ih]

def overlay (writes : TreeMap Key Bytes) (m : Single) : Single :=
  fun k => (writes[k]?).or (m k)

theorem rerun_congr {m m' : Single} {ops : List TxnOp}
    (h : ∀ key, .read key ∈ ops → m key = m' key) : (rerun m ops).1 = (rerun m' ops).1 := by
  induction ops generalizing m m' with
  | nil => rfl
  | cons op ops ih =>
    cases op with
    | read key =>
      simp only [rerun]
      rw [h key mem_cons_self, ih fun k hk => h k (mem_cons_of_mem _ hk)]
    | write key value =>
      refine ih fun k hk => ?_
      simp only [TxnOp.after]
      rw [h k (mem_cons_of_mem _ hk)]

/-- The bookkeeping of a transaction that found the map `m` is right. -/
structure Tracks (s : Session) (m : Single) : Prop where
  reads : ∀ key, .read key ∈ s.ops → key ∈ s.txn.reads
  seen : (rerun m s.ops).1 = s.seen
  left : ∀ m, (rerun m s.ops).2 = overlay s.txn.writes m

theorem tracks_begin (store : MvccStore) (m : Single) :
    Tracks ⟨store.begin, [], []⟩ m where
  reads := by simp
  seen := rfl
  left m := by
    funext k
    simp [overlay, MvccStore.begin, rerun]

theorem Tracks.read {s : Session} {m : Single} (h : Tracks s m) (store : MvccStore) (key : Key)
    (hm : store.visibleValue key s.txn.snapshot = m key) :
    Tracks ⟨(store.read s.txn key).2, s.ops ++ [.read key],
      s.seen ++ [(store.read s.txn key).1]⟩ m := by
  have hvalue : (store.read s.txn key).1 = overlay s.txn.writes m key := by
    unfold MvccStore.read overlay
    cases hw : s.txn.writes[key]? <;> simp [hw, hm]
  have htxn : (store.read s.txn key).2 = { s.txn with reads := s.txn.reads ++ [key] } := by
    unfold MvccStore.read
    cases hw : s.txn.writes[key]? <;> simp [hw]
  refine ⟨?_, ?_, fun m => ?_⟩
  · intro k hk
    rw [htxn]
    rcases mem_append.mp hk with hk | hk
    · exact mem_append_left _ (h.reads k hk)
    · obtain rfl : k = key := by simpa using hk
      exact mem_append_right _ mem_cons_self
  · simp [rerun_append, rerun, h.seen, h.left, hvalue]
  · simp [rerun_append, rerun, h.left, htxn]

theorem Tracks.write {s : Session} {m : Single} (h : Tracks s m) (store : MvccStore) (key : Key)
    (value : Bytes) :
    Tracks ⟨store.write s.txn key value, s.ops ++ [.write key value], s.seen⟩ m := by
  refine ⟨?_, ?_, fun m => ?_⟩
  · intro k hk
    exact h.reads k (by simpa using hk)
  · simp [rerun_append, rerun, h.seen]
  · funext k
    simp only [rerun_append, rerun, TxnOp.after, h.left, overlay, MvccStore.write,
      Std.TreeMap.getElem?_insert, Std.compare_eq_iff_eq]
    by_cases hk : k = key
    · simp [hk]
    · simp [hk, Ne.symm hk]

/-- A transaction that would read the same from `m'` can be run there instead. -/
theorem Tracks.move {s : Session} {m m' : Single} (h : Tracks s m)
    (hm : ∀ key ∈ s.txn.reads, m key = m' key) : Tracks s m' where
  reads := h.reads
  seen := by
    rw [← h.seen]
    exact (rerun_congr fun key hk => hm key (h.reads key hk)).symm
  left := h.left

/-! ### Version chains -/

namespace MvccStore

variable {store store' : MvccStore} {txn : Transaction} {key : Key} {ts : Nat}

theorem visibleValue_of_not_stale (h : store.Timely) {snapshot : Nat}
    (hstale : store.stale snapshot key = false) :
    store.visibleValue key snapshot = store.visibleValue key store.clock := by
  rw [visibleValue_eq, visibleValue_eq]
  unfold stale at hstale
  rw [latestCommitTs_eq] at hstale
  rcases eq_nil_or_concat (store.chain key) with hnil | ⟨c, v, hc⟩
  · simp [hnil]
  · rw [hc] at hstale
    have hv := h key v (by simp [hc])
    have hle : v.commitTs ≤ snapshot := by simpa using hstale
    simp [hc, hv, hle]

theorem latest_eq_visibleValue (h : store.Timely) (key : Key) :
    store.latest key = store.visibleValue key store.clock := by
  rw [latest_eq, visibleValue_eq]
  rcases eq_nil_or_concat (store.chain key) with hnil | ⟨c, v, hc⟩
  · simp [hnil]
  · have hv := h key v (by simp [hc])
    simp [hc, hv]

section Commit

variable (hversions : store'.versions =
  txn.writes.toList.foldl (pushVersion (store.clock + 1)) store.versions)
include hversions

theorem visibleValue_commit_old (hts : ts ≤ store.clock) :
    store'.visibleValue key ts = store.visibleValue key ts := by
  have hlt : ¬ store.clock + 1 ≤ ts := by omega
  rw [visibleValue_eq, visibleValue_eq, chain_of_commit hversions key]
  cases hw : txn.writes[key]? with
  | none => rfl
  | some w => simp [hlt]

theorem visibleValue_commit_new (h : store.Timely) :
    store'.visibleValue key (store.clock + 1) =
      overlay txn.writes (fun k => store.visibleValue k store.clock) key := by
  rw [visibleValue_eq, chain_of_commit hversions key]
  unfold overlay
  cases hw : txn.writes[key]? with
  | none =>
    simp only [Option.none_or, visibleValue_eq]
    rcases eq_nil_or_concat (store.chain key) with hnil | ⟨c, v, hc⟩
    · simp [hnil]
    · have hv := h key v (by simp [hc])
      simp [hc, hv, Nat.le_succ_of_le hv]
  | some w => simp

end Commit

end MvccStore

/-! ### Serializability -/

namespace Clients

variable {c c' : Clients}

/-- The serial state after the first `n` commits. -/
def serialState (history : List Committed) (n : Nat) : Single :=
  (rerunAll (fun _ => none) ((history.take n).map Committed.ops)).2

/-- The invariant of the interleaving. -/
structure Inv (c : Clients) : Prop where
  stamps : c.history.map Committed.ts = List.range' 1 c.store.clock
  timely : c.store.Timely
  visible : ∀ key, ∀ ts ≤ c.store.clock,
    c.store.visibleValue key ts = serialState c.history ts key
  serial : (rerunAll (fun _ => none) (c.history.map Committed.ops)).1 =
    c.history.map Committed.seen
  sessions : ∀ id s, c.session id = some s → s.txn.snapshot ≤ c.store.clock ∧
    Tracks s (serialState c.history s.txn.snapshot)

theorem Inv.length (h : Inv c) : c.history.length = c.store.clock := by
  have hlen := congrArg List.length h.stamps
  simpa using hlen

theorem inv_initial : Inv initial where
  stamps := rfl
  timely := by
    intro key v hv
    simp [initial, MvccStore.chain, MvccStore.new] at hv
  visible := by
    intro key ts _
    simp [initial, MvccStore.visibleValue, MvccStore.new, serialState, rerunAll]
  serial := rfl
  sessions := by
    intro id s hs
    cases hs

theorem Inv.setSession (h : Inv c) (id : TxnId) {o : Option Session}
    (ho : ∀ s, o = some s → s.txn.snapshot ≤ c.store.clock ∧
      Tracks s (serialState c.history s.txn.snapshot)) : Inv (c.setSession id o) where
  stamps := h.stamps
  timely := h.timely
  visible := h.visible
  serial := h.serial
  sessions := by
    intro i s hs
    simp only [Clients.setSession] at hs
    split at hs
    · exact ho s hs
    · exact h.sessions i s hs

theorem serialState_append {history : List Committed} {x : Committed} {n : Nat}
    (hn : n ≤ history.length) : serialState (history ++ [x]) n = serialState history n := by
  simp only [serialState, take_append_of_le_length hn]

theorem serialState_append_new (history : List Committed) (x : Committed) :
    serialState (history ++ [x]) (history.length + 1) =
      (rerun (serialState history history.length) x.ops).2 := by
  rw [serialState, take_of_length_le (by simp), map_append, rerunAll_append]
  simp [serialState, rerunAll]

theorem Inv.commit (h : Inv c) {id : TxnId} {s : Session} {store : MvccStore}
    (hs : c.session id = some s)
    (hvalid : ∀ key, (key ∈ s.txn.reads ∨ key ∈ s.txn.writes) →
      c.store.stale s.txn.snapshot key = false)
    (hclock : store.clock = c.store.clock + 1)
    (hversions : store.versions = s.txn.writes.toList.foldl
      (MvccStore.pushVersion (c.store.clock + 1)) c.store.versions) :
    Inv { c.setSession id none with
      store := store, history := c.history ++ [⟨c.store.clock + 1, s.ops, s.seen⟩] } := by
  obtain ⟨hsnap, htracks⟩ := h.sessions id s hs
  have hlen := h.length
  -- nothing the transaction read has changed since its snapshot
  have hnow : Tracks s (serialState c.history c.history.length) := by
    refine htracks.move fun key hkey => ?_
    rw [← h.visible key _ hsnap, hlen, ← h.visible key _ (le_refl _)]
    exact MvccStore.visibleValue_of_not_stale h.timely (hvalid key (Or.inl hkey))
  have hfull : (rerunAll (fun _ => none) (c.history.map Committed.ops)).2 =
      serialState c.history c.history.length := by
    simp [serialState]
  refine ⟨?_, h.timely.commit hversions hclock, ?_, ?_, ?_⟩
  · simp only [map_append, map_cons, map_nil]
    rw [h.stamps, hclock, range'_1_concat, add_comm 1]
  · intro key ts hts
    simp only [hclock] at hts
    rcases Nat.lt_or_eq_of_le hts with hlt | rfl
    · have hold : ts ≤ c.store.clock := Nat.lt_succ_iff.mp hlt
      rw [serialState_append (by omega)]
      exact (MvccStore.visibleValue_commit_old hversions hold).trans (h.visible key ts hold)
    · rw [← hlen, serialState_append_new, hlen]
      refine (MvccStore.visibleValue_commit_new hversions h.timely).trans ?_
      have hvis : (fun k => c.store.visibleValue k c.store.clock) =
          serialState c.history c.store.clock :=
        funext fun k => h.visible k _ (le_refl _)
      rw [hvis, hnow.left]
  · simp only [map_append, map_cons, map_nil]
    rw [rerunAll_append, h.serial, hfull]
    simp [rerunAll, hnow.seen]
  · intro i s' hs'
    simp only [Clients.setSession] at hs'
    split at hs'
    · cases hs'
    · obtain ⟨hsnap', htracks'⟩ := h.sessions i s' hs'
      refine ⟨by simp only [hclock]; omega, ?_⟩
      rw [serialState_append (by omega)]
      exact htracks'

theorem Inv.step (h : Inv c) (call : ClientCall) (hstep : c.step call = .ok c') : Inv c' := by
  cases call with
  | begin id =>
    obtain rfl : _ = c' := by simpa [Clients.step] using hstep
    refine h.setSession id fun s hs => ?_
    obtain rfl := Option.some.inj hs
    exact ⟨le_refl _, tracks_begin c.store _⟩
  | read id key =>
    cases hs : c.session id with
    | none =>
      obtain rfl : c = c' := by simpa [Clients.step, hs] using hstep
      exact h
    | some s =>
      obtain rfl : _ = c' := by simpa [Clients.step, hs] using hstep
      obtain ⟨hsnap, htracks⟩ := h.sessions id s hs
      have hsnap' : (c.store.read s.txn key).2.snapshot = s.txn.snapshot := by
        unfold MvccStore.read
        cases hw : s.txn.writes[key]? <;> simp [hw]
      refine h.setSession id fun s' hs' => ?_
      obtain rfl := Option.some.inj hs'
      simp only [hsnap']
      exact ⟨hsnap, htracks.read c.store key (h.visible key _ hsnap)⟩
  | write id key value =>
    cases hs : c.session id with
    | none =>
      obtain rfl : c = c' := by simpa [Clients.step, hs] using hstep
      exact h
    | some s =>
      obtain rfl : _ = c' := by simpa [Clients.step, hs] using hstep
      obtain ⟨hsnap, htracks⟩ := h.sessions id s hs
      refine h.setSession id fun s' hs' => ?_
      obtain rfl := Option.some.inj hs'
      exact ⟨hsnap, htracks.write c.store key value⟩
  | commit id =>
    cases hs : c.session id with
    | none =>
      obtain rfl : c = c' := by simpa [Clients.step, hs] using hstep
      exact h
    | some s =>
      simp only [Clients.step, hs, bind_eq_ok] at hstep
      obtain ⟨⟨store, outcome⟩, hcommit, hrest⟩ := hstep
      rcases MvccStore.commit_cases hcommit with ⟨rfl, rfl⟩ | ⟨hvalid, rfl, hclock, hversions⟩
      · obtain rfl : _ = c' := by simpa using hrest
        exact h.setSession id (by simp)
      · obtain rfl : _ = c' := by simpa using hrest
        exact h.commit hs hvalid hclock hversions

/-- Whatever the interleaving, the committed transactions read what they would
have read had they been run one after another in the order of their increasing
timestamps, the store ends with the values of that serial run, and a refused
commit leaves the store as it was. -/
theorem committed_serializable (calls : List ClientCall)
    (hrun : steps Clients.step initial calls = .ok c) :
    (c.history.map Committed.ts).Pairwise (· < ·) ∧
      (rerunAll (fun _ => none) (c.history.map Committed.ops)).1 =
        c.history.map Committed.seen ∧
      (∀ key, c.store.latest key =
        (rerunAll (fun _ => none) (c.history.map Committed.ops)).2 key) ∧
      ∀ txn store e, c.store.commit txn = .ok (store, .error e) → store = c.store := by
  have h : Inv c := steps_preserve (fun _ a _ hinv hs => hinv.step a hs) inv_initial hrun
  refine ⟨?_, h.serial, ?_, ?_⟩
  · rw [h.stamps]
    exact pairwise_lt_range'
  · intro key
    rw [MvccStore.latest_eq_visibleValue h.timely, h.visible key _ (le_refl _), serialState,
      ← h.length, take_length]
  · intro txn store e hcommit
    rcases MvccStore.commit_cases hcommit with ⟨_, rfl⟩ | ⟨_, hr, _⟩
    · rfl
    · cases hr

/-- A run in which the second reader of key 1 is refused. -/
theorem committed_serializable_conflict :
    ∃ c, steps Clients.step initial
        [.begin 0, .write 0 1 [10], .commit 0, .begin 1, .begin 2, .read 1 1, .read 2 1,
          .write 2 1 [9], .commit 2, .write 1 2 [5], .commit 1] = .ok c ∧
      c.history.map Committed.seen = [[], [some [10]]] ∧
      (rerunAll (fun _ => none) (c.history.map Committed.ops)).1 =
        c.history.map Committed.seen := by
  have hsome : ∃ c, steps Clients.step initial
        [.begin 0, .write 0 1 [10], .commit 0, .begin 1, .begin 2, .read 1 1, .read 2 1,
          .write 2 1 [9], .commit 2, .write 1 2 [5], .commit 1] = .ok c ∧
      c.history.map Committed.seen = [[], [some [10]]] :=
    ⟨_, rfl, rfl⟩
  obtain ⟨c, hrun, hseen⟩ := hsome
  exact ⟨c, hrun, hseen, (committed_serializable _ hrun).2.1⟩

/-- What an open transaction has seen is what its calls return alone, after the commits of
its snapshot. -/
theorem open_reads_snapshot (calls : List ClientCall)
    (hrun : steps Clients.step initial calls = .ok c) {id : TxnId} {s : Session}
    (hs : c.session id = some s) :
    s.txn.snapshot ≤ c.history.length ∧
      (rerun (serialState c.history s.txn.snapshot) s.ops).1 = s.seen := by
  have h : Inv c := steps_preserve (fun _ a _ hinv hs => hinv.step a hs) inv_initial hrun
  obtain ⟨hsnap, htracks⟩ := h.sessions id s hs
  exact ⟨h.length ▸ hsnap, htracks.seen⟩

/-- The second reader of key 1, before it is refused. -/
theorem open_reads_snapshot_late :
    ∃ (c : Clients) (s : Session), c.session 1 = some s ∧ s.seen = [some [10], some [10]] ∧
      c.store.latest 1 = some [9] ∧ s.txn.snapshot ≤ c.history.length ∧
        (rerun (serialState c.history s.txn.snapshot) s.ops).1 = s.seen := by
  have hsome : ∃ c s, steps Clients.step initial
        [.begin 0, .write 0 1 [10], .commit 0, .begin 1, .begin 2, .read 1 1, .read 2 1,
          .write 2 1 [9], .commit 2, .read 1 1] = .ok c ∧ c.session 1 = some s ∧
      s.seen = [some [10], some [10]] ∧ c.store.latest 1 = some [9] :=
    ⟨_, _, rfl, rfl, rfl, rfl⟩
  obtain ⟨c, s, hrun, hs, hseen, hlatest⟩ := hsome
  exact ⟨c, s, hs, hseen, hlatest, open_reads_snapshot _ hrun hs⟩

end Clients

end Interleavings

end Oikos.Archon
