/-
The B-Link tree as an ordered map.  Every run of insertions and deletions is matched by
the same run on a finite map, scans along the leaf chain list what the map holds, and a
reader that holds a node of an older tree still finds its way.
-/
import Mathlib.Data.Finmap
import Oikos.Archon.BTreeInsert
import Oikos.Lib.Bits

namespace Oikos.Archon

open List

section Scans

variable {K V : Type} [LinearOrder K] {t : BTree K V} {g : Ghost K} {id : NodeId}

namespace BTree

/-- The pair is stored in node `id` or in a node of a later range. -/
def EntryFrom (t : BTree K V) (g : Ghost K) (id : NodeId) (k : K) (v : V) : Prop :=
  ∃ (m : NodeId) (n : Node K V), t.nodes[m]? = some n ∧ (k, v) ∈ n.entries ∧
    (m = id ∨ LowLt (g.low id) (g.low m))

/-- `rest` lists in key order what is stored from leaf `id` on. -/
structure Tail (t : BTree K V) (g : Ghost K) (id : NodeId) (rest : List (K × V)) : Prop where
  sorted : rest.Pairwise (fun a b => a.1 < b.1)
  mem : ∀ k v, (k, v) ∈ rest ↔ t.EntryFrom g id k v

variable {keys : List K} {vals : List V} {highKey : Option K} {k : K}

theorem pairwise_zip (hlen : vals.length = keys.length) (hsorted : keys.Pairwise (· < ·)) :
    (keys.zip vals).Pairwise (fun a b => a.1 < b.1) := by
  have hmap : (keys.zip vals).map Prod.fst = keys := map_fst_zip (by omega)
  rw [← hmap] at hsorted
  exact pairwise_map.mp hsorted

theorem Inv.leaf_of_level (h : Inv t g) (hid : id < t.nodes.length) (hlevel : g.level id = 0) :
    ∃ keys vals right highKey, t.nodes[id]? = some (.leaf keys vals right highKey) ∧
      vals.length = keys.length ∧ keys.Pairwise (· < ·) ∧
      ∀ k ∈ keys, (t.fences g).Covers id k := by
  obtain ⟨n, hn⟩ := exists_node hid
  cases h.node id n hn with
  | leaf _ hlen hsorted hcov => exact ⟨_, _, _, _, hn, hlen, hsorted, hcov⟩
  | internal _ _ hspans =>
    obtain ⟨c, _, _, _, _, hc, _⟩ := hspans.head
    simp only [fences_level] at hc
    omega

theorem Inv.tail_last (h : Inv t g) (hn : t.nodes[id]? = some (.leaf keys vals none highKey)) :
    Tail t g id (keys.zip vals) := by
  cases h.node id _ hn with
  | leaf hlevel hlen hsorted _ =>
    refine ⟨pairwise_zip hlen hsorted, fun k v => ⟨fun hmem => ⟨id, _, hn, hmem, Or.inl rfl⟩, ?_⟩⟩
    rintro ⟨m, x, hx, hmem, rfl | hlt⟩
    · obtain rfl : x = _ := Option.some.inj (hx.symm.trans hn)
      exact hmem
    · obtain ⟨hm, _⟩ := h.covers_of_entry hx hmem
      exact absurd hlt (h.fences.not_lowLt_of_right_none (lt_of_node hn) (fences_right hn)
        (lt_of_node hx) (hm.trans hlevel.symm))

/-- What follows in the chain lies beyond the high key. -/
theorem Inv.lowLe_of_entryFrom (h : Inv t g) {v : V} (he : t.EntryFrom g id k v) :
    LowLe (g.low id) k := by
  obtain ⟨m, x, hx, hmem, rfl | hlt⟩ := he
  · exact (h.covers_of_entry hx hmem).2.1
  · have hcov := (h.covers_of_entry hx hmem).2.1
    simp only [fences_low] at hcov
    cases hm : g.low m with
    | none => rw [hm] at hlt; exact absurd hlt (lowLt_none _)
    | some b =>
      rw [hm] at hlt hcov
      exact lowLe_of_lowLt hlt hcov

theorem Inv.tail_cons (h : Inv t g) {r : NodeId}
    (hn : t.nodes[id]? = some (.leaf keys vals (some r) highKey))
    {rest : List (K × V)} (hrest : Tail t g r rest) : Tail t g id (keys.zip vals ++ rest) := by
  cases h.node id _ hn with
  | leaf hlevel hlen hsorted hcov =>
    obtain ⟨hsize, hrl, hlt, hhigh, hnext⟩ :=
      h.fences.right_next (lt_of_node hn) (fences_right hn)
    refine ⟨?_, fun k v => ⟨?_, ?_⟩⟩
    · rw [pairwise_append]
      refine ⟨pairwise_zip hlen hsorted, hrest.sorted, ?_⟩
      rintro ⟨k, v⟩ hk ⟨k', v'⟩ hk'
      have hlow := h.lowLe_of_entryFrom ((hrest.mem k' v').mp hk')
      have hlt' := (hcov k (mem_keys_of_mem_zip hk)).2
      rw [hhigh] at hlt'
      cases hl : g.low r with
      | none => rw [fences_low, hl] at hlt; exact absurd hlt (lowLt_none _)
      | some b =>
        rw [fences_low, hl] at hlt'
        rw [hl] at hlow
        exact lt_of_lt_of_le (ltHigh_some.mp hlt') (lowLe_some.mp hlow)
    · intro hmem
      rcases mem_append.mp hmem with hmem | hmem
      · exact ⟨id, _, hn, hmem, Or.inl rfl⟩
      · obtain ⟨m, x, hx, hxm, rfl | hm⟩ := (hrest.mem k v).mp hmem
        · exact ⟨m, x, hx, hxm, Or.inr hlt⟩
        · exact ⟨m, x, hx, hxm, Or.inr (lowLt_trans hlt hm)⟩
    · rintro ⟨m, x, hx, hmem, rfl | hm⟩
      · obtain rfl : x = _ := Option.some.inj (hx.symm.trans hn)
        exact mem_append_left rest hmem
      · obtain ⟨hm0, _⟩ := h.covers_of_entry hx hmem
        apply mem_append_right
        rw [hrest.mem]
        exact ⟨m, x, hx, hmem, hnext m (lt_of_node hx) (hm0.trans hlevel.symm) hm⟩

theorem Inv.exists_tail (h : Inv t g) (hid : id < t.nodes.length) (hlevel : g.level id = 0) :
    ∃ rest, Tail t g id rest := by
  -- along the chain there is less and less ahead
  induction hcard : ((t.fences g).ahead id).card using Nat.strong_induction_on generalizing id with
  | h card ih =>
    obtain ⟨keys, vals, right, highKey, hn, _⟩ := h.leaf_of_level hid hlevel
    cases right with
    | none => exact ⟨_, h.tail_last hn⟩
    | some r =>
      have hahead := h.fences.mem_ahead_of_right (lt_of_node hn) (fences_right hn)
      obtain ⟨hsize, hrl, _⟩ := h.fences.right_next (lt_of_node hn) (fences_right hn)
      obtain ⟨rest, hrest⟩ := ih _ (hcard ▸ Fences.card_ahead_lt_of_mem hahead) hsize
        (hrl.trans hlevel) rfl
      exact ⟨_, h.tail_cons hn hrest⟩

/-! ### `range` -/

/-- Membership in the interval of a scan. -/
def inRange (lo hi : K) (p : K × V) : Bool :=
  decide (lo ≤ p.1) && decide (p.1 < hi)

theorem scanLeaf_spec (lo hi : K)
    (hlen : vals.length = keys.length) (hsorted : keys.Pairwise (· < ·)) :
    ∃ ended, scanLeaf lo hi keys vals = .ok ((keys.zip vals).filter (inRange lo hi), ended) ∧
      (ended = true ↔ ∃ k ∈ keys, hi ≤ k) := by
  induction keys generalizing vals with
  | nil => exact ⟨false, by simp [scanLeaf], by simp⟩
  | cons k ks ih =>
    obtain ⟨hk, hks⟩ := pairwise_cons.mp hsorted
    cases vals with
    | nil => simp at hlen
    | cons v vs =>
      obtain ⟨ended, hscan, hended⟩ := ih (by simpa using hlen) hks
      by_cases hhi : hi ≤ k
      · -- the keys that follow are larger still
        refine ⟨true, ?_, by simpa using Or.inl hhi⟩
        have hout : ∀ p ∈ ks.zip vs, inRange lo hi p = false := by
          rintro ⟨k', v'⟩ hp
          have := hhi.trans (le_of_lt (hk k' (mem_keys_of_mem_zip hp)))
          simp [inRange, this]
        have hnone : (ks.zip vs).filter (inRange lo hi) = [] :=
          filter_eq_nil_iff.mpr (fun p hp => by simp [hout p hp])
        simp [scanLeaf, hhi, inRange, hnone]
      · refine ⟨ended, ?_, by simpa [hhi] using hended⟩
        have hlt : k < hi := not_le.mp hhi
        by_cases hlo : lo ≤ k
        · simp [scanLeaf, hhi, hlo, hlt, index, hscan, inRange]
        · simp [scanLeaf, hhi, hlo, hscan, inRange]

theorem Inv.leftmostLeafFor_spec (h : Inv t g) (key : K) :
    ∃ id, t.leftmostLeafFor key = .ok id ∧ id < t.nodes.length ∧ g.level id = 0 ∧
      LowLe (g.low id) key := by
  refine loop_rule (t.leftmostLeafForTurn key)
    (fun m => m < t.nodes.length ∧ LowLe (g.low m) key)
    (fun m => ((t.fences g).ahead m).card)
    (fun _ id => id < t.nodes.length ∧ g.level id = 0 ∧ LowLe (g.low id) key) ?_
    ⟨h.root_lt, by rw [h.root_low]; trivial⟩ (Fences.card_ahead_lt_size h.root_lt)
  rintro m ⟨hm, hle⟩
  obtain ⟨n, hn⟩ := exists_node hm
  cases n with
  | leaf keys vals right highKey =>
    left
    cases h.node m _ hn with
    | leaf hlevel _ _ _ =>
      exact ⟨m, by simp [leftmostLeafForTurn, index_eq_ok hn], hm, hlevel, hle⟩
  | internal keys children right highKey =>
    obtain ⟨c, hc, hmove, _⟩ := h.descend hn hle
    have hahead := hmove.mem_ahead h.fences hm
    exact Or.inr ⟨c, by simp [Next, leftmostLeafForTurn, index_eq_ok hn, hc],
      ⟨(Fences.mem_ahead.mp hahead).1, hmove.lowLe h.fences hm⟩,
      Fences.card_ahead_lt_of_mem hahead, fun _ hr => hr⟩

/-- Past a leaf that holds a key not below `hi` there is nothing left to list. -/
theorem Inv.filter_tail_eq_nil (h : Inv t g) {r : NodeId}
    (hn : t.nodes[id]? = some (.leaf keys vals (some r) highKey))
    {rest : List (K × V)} (hrest : Tail t g r rest) {lo hi : K} (hk : k ∈ keys) (hhi : hi ≤ k) :
    rest.filter (inRange lo hi) = [] := by
  obtain ⟨hsorted, _, hcross⟩ := pairwise_append.mp (h.tail_cons hn hrest).sorted
  cases h.node id _ hn with
  | leaf _ hlen _ _ =>
    obtain ⟨i, hi', rfl⟩ := mem_iff_getElem.mp hk
    have hpair : (keys[i], vals[i]) ∈ keys.zip vals := by
      rw [mem_iff_getElem]
      exact ⟨i, by simp [hlen, hi'], by simp⟩
    rw [filter_eq_nil_iff]
    rintro ⟨k', v'⟩ hk'
    have hlt : keys[i] < k' := hcross _ hpair _ hk'
    simp [inRange, hhi.trans (le_of_lt hlt)]

theorem Inv.rangeLoop_spec (h : Inv t g) (hid : id < t.nodes.length) (hlevel : g.level id = 0)
    (lo hi : K) :
    ∃ out rest, loop (t.rangeTurn lo hi) t.nodes.length (id, []) = .ok out ∧
      Tail t g id rest ∧ out = rest.filter (inRange lo hi) := by
  have hrule := loop_rule (t.rangeTurn lo hi)
    (fun s => s.1 < t.nodes.length ∧ g.level s.1 = 0)
    (fun s => ((t.fences g).ahead s.1).card)
    (fun s out => ∃ rest, Tail t g s.1 rest ∧ out = s.2 ++ rest.filter (inRange lo hi)) ?_
    (s := (id, [])) ⟨hid, hlevel⟩ (Fences.card_ahead_lt_size hid)
  · obtain ⟨out, hout, rest, hrest, heq⟩ := hrule
    exact ⟨out, rest, hout, hrest, by simpa using heq⟩
  · rintro ⟨m, acc⟩ ⟨hm, hml⟩
    obtain ⟨keys, vals, right, highKey, hn, hlen, hsorted, _⟩ := h.leaf_of_level hm hml
    obtain ⟨ended, hscan, hended⟩ := scanLeaf_spec lo hi hlen hsorted
    cases right with
    | none =>
      left
      refine ⟨acc ++ (keys.zip vals).filter (inRange lo hi), ?_, _, h.tail_last hn, rfl⟩
      simp [rangeTurn, index_eq_ok hn, hscan]
    | some r =>
      have hahead := h.fences.mem_ahead_of_right (lt_of_node hn) (fences_right hn)
      obtain ⟨hsize, hrl, _⟩ := h.fences.right_next (lt_of_node hn) (fences_right hn)
      cases ended with
      | true =>
        left
        obtain ⟨rest, hrest⟩ := h.exists_tail hsize (hrl.trans hml)
        obtain ⟨k, hk, hhi⟩ := hended.mp rfl
        refine ⟨acc ++ (keys.zip vals).filter (inRange lo hi), ?_, _, h.tail_cons hn hrest, ?_⟩
        · simp [rangeTurn, index_eq_ok hn, hscan]
        · rw [filter_append, h.filter_tail_eq_nil hn hrest hk hhi, append_nil]
      | false =>
        refine Or.inr ⟨(r, acc ++ (keys.zip vals).filter (inRange lo hi)), ?_,
          ⟨hsize, hrl.trans hml⟩, Fences.card_ahead_lt_of_mem hahead, ?_⟩
        · simp [Next, rangeTurn, index_eq_ok hn, hscan]
        · rintro out ⟨rest, hrest, rfl⟩
          exact ⟨_, h.tail_cons hn hrest, by rw [filter_append, append_assoc]⟩

/-- Seen from a leaf that does not start beyond `k`, an entry under `k` lies
ahead. -/
theorem Inv.entryFrom_of_entry (h : Inv t g) (hid : id < t.nodes.length) (hlevel : g.level id = 0)
    {v : V} (hlow : LowLe (g.low id) k) (he : t.Entry k v) : t.EntryFrom g id k v := by
  obtain ⟨m, n, hn, hmem⟩ := he
  obtain ⟨hm0, _, hhigh⟩ := h.covers_of_entry hn hmem
  refine ⟨m, n, hn, hmem, ?_⟩
  by_cases heq : m = id
  · exact Or.inl heq
  · right
    rcases h.fences.apart m (lt_of_node hn) id hid (hm0.trans hlevel.symm) heq with hb | hb
    · cases hx : (t.fences g).high m with
      | none => rw [hx] at hb; exact absurd hb (not_none_endsBy _)
      | some x =>
        cases hl : g.low id with
        | none => rw [fences_low, hl] at hb; exact absurd hb (not_endsBy_none _)
        | some l =>
          rw [hx, fences_low, hl] at hb
          rw [hx] at hhigh
          rw [hl] at hlow
          exact absurd (lt_of_lt_of_le (ltHigh_some.mp hhigh)
            ((some_endsBy_some.mp hb).trans (lowLe_some.mp hlow))) (lt_irrefl k)
    · exact h.fences.lowLt_of_endsBy hid hb

/-- `range` lists exactly the stored pairs of the interval, in key order. -/
theorem Inv.range_spec (h : Inv t g) (lo hi : K) :
    ∃ out, t.range lo hi = .ok out ∧ out.Pairwise (fun a b => a.1 < b.1) ∧
      ∀ k v, (k, v) ∈ out ↔ lo ≤ k ∧ k < hi ∧ t.Entry k v := by
  by_cases hle : hi ≤ lo
  · refine ⟨[], by simp [range, hle], Pairwise.nil, fun k v => ?_⟩
    simp only [not_mem_nil, false_iff]
    rintro ⟨hlo, hhi, _⟩
    exact lt_irrefl k (lt_of_lt_of_le hhi (hle.trans hlo))
  · obtain ⟨id, hleaf, hid, hlevel, hlow⟩ := h.leftmostLeafFor_spec lo
    obtain ⟨out, rest, hloop, hrest, rfl⟩ := h.rangeLoop_spec hid hlevel lo hi
    refine ⟨rest.filter (inRange lo hi), by simp [range, hle, hleaf, hloop],
      hrest.sorted.filter _, fun k v => ?_⟩
    rw [mem_filter, hrest.mem]
    simp only [inRange, Bool.and_eq_true, decide_eq_true_eq]
    constructor
    · rintro ⟨⟨m, n, hn, hmem, _⟩, hlo, hhi⟩
      exact ⟨hlo, hhi, m, n, hn, hmem⟩
    · rintro ⟨hlo, hhi, he⟩
      have hle' : LowLe (g.low id) k := by
        cases hl : g.low id with
        | none => trivial
        | some l => rw [hl] at hlow; exact (lowLe_some.mp hlow).trans hlo
      exact ⟨h.entryFrom_of_entry hid hlevel hle' he, hlo, hhi⟩

/-! ### `len` -/

theorem Inv.leftmostLeaf_spec (h : Inv t g) :
    ∃ id, t.leftmostLeaf = .ok id ∧ id < t.nodes.length ∧ g.level id = 0 ∧ g.low id = none := by
  refine loop_rule t.leftmostLeafTurn
    (fun m => m < t.nodes.length ∧ g.low m = none)
    (fun m => ((t.fences g).ahead m).card)
    (fun _ id => id < t.nodes.length ∧ g.level id = 0 ∧ g.low id = none) ?_
    ⟨h.root_lt, h.root_low⟩ (Fences.card_ahead_lt_size h.root_lt)
  rintro m ⟨hm, hlow⟩
  obtain ⟨n, hn⟩ := exists_node hm
  cases h.node m n hn with
  | leaf hlevel _ _ _ =>
    exact Or.inl ⟨m, by simp [leftmostLeafTurn, index_eq_ok hn], hm, hlevel, hlow⟩
  | internal _ _ hspans =>
    obtain ⟨c, cs, _, rfl, hsize, hlevel, hclow, _⟩ := hspans.head
    refine Or.inr ⟨c, by
      have hc : (index (c :: cs) 0 : Result Empty NodeId) = .ok c := rfl
      simp [Next, leftmostLeafTurn, index_eq_ok hn, hc],
      ⟨hsize, hclow.trans hlow⟩, Fences.card_ahead_lt_of_mem ?_, fun _ hr => hr⟩
    exact Fences.mem_ahead.mpr ⟨hsize, Or.inl (by omega)⟩

/-- `len` is the number of stored pairs, which `rest` lists in key order. -/
theorem Inv.len_spec (h : Inv t g) :
    ∃ rest : List (K × V), t.len = .ok rest.length ∧
      rest.Pairwise (fun a b => a.1 < b.1) ∧ ∀ k v, (k, v) ∈ rest ↔ t.Entry k v := by
  obtain ⟨id, hleaf, hid, hlevel, hlow⟩ := h.leftmostLeaf_spec
  have hrule := loop_rule t.lenTurn
    (fun s => s.1 < t.nodes.length ∧ g.level s.1 = 0)
    (fun s => ((t.fences g).ahead s.1).card)
    (fun s count => ∃ rest, Tail t g s.1 rest ∧ count = s.2 + rest.length) ?_
    (s := (id, 0)) ⟨hid, hlevel⟩ (Fences.card_ahead_lt_size hid)
  · obtain ⟨count, hcount, rest, hrest, rfl⟩ := hrule
    refine ⟨rest, by simpa [len, hleaf] using hcount, hrest.sorted, fun k v => ?_⟩
    rw [hrest.mem]
    constructor
    · rintro ⟨m, n, hn, hmem, _⟩
      exact ⟨m, n, hn, hmem⟩
    · exact h.entryFrom_of_entry hid hlevel (by rw [hlow]; trivial)
  · rintro ⟨m, acc⟩ ⟨hm, hml⟩
    obtain ⟨keys, vals, right, highKey, hn, hlen, hsorted, _⟩ := h.leaf_of_level hm hml
    have hzip : (keys.zip vals).length = keys.length := by simp [hlen]
    cases right with
    | none =>
      left
      exact ⟨acc + keys.length, by simp [lenTurn, index_eq_ok hn], _, h.tail_last hn,
        by rw [hzip]⟩
    | some r =>
      have hahead := h.fences.mem_ahead_of_right (lt_of_node hn) (fences_right hn)
      obtain ⟨hsize, hrl, _⟩ := h.fences.right_next (lt_of_node hn) (fences_right hn)
      refine Or.inr ⟨(r, acc + keys.length), by simp [Next, lenTurn, index_eq_ok hn],
        ⟨hsize, hrl.trans hml⟩, Fences.card_ahead_lt_of_mem hahead, ?_⟩
      rintro count ⟨rest, hrest, rfl⟩
      refine ⟨_, h.tail_cons hn hrest, ?_⟩
      simp only [length_append, hzip]
      omega

end BTree

end Scans

section Calls

/-- A call that changes the tree. -/
inductive Call (K : Type) (V : Type) where
  | insert (key : K) (value : V)
  | delete (key : K)
deriving Repr, DecidableEq

/-- What such a call returns. -/
inductive Reply (V : Type) where
  | inserted
  | deleted (old : Option V)
deriving Repr, DecidableEq

variable {K V : Type} [LinearOrder K] {t t' : BTree K V} {g g' : Ghost K} {id : NodeId}

namespace BTree

def call (t : BTree K V) : Call K V → Result Empty (Reply V × BTree K V)
  | .insert key value => do
    let t ← t.insert key value
    .ok (.inserted, t)
  | .delete key => do
    let (old, t) ← t.delete key
    .ok (.deleted old, t)

def calls (t : BTree K V) : List (Call K V) → Result Empty (List (Reply V) × BTree K V)
  | [] => .ok ([], t)
  | c :: cs => do
    let (reply, t) ← t.call c
    let (replies, t) ← t.calls cs
    .ok (reply :: replies, t)

end BTree

namespace Call

def onMap (m : Finmap fun _ : K => V) : Call K V → Reply V × Finmap fun _ : K => V
  | .insert key value => (.inserted, m.insert key value)
  | .delete key => (.deleted (m.lookup key), m.erase key)

def runOnMap (m : Finmap fun _ : K => V) :
    List (Call K V) → List (Reply V) × Finmap fun _ : K => V
  | [] => ([], m)
  | c :: cs =>
    ((onMap m c).1 :: (runOnMap (onMap m c).2 cs).1, (runOnMap (onMap m c).2 cs).2)

end Call

namespace BTree

/-- The tree stores exactly the pairs of the map. -/
def Represents (t : BTree K V) (m : Finmap fun _ : K => V) : Prop :=
  ∀ k v, t.Entry k v ↔ m.lookup k = some v

theorem represents_new : Represents (new : BTree K V) ∅ := by
  intro k v
  simp [not_entry_new]

theorem Stores.represents {m : Finmap fun _ : K => V} {key : K} {value : V}
    (h : Stores t t' key value) (hm : Represents t m) :
    Represents t' (m.insert key value) := by
  intro k v
  rw [h k v, hm k v]
  by_cases hk : k = key
  · subst hk
    simp [eq_comm]
  · simp [hk, Finmap.lookup_insert_of_ne]

theorem represents_erase {m : Finmap fun _ : K => V} {key : K} (hm : Represents t m)
    (h : ∀ k v, t'.Entry k v ↔ k ≠ key ∧ t.Entry k v) : Represents t' (m.erase key) := by
  intro k v
  rw [h k v, hm k v]
  by_cases hk : k = key
  · subst hk
    simp
  · simp [hk, Finmap.lookup_erase_ne]

theorem Represents.eq_lookup {m : Finmap fun _ : K => V} (hm : Represents t m) {k : K}
    {r : Option V} (hr : ∀ v, r = some v ↔ t.Entry k v) : r = m.lookup k := by
  ext v
  rw [hr, hm]

theorem Inv.call_spec (h : Inv t g) {m : Finmap fun _ : K => V} (hm : Represents t m)
    (c : Call K V) :
    ∃ t' g', t.call c = .ok ((c.onMap m).1, t') ∧ Inv t' g' ∧ Represents t' (c.onMap m).2 ∧
      t.nodes.length ≤ t'.nodes.length ∧ Ghost.Extends g g' t.nodes.length := by
  cases c with
  | insert key value =>
    obtain ⟨t', g', hcall, hinv, hstores, hsize, hext⟩ := h.insert_spec key value
    exact ⟨t', g', by simp [call, hcall, Call.onMap], hinv, hstores.represents hm, hsize, hext⟩
  | delete key =>
    obtain ⟨r, t', hcall, hr, hinv, hsize, hentry⟩ := h.delete_spec key
    obtain rfl := hm.eq_lookup hr
    exact ⟨t', g, by simp [call, hcall, Call.onMap], hinv, represents_erase hm hentry,
      hsize.ge, fun _ _ => ⟨rfl, rfl⟩⟩

omit [LinearOrder K] in
theorem Ghost.Extends.trans {g'' : Ghost K} {a b : Nat} (h : Ghost.Extends g g' a)
    (h' : Ghost.Extends g' g'' b) (hle : a ≤ b) : Ghost.Extends g g'' a := by
  intro m hm
  obtain ⟨hl, hlo⟩ := h m hm
  obtain ⟨hl', hlo'⟩ := h' m (lt_of_lt_of_le hm hle)
  exact ⟨hl'.trans hl, hlo'.trans hlo⟩

theorem Inv.calls_spec (cs : List (Call K V)) (h : Inv t g) {m : Finmap fun _ : K => V}
    (hm : Represents t m) :
    ∃ t' g', t.calls cs = .ok ((Call.runOnMap m cs).1, t') ∧ Inv t' g' ∧
      Represents t' (Call.runOnMap m cs).2 ∧ t.nodes.length ≤ t'.nodes.length ∧
      Ghost.Extends g g' t.nodes.length := by
  induction cs generalizing t g m with
  | nil => exact ⟨t, g, rfl, h, hm, le_refl _, fun _ _ => ⟨rfl, rfl⟩⟩
  | cons c cs ih =>
    obtain ⟨t₁, g₁, hcall, h₁, hm₁, hsize₁, hext₁⟩ := h.call_spec hm c
    obtain ⟨t₂, g₂, hcalls, h₂, hm₂, hsize₂, hext₂⟩ := ih h₁ hm₁
    exact ⟨t₂, g₂, by simp [calls, Call.runOnMap, hcall, hcalls], h₂, hm₂,
      hsize₁.trans hsize₂, hext₁.trans hext₂ hsize₁⟩

theorem Inv.get_eq_lookup (h : Inv t g) {m : Finmap fun _ : K => V} (hm : Represents t m)
    (k : K) : t.get k = .ok (m.lookup k) := by
  obtain ⟨r, hget, hr⟩ := h.get_spec k
  rw [hget, hm.eq_lookup hr]

theorem Inv.contains_eq_mem (h : Inv t g) {m : Finmap fun _ : K => V} (hm : Represents t m)
    (k : K) : t.contains k = .ok (decide (k ∈ m)) := by
  have hmem : (m.lookup k).isSome = decide (k ∈ m) := by
    rw [Bool.eq_iff_iff, Finmap.lookup_isSome, decide_eq_true_iff]
  simp [contains, h.get_eq_lookup hm k, hmem]

theorem Inv.len_eq_card (h : Inv t g) {m : Finmap fun _ : K => V} (hm : Represents t m) :
    t.len = .ok m.keys.card := by
  obtain ⟨rest, hlen, hsorted, hmem⟩ := h.len_spec
  have hnodup : (rest.map Prod.fst).Nodup := by
    rw [List.Nodup, pairwise_map]
    exact hsorted.imp ne_of_lt
  have hkeys : (rest.map Prod.fst).toFinset = m.keys := by
    ext k
    rw [mem_toFinset, Finmap.mem_keys, Finmap.mem_iff, mem_map]
    constructor
    · rintro ⟨⟨k', v⟩, hp, rfl⟩
      exact ⟨v, (hm k' v).mp ((hmem k' v).mp hp)⟩
    · rintro ⟨v, hv⟩
      exact ⟨(k, v), (hmem k v).mpr ((hm k v).mpr hv), rfl⟩
  rw [hlen, ← hkeys, toFinset_card_of_nodup hnodup, length_map]

/-- Every run of insertions and deletions returns, gives the replies of the same
run on the empty finite map, and leaves a tree whose `get`, `contains`, `range`
and `len` are those of the map. -/
theorem calls_refine_map (cs : List (Call Key Bytes)) :
    ∃ t, (new : BTree Key Bytes).calls cs = .ok ((Call.runOnMap ∅ cs).1, t) ∧
      (∀ k, t.get k = .ok ((Call.runOnMap ∅ cs).2.lookup k)) ∧
      (∀ k, t.contains k = .ok (decide (k ∈ (Call.runOnMap ∅ cs).2))) ∧
      (∀ lo hi, ∃ out, t.range lo hi = .ok out ∧ out.Pairwise (fun a b => a.1 < b.1) ∧
        ∀ k v, (k, v) ∈ out ↔
          lo ≤ k ∧ k < hi ∧ (Call.runOnMap ∅ cs).2.lookup k = some v) ∧
      t.len = .ok (Call.runOnMap ∅ cs).2.keys.card := by
  obtain ⟨t, g, hcalls, hinv, hm, _⟩ := (inv_new (K := Key) (V := Bytes)).calls_spec cs
    represents_new
  refine ⟨t, hcalls, hinv.get_eq_lookup hm, hinv.contains_eq_mem hm, ?_, hinv.len_eq_card hm⟩
  intro lo hi
  obtain ⟨out, hrange, hsorted, hmem⟩ := hinv.range_spec lo hi
  refine ⟨out, hrange, hsorted, ?_⟩
  intro k v
  rw [hmem, hm]

/-! ### Stale readers -/

/-- A node visited by a search stays a good place to resume the search, whatever
is inserted or deleted meanwhile. -/
theorem getFrom_of_stale_node (cs later : List (Call Key Bytes)) (key : Key)
    {replies replies' : List (Reply Bytes)} {t t' : BTree Key Bytes} {n : NodeId}
    (hrun : (new : BTree Key Bytes).calls cs = .ok (replies, t))
    (hvisit : Visits (t.getTurn key) t.root n)
    (hlater : t.calls later = .ok (replies', t')) :
    ∃ r, t'.getFrom key n = .ok r ∧ t'.get key = .ok r := by
  obtain ⟨t₁, g₁, hcalls₁, h₁, hm₁, _⟩ := (inv_new (K := Key) (V := Bytes)).calls_spec cs
    represents_new
  obtain ⟨_, rfl⟩ : _ ∧ t₁ = t := by
    have heq := hcalls₁.symm.trans hrun
    simpa using heq
  obtain ⟨t₂, g₂, hcalls₂, h₂, hm₂, hsize, hext⟩ := h₁.calls_spec later hm₁
  obtain ⟨_, rfl⟩ : _ ∧ t₂ = t' := by
    have heq := hcalls₂.symm.trans hlater
    simpa using heq
  obtain ⟨hn, hlow⟩ := h₁.visits_low hvisit
  have hlow' : LowLe (g₂.low n) key := by
    rw [(hext n hn).2]
    exact hlow
  obtain ⟨r, hfrom, hr⟩ := h₂.getFrom_spec (lt_of_lt_of_le hn hsize) hlow'
  refine ⟨r, hfrom, ?_⟩
  rw [h₂.get_eq_lookup hm₂, hm₂.eq_lookup hr]

/-- The reader holds the root leaf of a full tree when its split moves the key to
the right. -/
theorem getFrom_of_stale_node_split :
    ∃ t t', (∃ replies, (new : BTree Key Bytes).calls
        ((List.range 64).map fun i => .insert (UInt64.ofNat i) []) = .ok (replies, t)) ∧
      t.calls [.insert 64 []] = .ok ([.inserted], t') ∧ t.root = 0 ∧ t'.root = 2 ∧
      ∃ r, t'.getFrom 64 0 = .ok r ∧ t'.get 64 = .ok r := by
  let t : BTree Key Bytes :=
    ⟨[.leaf ((List.range 64).map UInt64.ofNat) (List.replicate 64 []) none none], 0⟩
  let t' : BTree Key Bytes :=
    ⟨[.leaf ((List.range 32).map UInt64.ofNat) (List.replicate 32 []) (some 1) (some 32),
      .leaf ((List.range' 32 33).map UInt64.ofNat) (List.replicate 33 []) none none,
      .internal [32] [0, 1] none none], 2⟩
  have hrun : (new : BTree Key Bytes).calls
      ((List.range 64).map fun i => .insert (UInt64.ofNat i) []) =
        .ok (List.replicate 64 .inserted, t) := by
    decide +kernel
  have hlater : t.calls [.insert 64 []] = .ok ([.inserted], t') := by
    decide
  have hvisit : Visits (t.getTurn 64) t.root 0 := Relation.ReflTransGen.refl
  exact ⟨t, t', ⟨_, hrun⟩, hlater, rfl, rfl, getFrom_of_stale_node _ _ _ hrun hvisit hlater⟩

end BTree

end Calls

end Oikos.Archon
