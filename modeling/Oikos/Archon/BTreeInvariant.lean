/-
The invariant of the B-Link tree and what a search owes to it.  The arena is
read as fenced levels: the level and the lower fence of a node are not stored
but never change once the node exists.
-/
import Oikos.Archon.BTree
import Oikos.Lib.Spans

namespace Oikos.Archon

open List

variable {K V : Type}

namespace Node

def high : Node K V → Option K
  | .leaf _ _ _ h => h
  | .internal _ _ _ h => h

def rightLink : Node K V → Option NodeId
  | .leaf _ _ r _ => r
  | .internal _ _ r _ => r

def entries : Node K V → List (K × V)
  | .leaf keys vals _ _ => keys.zip vals
  | .internal _ _ _ _ => []

def childIds : Node K V → List NodeId
  | .leaf _ _ _ _ => []
  | .internal _ children _ _ => children

@[simp] theorem high_leaf (ks : List K) (vs : List V) (r : Option NodeId) (h : Option K) :
    (Node.leaf ks vs r h).high = h := rfl

@[simp] theorem high_internal (ks : List K) (cs : List NodeId) (r : Option NodeId)
    (h : Option K) : (Node.internal ks cs r h : Node K V).high = h := rfl

@[simp] theorem rightLink_leaf (ks : List K) (vs : List V) (r : Option NodeId) (h : Option K) :
    (Node.leaf ks vs r h).rightLink = r := rfl

@[simp] theorem rightLink_internal (ks : List K) (cs : List NodeId) (r : Option NodeId)
    (h : Option K) : (Node.internal ks cs r h : Node K V).rightLink = r := rfl

@[simp] theorem entries_leaf (ks : List K) (vs : List V) (r : Option NodeId) (h : Option K) :
    (Node.leaf ks vs r h).entries = ks.zip vs := rfl

@[simp] theorem entries_internal (ks : List K) (cs : List NodeId) (r : Option NodeId)
    (h : Option K) : (Node.internal ks cs r h : Node K V).entries = [] := rfl

end Node

/-- Where the nodes of an arena belong: their level above the leaves and the
lower end of their range. -/
structure Ghost (K : Type) where
  level : NodeId → Nat
  low : NodeId → Option K

def Ghost.extend (g : Ghost K) (id : NodeId) (level : Nat) (low : Option K) : Ghost K where
  level m := if m = id then level else g.level m
  low m := if m = id then low else g.low m

namespace BTree

def fences (t : BTree K V) (g : Ghost K) : Fences K where
  size := t.nodes.length
  level := g.level
  low := g.low
  high id := (t.nodes[id]?).bind Node.high
  right id := (t.nodes[id]?).bind Node.rightLink

/-- The pair `(k, v)` is stored in some node. -/
def Entry (t : BTree K V) (k : K) (v : V) : Prop :=
  ∃ (id : NodeId) (n : Node K V), t.nodes[id]? = some n ∧ (k, v) ∈ n.entries

end BTree

variable [LinearOrder K] {t : BTree K V} {g : Ghost K} {f : Fences K} {id : NodeId} {key : K}
  {n : Node K V}

/-- What a separator list promises for child `c` of node `id`. -/
def Child (f : Fences K) (id : NodeId) (lo : Option K) (c : NodeId) (hi : Option K) : Prop :=
  c < f.size ∧ f.level c + 1 = f.level id ∧ f.low c = lo ∧ f.high c = hi

/-- A node fits the place it has among the fences. -/
inductive NodeOk (f : Fences K) (id : NodeId) : Node K V → Prop
  | leaf {keys : List K} {vals : List V} {right : Option NodeId} {highKey : Option K} :
      f.level id = 0 → vals.length = keys.length → keys.Pairwise (· < ·) →
      (∀ k ∈ keys, f.Covers id k) → NodeOk f id (.leaf keys vals right highKey)
  | internal {keys : List K} {children : List NodeId} {right : Option NodeId}
      {highKey : Option K} :
      keys.Pairwise (· < ·) →
      (∀ k ∈ keys, LowLt (f.low id) (some k) ∧ LtHigh k (f.high id)) →
      Spans (Child f id) (f.low id) keys children (f.high id) →
      NodeOk f id (.internal keys children right highKey)

namespace BTree

/-- The invariant between operations. -/
structure Inv (t : BTree K V) (g : Ghost K) : Prop where
  fences : (t.fences g).Ok
  node : ∀ id n, t.nodes[id]? = some n → NodeOk (t.fences g) id n
  root_lt : t.root < t.nodes.length
  root_low : g.low t.root = none
  root_high : (t.fences g).high t.root = none
  /-- The root is alone on the top level. -/
  top : ∀ m < t.nodes.length, m ≠ t.root → g.level m < g.level t.root

omit [LinearOrder K] in
@[simp] theorem fences_size : (t.fences g).size = t.nodes.length := rfl

omit [LinearOrder K] in
@[simp] theorem fences_level : (t.fences g).level = g.level := rfl

omit [LinearOrder K] in
@[simp] theorem fences_low : (t.fences g).low = g.low := rfl

omit [LinearOrder K] in
theorem fences_high (h : t.nodes[id]? = some n) : (t.fences g).high id = n.high := by
  simp [fences, h]

omit [LinearOrder K] in
theorem fences_right (h : t.nodes[id]? = some n) : (t.fences g).right id = n.rightLink := by
  simp [fences, h]

omit [LinearOrder K] in
theorem exists_node (h : id < t.nodes.length) : ∃ n, t.nodes[id]? = some n :=
  ⟨_, getElem?_eq_getElem h⟩

omit [LinearOrder K] in
theorem lt_of_node (h : t.nodes[id]? = some n) : id < t.nodes.length :=
  (List.getElem?_eq_some_iff.mp h).1

variable {keys : List K} {v : V}

theorem childIndex_cut (hsorted : keys.Pairwise (· < ·)) (key : K) :
    ∃ l r, keys = l ++ r ∧ l.length = childIndex keys key ∧
      (∀ x ∈ l, x ≤ key) ∧ ∀ x ∈ r, key < x := by
  unfold childIndex
  cases hs : binarySearch keys key with
  | ok i =>
    obtain ⟨l, r, rfl, rfl⟩ := binarySearch_ok hs
    rw [pairwise_append, pairwise_cons] at hsorted
    obtain ⟨_, ⟨hright, _⟩, hleft⟩ := hsorted
    refine ⟨l ++ [key], r, by simp, by simp, ?_, hright⟩
    intro x hx
    rcases mem_append.mp hx with hx | hx
    · exact le_of_lt (hleft x hx key mem_cons_self)
    · exact le_of_eq (by simpa using hx)
  | error i =>
    obtain ⟨l, r, rfl, rfl, hl, hr⟩ := binarySearch_error hsorted hs
    exact ⟨l, r, rfl, rfl, fun x hx => le_of_lt (hl x hx), hr⟩

theorem route {children : List NodeId} (hsorted : keys.Pairwise (· < ·))
    (hspans : Spans (Child f id) (f.low id) keys children (f.high id))
    (hlow : LowLe (f.low id) key) :
    ∃ l r a c b, keys = l ++ r ∧ children = a ++ c :: b ∧ a.length = l.length ∧
      l.length = childIndex keys key ∧ c < f.size ∧ f.level c + 1 = f.level id ∧
      LowLe (f.low c) key ∧ (LtHigh key (f.high id) → LtHigh key (f.high c)) ∧
      (f.low c = f.low id ∨ ∃ x ∈ l, f.low c = some x) ∧
      (f.high c = f.high id ∨ ∃ y ∈ r, f.high c = some y) ∧
      (∀ x ∈ l, ∃ y, f.low c = some y ∧ x ≤ y) ∧ ∀ y ∈ r, ∃ x, f.high c = some x ∧ x ≤ y := by
  obtain ⟨l, r, rfl, hidx, hl, hr⟩ := childIndex_cut hsorted key
  obtain ⟨a, c, b, lo', hi', rfl, hlen, ⟨hsize, hlevel, rfl, rfl⟩, hlo, hhi, hleft, hright⟩ :=
    hspans.focus hsorted
  refine ⟨l, r, a, c, b, rfl, rfl, hlen, hidx, hsize, hlevel, ?_, ?_, hlo, hhi, hleft, hright⟩
  · rcases hlo with heq | ⟨x, hx, heq⟩
    · rw [heq]; exact hlow
    · rw [heq]; exact hl x hx
  · intro hhigh
    rcases hhi with heq | ⟨y, hy, heq⟩
    · rw [heq]; exact hhigh
    · rw [heq]; exact hr y hy

theorem beyond_eq_some {right : Option NodeId} {highKey : Option K} {r : NodeId} :
    beyond key right highKey = some r ↔ right = some r ∧ ∃ hk, highKey = some hk ∧ hk ≤ key := by
  cases highKey with
  | none => simp [beyond]
  | some hk =>
    by_cases hle : hk ≤ key
    · simp [beyond, hle]
    · simp [beyond, hle]

theorem Inv.move_across (_h : Inv t g) {r : NodeId} (hn : t.nodes[id]? = some n)
    (hb : beyond key n.rightLink n.high = some r) : (t.fences g).Move key id r := by
  obtain ⟨hr, hk, hhigh, hle⟩ := beyond_eq_some.mp hb
  exact .across ((fences_high hn).trans hhigh) hle ((fences_right hn).trans hr)

theorem Inv.ltHigh_of_beyond_none (h : Inv t g) (hn : t.nodes[id]? = some n)
    (hb : beyond key n.rightLink n.high = none) : LtHigh key ((t.fences g).high id) := by
  rcases h.fences.link id (lt_of_node hn) with ⟨_, hnone⟩ | ⟨r, hk, hr, hhigh, _⟩
  · rw [hnone]; trivial
  · rw [hhigh]
    rw [fences_high hn] at hhigh
    rw [fences_right hn] at hr
    by_contra hnot
    have hle : hk ≤ key := not_lt.mp hnot
    rw [beyond_eq_some.mpr ⟨hr, hk, hhigh, hle⟩] at hb
    cases hb

theorem Inv.descend (h : Inv t g) {children : List NodeId}
    {right : Option NodeId} {highKey : Option K}
    (hn : t.nodes[id]? = some (.internal keys children right highKey))
    (hlow : LowLe (g.low id) key) :
    ∃ c, (index children (childIndex keys key) : Result Empty NodeId) = .ok c ∧
      (t.fences g).Move key id c ∧
      (LtHigh key ((t.fences g).high id) → LtHigh key ((t.fences g).high c)) := by
  cases h.node id _ hn with
  | internal hsorted _ hspans =>
    obtain ⟨l, r, a, c, b, rfl, rfl, hlen, hidx, hsize, hlevel, hle, hhigh, _⟩ :=
      route hsorted hspans hlow
    refine ⟨c, ?_, .down hsize (by omega) hle, hhigh⟩
    rw [← hidx, ← hlen, index_append_length]

omit [LinearOrder K] in
theorem mem_keys_of_mem_zip {vals : List V} {k : K} (h : (k, v) ∈ keys.zip vals) : k ∈ keys :=
  (of_mem_zip h).1

theorem Inv.covers_of_entry (h : Inv t g) (hn : t.nodes[id]? = some n) {k : K}
    (he : (k, v) ∈ n.entries) : g.level id = 0 ∧ (t.fences g).Covers id k := by
  cases h.node id n hn with
  | leaf hlevel _ _ hcov => exact ⟨hlevel, hcov k (mem_keys_of_mem_zip he)⟩
  | internal _ _ _ => simp at he

/-- Everything stored under a key is stored in the leaf responsible for it. -/
theorem Inv.entry_iff (h : Inv t g) (hn : t.nodes[id]? = some n) (hlevel : g.level id = 0)
    (hcov : (t.fences g).Covers id key) (v : V) : t.Entry key v ↔ (key, v) ∈ n.entries := by
  constructor
  · rintro ⟨m, x, hx, hmem⟩
    obtain ⟨hm0, hmcov⟩ := h.covers_of_entry hx hmem
    obtain rfl : m = id := h.fences.covers_unique (lt_of_node hx) (lt_of_node hn)
      (hm0.trans hlevel.symm) hmcov hcov
    obtain rfl : x = n := by simpa [hn] using hx.symm
    exact hmem
  · exact fun hmem => ⟨id, n, hn, hmem⟩

theorem mem_zip_of_found {l r : List K} {l' r' : List V}
    (hsorted : (l ++ key :: r).Pairwise (· < ·)) (hlen : l'.length = l.length) {w : V} :
    (key, w) ∈ (l ++ key :: r).zip (l' ++ v :: r') ↔ w = v := by
  rw [zip_append hlen.symm, zip_cons_cons, mem_append, mem_cons]
  rw [pairwise_append, pairwise_cons] at hsorted
  obtain ⟨_, ⟨hright, _⟩, hleft⟩ := hsorted
  constructor
  · rintro (hmem | heq | hmem)
    · exact absurd (hleft key (mem_keys_of_mem_zip hmem) key mem_cons_self) (lt_irrefl key)
    · exact (Prod.mk.inj heq).2
    · exact absurd (hright key (mem_keys_of_mem_zip hmem)) (lt_irrefl key)
  · rintro rfl
    exact Or.inr (Or.inl rfl)

omit [LinearOrder K] in
theorem exists_vals_split {l r : List K} {vals : List V}
    (hlen : vals.length = (l ++ key :: r).length) :
    ∃ l' v r', vals = l' ++ v :: r' ∧ l'.length = l.length :=
  exists_cut (by simp [hlen])

theorem Inv.getTurn_cases (h : Inv t g) (hid : id < t.nodes.length)
    (hlow : LowLe (g.low id) key) :
    (∃ r, t.getTurn key id = .ok (.leave r) ∧ ∀ v, r = some v ↔ t.Entry key v) ∨
    (∃ m, t.getTurn key id = .ok (.again m) ∧ (t.fences g).Move key id m) := by
  obtain ⟨n, hn⟩ := exists_node hid
  cases hb : beyond key n.rightLink n.high with
  | some r =>
    refine Or.inr ⟨r, ?_, h.move_across hn hb⟩
    cases n <;> simp_all [getTurn, index_eq_ok hn]
  | none =>
    have hhigh := h.ltHigh_of_beyond_none hn hb
    cases n with
    | internal keys children right highKey =>
      obtain ⟨c, hc, hmove, _⟩ := h.descend hn hlow
      refine Or.inr ⟨c, ?_, hmove⟩
      simp_all [getTurn, index_eq_ok hn]
    | leaf keys vals right highKey =>
      left
      cases h.node id _ hn with
      | leaf hlevel hlen hsorted _ =>
        have hentry := h.entry_iff hn hlevel ⟨hlow, hhigh⟩
        cases hs : binarySearch keys key with
        | ok i =>
          obtain ⟨l, r, rfl, rfl⟩ := binarySearch_ok hs
          obtain ⟨l', v, r', rfl, hl'⟩ := exists_vals_split hlen
          refine ⟨some v, ?_, ?_⟩
          · have hv : (index (l' ++ v :: r') l.length : Result Empty V) = .ok v := by
              rw [← hl', index_append_length]
            simp_all [getTurn, index_eq_ok hn]
          · intro w
            rw [hentry w, Node.entries_leaf, mem_zip_of_found hsorted hl']
            simp [eq_comm]
        | error i =>
          refine ⟨none, by simp_all [getTurn, index_eq_ok hn], ?_⟩
          intro w
          rw [hentry w, Node.entries_leaf]
          have hnot := not_mem_of_binarySearch_error hsorted hs
          simp only [reduceCtorEq, false_iff]
          exact fun hmem => hnot (mem_keys_of_mem_zip hmem)

theorem Inv.getFrom_spec (h : Inv t g) (hid : id < t.nodes.length)
    (hlow : LowLe (g.low id) key) :
    ∃ r, t.getFrom key id = .ok r ∧ ∀ v, r = some v ↔ t.Entry key v := by
  refine loop_rule (t.getTurn key)
    (fun m => m < t.nodes.length ∧ LowLe (g.low m) key)
    (fun m => ((t.fences g).ahead m).card)
    (fun _ r => ∀ v, r = some v ↔ t.Entry key v) ?_ ⟨hid, hlow⟩
    (Fences.card_ahead_lt_size hid)
  rintro m ⟨hm, hle⟩
  rcases h.getTurn_cases hm hle with hleave | ⟨m', hnext, hmove⟩
  · exact Or.inl hleave
  · have hahead := hmove.mem_ahead h.fences hm
    exact Or.inr ⟨m', hnext, ⟨(Fences.mem_ahead.mp hahead).1, hmove.lowLe h.fences hm⟩,
      Fences.card_ahead_lt_of_mem hahead, fun _ hr => hr⟩

theorem Inv.get_spec (h : Inv t g) (key : K) :
    ∃ r, t.get key = .ok r ∧ ∀ v, r = some v ↔ t.Entry key v :=
  h.getFrom_spec h.root_lt (by rw [h.root_low]; trivial)

theorem Inv.visits_low (h : Inv t g) {m : NodeId}
    (hv : Visits (t.getTurn key) t.root m) : m < t.nodes.length ∧ LowLe (g.low m) key := by
  apply hv.preserves (P := fun m => m < t.nodes.length ∧ LowLe (g.low m) key)
  · exact ⟨h.root_lt, by rw [h.root_low]; trivial⟩
  rintro a b ⟨ha, hle⟩ hnext
  rcases h.getTurn_cases ha hle with ⟨r, hleave, _⟩ | ⟨m', hagain, hmove⟩
  · have heq : (Except.ok (Turn.leave r) : Result Empty _) = .ok (.again b) :=
      hleave.symm.trans hnext
    simp at heq
  · obtain rfl : m' = b := by
      have heq := hagain.symm.trans hnext
      simpa using heq
    exact ⟨(Fences.mem_ahead.mp (hmove.mem_ahead h.fences ha)).1, hmove.lowLe h.fences ha⟩

/-- The empty tree satisfies the invariant. -/
theorem inv_new : Inv (new : BTree K V) ⟨fun _ => 0, fun _ => none⟩ where
  fences := by
    refine ⟨?_, ?_, ?_⟩ <;> intro n hn <;> obtain rfl : n = 0 := by simpa [new] using hn
    · exact Or.inl ⟨rfl, rfl⟩
    · intro x hx
      simp [fences, new] at hx
    · intro m hm _ hne
      exact absurd (by simpa [new] using hm : m = 0).symm hne
  node := by
    intro id n hn
    obtain ⟨hlt, hget⟩ := List.getElem?_eq_some_iff.mp hn
    obtain rfl : id = 0 := by simpa [new] using hlt
    obtain rfl : n = .leaf [] [] none none := by simpa [new] using hget.symm
    exact .leaf rfl rfl Pairwise.nil (by simp)
  root_lt := by simp [new]
  root_low := rfl
  root_high := rfl
  top := by
    intro m hm hne
    exact absurd (by simpa [new] using hm) hne

omit [LinearOrder K] in
theorem not_entry_new (k : K) (v : V) : ¬ (new : BTree K V).Entry k v := by
  rintro ⟨id, n, hn, hmem⟩
  obtain ⟨hlt, hget⟩ := List.getElem?_eq_some_iff.mp hn
  obtain rfl : id = 0 := by simpa [new] using hlt
  obtain rfl : n = .leaf [] [] none none := by simpa [new] using hget.symm
  simp at hmem

end BTree

end Oikos.Archon
