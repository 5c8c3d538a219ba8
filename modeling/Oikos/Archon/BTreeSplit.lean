/-
Updates of the B-Link tree: replacing the contents of a leaf, and splits.  `Inserted` says
what an insertion below a node leaves behind: all is in order up to the level of the node,
and nothing above it has been touched.
-/
import Oikos.Archon.BTreeInvariant

namespace Oikos.Archon

open List Option

section Leaves

variable {K V : Type} {t : BTree K V} {g : Ghost K} {id m : NodeId} {n n' : Node K V}

namespace BTree

@[simp] theorem length_setNode : (t.setNode id n).nodes.length = t.nodes.length := by
  simp [setNode]

@[simp] theorem root_setNode : (t.setNode id n).root = t.root := rfl

@[simp] theorem length_push : (t.push n).nodes.length = t.nodes.length + 1 := by
  simp [push]

@[simp] theorem root_push : (t.push n).root = t.root := rfl

theorem node_setNode_self (h : id < t.nodes.length) : (t.setNode id n).nodes[id]? = some n := by
  simp [setNode, h]

theorem node_setNode_ne (h : m ≠ id) : (t.setNode id n).nodes[m]? = t.nodes[m]? := by
  simp [setNode, Ne.symm h]

theorem node_push_old (h : m < t.nodes.length) : (t.push n).nodes[m]? = t.nodes[m]? := by
  simp [push, getElem?_append_left h]

theorem node_push_new : (t.push n).nodes[t.nodes.length]? = some n := by
  simp [push]

theorem fences_setNode (hn : t.nodes[id]? = some n) (hhigh : n'.high = n.high)
    (hright : n'.rightLink = n.rightLink) : (t.setNode id n').fences g = t.fences g := by
  have hlt := lt_of_node hn
  have hnode : ∀ m, (t.setNode id n').nodes[m]? = if m = id then some n' else t.nodes[m]? := by
    intro m
    by_cases hm : m = id
    · rw [if_pos hm, hm, node_setNode_self hlt]
    · rw [if_neg hm, node_setNode_ne hm]
  unfold fences
  congr 1
  · simp
  · funext m
    rw [hnode]
    split
    · next hm => rw [hm, hn]; exact hhigh
    · rfl
  · funext m
    rw [hnode]
    split
    · next hm => rw [hm, hn]; exact hright
    · rfl

/-- The pair is stored outside node `id`. -/
def EntryElsewhere (t : BTree K V) (id : NodeId) (k : K) (v : V) : Prop :=
  ∃ (m : NodeId) (x : Node K V), m ≠ id ∧ t.nodes[m]? = some x ∧ (k, v) ∈ x.entries

theorem entry_iff_elsewhere (hn : t.nodes[id]? = some n) (k : K) (v : V) :
    t.Entry k v ↔ (k, v) ∈ n.entries ∨ t.EntryElsewhere id k v := by
  constructor
  · rintro ⟨m, x, hx, hmem⟩
    by_cases hm : m = id
    · subst hm
      obtain rfl : x = n := some.inj (hx.symm.trans hn)
      exact Or.inl hmem
    · exact Or.inr ⟨m, x, hm, hx, hmem⟩
  · rintro (hmem | ⟨m, x, _, hx, hmem⟩)
    · exact ⟨id, n, hn, hmem⟩
    · exact ⟨m, x, hx, hmem⟩

theorem entry_setNode (hlt : id < t.nodes.length) (k : K) (v : V) :
    (t.setNode id n).Entry k v ↔ (k, v) ∈ n.entries ∨ t.EntryElsewhere id k v := by
  rw [entry_iff_elsewhere (node_setNode_self hlt)]
  refine or_congr_right ⟨?_, ?_⟩
  · rintro ⟨m, x, hm, hx, hmem⟩
    exact ⟨m, x, hm, by rwa [node_setNode_ne hm] at hx, hmem⟩
  · rintro ⟨m, x, hm, hx, hmem⟩
    exact ⟨m, x, hm, by rwa [node_setNode_ne hm], hmem⟩

theorem entry_push (k : K) (v : V) :
    (t.push n).Entry k v ↔ t.Entry k v ∨ (k, v) ∈ n.entries := by
  constructor
  · rintro ⟨m, x, hx, hmem⟩
    have hlt := lt_of_node hx
    rw [length_push] at hlt
    rcases Nat.lt_succ_iff_lt_or_eq.mp hlt with hm | rfl
    · exact Or.inl ⟨m, x, by rwa [node_push_old hm] at hx, hmem⟩
    · obtain rfl : n = x := some.inj (node_push_new.symm.trans hx)
      exact Or.inr hmem
  · rintro (⟨m, x, hx, hmem⟩ | hmem)
    · exact ⟨m, x, by rwa [node_push_old (lt_of_node hx)], hmem⟩
    · exact ⟨t.nodes.length, n, node_push_new, hmem⟩

end BTree

variable [LinearOrder K] {f f' : Fences K} {key : K} {value : V}

theorem NodeOk.congr (h : NodeOk f id n) (hlevel : f'.level id = f.level id)
    (hlow : f'.low id = f.low id) (hhigh : f'.high id = f.high id)
    (hchild : ∀ c ∈ n.childIds, c < f.size → f.level c + 1 = f.level id →
      c < f'.size ∧ f'.level c = f.level c ∧ f'.low c = f.low c ∧ f'.high c = f.high c) :
    NodeOk f' id n := by
  cases h with
  | leaf h0 hlen hsorted hcov =>
    refine .leaf (hlevel.trans h0) hlen hsorted ?_
    intro k hk
    exact ⟨hlow ▸ (hcov k hk).1, hhigh ▸ (hcov k hk).2⟩
  | internal hsorted hbounds hspans =>
    refine .internal hsorted (by rw [hlow, hhigh]; exact hbounds) ?_
    rw [hlow, hhigh]
    refine hspans.mono ?_
    rintro lo c hc hi ⟨hsize, hl, rfl, rfl⟩
    obtain ⟨hsize', hl', hlo', hhi'⟩ := hchild c hc hsize hl
    exact ⟨hsize', by omega, hlo', hhi'⟩

theorem covers_of_child {keys : List K} {children : List NodeId} {c : NodeId}
    (hbounds : ∀ k ∈ keys, LowLt (f.low id) (some k) ∧ LtHigh k (f.high id))
    (hspans : Spans (Child f id) (f.low id) keys children (f.high id)) (hc : c ∈ children)
    (hcov : f.Covers c key) : f.Covers id key := by
  obtain ⟨lo, hi, ⟨_, _, rfl, rfl⟩, hlo, hhi⟩ := hspans.exists_of_mem hc
  constructor
  · rcases hlo with heq | ⟨x, hx, heq⟩
    · rw [← heq]; exact hcov.1
    · have hle := hcov.1
      rw [heq] at hle
      exact lowLe_of_lowLt (hbounds x hx).1 hle
  · rcases hhi with heq | ⟨y, hy, heq⟩
    · rw [← heq]; exact hcov.2
    · have hlt := hcov.2
      rw [heq] at hlt
      have hy' := (hbounds y hy).2
      cases hh : f.high id with
      | none => trivial
      | some x =>
        rw [hh] at hy'
        exact lt_trans (ltHigh_some.mp hlt) (ltHigh_some.mp hy')

namespace BTree

/-! ### Changing the contents of a leaf -/

/-- A leaf may be given any sorted contents within its range. -/
theorem Inv.setLeaf (h : Inv t g) {keys keys' : List K} {vals vals' : List V}
    {right : Option NodeId} {highKey : Option K}
    (hn : t.nodes[id]? = some (.leaf keys vals right highKey))
    (hlen : vals'.length = keys'.length) (hsorted : keys'.Pairwise (· < ·))
    (hcov : ∀ k ∈ keys', (t.fences g).Covers id k) :
    Inv (t.setNode id (.leaf keys' vals' right highKey)) g := by
  have hf : (t.setNode id (.leaf keys' vals' right highKey)).fences g = t.fences g :=
    fences_setNode hn rfl rfl
  refine ⟨hf ▸ h.fences, ?_, by simpa using h.root_lt, h.root_low, ?_, ?_⟩
  · intro m x hx
    rw [hf]
    by_cases hm : m = id
    · subst hm
      rw [node_setNode_self (lt_of_node hn)] at hx
      obtain rfl := some.inj hx
      cases h.node m _ hn with
      | leaf h0 _ _ _ => exact .leaf h0 hlen hsorted hcov
    · rw [node_setNode_ne hm] at hx
      exact h.node m x hx
  · rw [hf]; exact h.root_high
  · simpa using h.top

theorem Inv.ne_of_elsewhere (h : Inv t g) (hid : id < t.nodes.length) (hlevel : g.level id = 0)
    (hcov : (t.fences g).Covers id key) {k : K} {v : V} (he : t.EntryElsewhere id k v) :
    k ≠ key := by
  rintro rfl
  obtain ⟨m, x, hm, hx, hmem⟩ := he
  obtain ⟨hm0, hmcov⟩ := h.covers_of_entry hx hmem
  exact hm (h.fences.covers_unique (lt_of_node hx) hid (hm0.trans hlevel.symm) hmcov hcov)

/-- One turn of `delete`: a move of the search, or the removal. -/
theorem Inv.deleteTurn_cases (h : Inv t g) (hid : id < t.nodes.length)
    (hlow : LowLe (g.low id) key) :
    (∃ r t', t.deleteTurn key id = .ok (.leave (r, t')) ∧ (∀ v, r = some v ↔ t.Entry key v) ∧
      Inv t' g ∧ t'.nodes.length = t.nodes.length ∧
      ∀ k v, t'.Entry k v ↔ k ≠ key ∧ t.Entry k v) ∨
    (∃ m, t.deleteTurn key id = .ok (.again m) ∧ (t.fences g).Move key id m) := by
  obtain ⟨n, hn⟩ := exists_node hid
  cases hb : beyond key n.rightLink n.high with
  | some r =>
    refine Or.inr ⟨r, ?_, h.move_across hn hb⟩
    cases n <;> simp_all [deleteTurn, index_eq_ok hn]
  | none =>
    have hhigh := h.ltHigh_of_beyond_none hn hb
    cases n with
    | internal keys children right highKey =>
      obtain ⟨c, hc, hmove, _⟩ := h.descend hn hlow
      refine Or.inr ⟨c, ?_, hmove⟩
      simp_all [deleteTurn, index_eq_ok hn]
    | leaf keys vals right highKey =>
      left
      cases h.node id _ hn with
      | leaf hlevel hlen hsorted hcov =>
        have hentry := h.entry_iff hn hlevel ⟨hlow, hhigh⟩
        cases hs : binarySearch keys key with
        | ok i =>
          obtain ⟨l, r, rfl, rfl⟩ := binarySearch_ok hs
          obtain ⟨l', v, r', rfl, hl'⟩ := exists_vals_split hlen
          have hsub : (l ++ r).Sublist (l ++ key :: r) := by simp
          have hrv : (removeAt (l' ++ v :: r') l.length : Result Empty _) =
              .ok (v, l' ++ r') := by
            rw [← hl', removeAt_append_length]
          refine ⟨some v, t.setNode id (.leaf (l ++ r) (l' ++ r') right highKey), ?_, ?_,
            h.setLeaf hn ?_ (hsorted.sublist hsub) (fun k hk => hcov k (hsub.mem hk)),
            length_setNode, ?_⟩
          · simp_all [deleteTurn, index_eq_ok hn]
          · intro w
            rw [hentry w, Node.entries_leaf, mem_zip_of_found hsorted hl']
            simp [eq_comm]
          · simp only [length_append, length_cons] at hlen ⊢
            omega
          · intro k w
            rw [entry_setNode (lt_of_node hn), entry_iff_elsewhere hn]
            simp only [Node.entries_leaf]
            rw [zip_append hl'.symm, zip_append hl'.symm, zip_cons_cons]
            simp only [mem_append, mem_cons, Prod.mk.injEq]
            -- the key occurs nowhere else, in this leaf or in another one
            have hleaf : ∀ w, (key, w) ∈ (l ++ r).zip (l' ++ r') → False := by
              intro w hw
              have hkey := mem_keys_of_mem_zip hw
              rw [pairwise_append, pairwise_cons] at hsorted
              obtain ⟨_, ⟨hright, _⟩, hleft⟩ := hsorted
              rcases mem_append.mp hkey with hkey | hkey
              · exact lt_irrefl key (hleft key hkey key mem_cons_self)
              · exact lt_irrefl key (hright key hkey)
            have helse : ∀ w, ¬ t.EntryElsewhere id key w := fun w he =>
              h.ne_of_elsewhere hid hlevel ⟨hlow, hhigh⟩ he rfl
            rw [zip_append hl'.symm] at hleaf
            simp only [mem_append] at hleaf
            constructor
            · intro hmem
              refine ⟨?_, by tauto⟩
              rintro rfl
              rcases hmem with hmem | hmem
              · exact hleaf w hmem
              · exact helse w hmem
            · tauto
        | error i =>
          have hnot := not_mem_of_binarySearch_error hsorted hs
          have hnone : ∀ w, ¬ t.Entry key w := by
            intro w he
            rw [hentry w, Node.entries_leaf] at he
            exact hnot (mem_keys_of_mem_zip he)
          refine ⟨none, t, by simp_all [deleteTurn, index_eq_ok hn], ?_, h, rfl, ?_⟩
          · intro w
            simp [hnone w]
          · intro k w
            constructor
            · intro he
              exact ⟨fun hk => hnone w (hk ▸ he), he⟩
            · exact fun he => he.2

/-- `delete` returns what was stored under the key and removes exactly that. -/
theorem Inv.delete_spec (h : Inv t g) (key : K) :
    ∃ r t', t.delete key = .ok (r, t') ∧ (∀ v, r = some v ↔ t.Entry key v) ∧ Inv t' g ∧
      t'.nodes.length = t.nodes.length ∧ ∀ k v, t'.Entry k v ↔ k ≠ key ∧ t.Entry k v := by
  have hrule := loop_rule (t.deleteTurn key)
    (fun m => m < t.nodes.length ∧ LowLe (g.low m) key)
    (fun m => ((t.fences g).ahead m).card)
    (fun _ r => (∀ v, r.1 = some v ↔ t.Entry key v) ∧ Inv r.2 g ∧
      r.2.nodes.length = t.nodes.length ∧ ∀ k v, r.2.Entry k v ↔ k ≠ key ∧ t.Entry k v) ?_
    ⟨h.root_lt, by rw [h.root_low]; trivial⟩ (Fences.card_ahead_lt_size h.root_lt)
  · obtain ⟨⟨r, t'⟩, hloop, hpost⟩ := hrule
    exact ⟨r, t', hloop, hpost⟩
  · rintro m ⟨hm, hle⟩
    rcases h.deleteTurn_cases hm hle with ⟨r, t', hleave, hpost⟩ | ⟨m', hnext, hmove⟩
    · exact Or.inl ⟨(r, t'), hleave, hpost⟩
    · have hahead := hmove.mem_ahead h.fences hm
      exact Or.inr ⟨m', hnext, ⟨(Fences.mem_ahead.mp hahead).1, hmove.lowLe h.fences hm⟩,
        Fences.card_ahead_lt_of_mem hahead, fun _ hr => hr⟩

end BTree

end Leaves

section Splits

variable {K V : Type} [LinearOrder K] {t t' : BTree K V} {g g' : Ghost K} {id : NodeId}
  {n : Node K V} {key sep : K} {value : V} {up : Option (K × NodeId)}

namespace BTree

/-- The levels up to `level` are in order. -/
structure Below (t : BTree K V) (g : Ghost K) (level : Nat) : Prop where
  fences : (t.fences g).Ok
  node : ∀ m n, t.nodes[m]? = some n → g.level m ≤ level → NodeOk (t.fences g) m n

/-- Node `id` was split at `sep`, and `r` is the new right half. -/
structure SplitAt (t : BTree K V) (g : Ghost K) (id : NodeId) (t' : BTree K V) (g' : Ghost K)
    (sep : K) (r : NodeId) : Prop where
  old_le : t.nodes.length ≤ r
  lt : r < t'.nodes.length
  level : g'.level r = g.level id
  low : g'.low r = some sep
  left_high : (t'.fences g').high id = some sep
  high : (t'.fences g').high r = (t.fences g).high id
  above_low : LowLt (g.low id) (some sep)
  below_high : LtHigh sep ((t.fences g).high id)

/-- What an insertion below `id` leaves behind. -/
structure Inserted (t : BTree K V) (g : Ghost K) (id : NodeId) (t' : BTree K V) (g' : Ghost K)
    (split : Option (K × NodeId)) : Prop where
  below : Below t' g' (g.level id)
  size : t.nodes.length ≤ t'.nodes.length
  root : t'.root = t.root
  level : ∀ m < t.nodes.length, g'.level m = g.level m
  low : ∀ m < t.nodes.length, g'.low m = g.low m
  /-- Nodes at or above the level of `id` are untouched, except `id`. -/
  frame : ∀ m < t.nodes.length, g.level id ≤ g.level m → m ≠ id → t'.nodes[m]? = t.nodes[m]?
  /-- New nodes are below the level of `id`, except the right half of `id`. -/
  fresh : ∀ m < t'.nodes.length, t.nodes.length ≤ m →
    g'.level m < g.level id ∨ (g'.level m = g.level id ∧ ∃ s, split = some (s, m))
  whole : split = none → (t'.fences g').high id = (t.fences g).high id
  halves : ∀ s r, split = some (s, r) → SplitAt t g id t' g' s r

theorem Inv.below (h : Inv t g) (level : Nat) : Below t g level :=
  ⟨h.fences, fun m n hn _ => h.node m n hn⟩

/-- The contents after `key` has been bound to `value`. -/
def Stores (t t' : BTree K V) (key : K) (value : V) : Prop :=
  ∀ k v, t'.Entry k v ↔ (k = key ∧ v = value) ∨ (k ≠ key ∧ t.Entry k v)

omit [LinearOrder K] in
theorem Stores.congr {t'' : BTree K V} (h : Stores t t' key value)
    (hsame : ∀ k v, t''.Entry k v ↔ t'.Entry k v) : Stores t t'' key value :=
  fun k v => (hsame k v).trans (h k v)

theorem Inserted.high_frame (h : Inserted t g id t' g' up) {m : NodeId}
    (hm : m < t.nodes.length) (hlevel : g.level id ≤ g.level m) (hne : m ≠ id) :
    (t'.fences g').high m = (t.fences g).high m := by
  simp only [fences, h.frame m hm hlevel hne]

/-! ### Splitting -/

omit [LinearOrder K] in
theorem split_fences (left right : Node K V) (hn : t.nodes[id]? = some n)
    (hlh : left.high = some sep) (hlr : left.rightLink = some t.nodes.length)
    (hrh : right.high = n.high) (hrr : right.rightLink = n.rightLink) :
    Fences.Split (t.fences g) (((t.setNode id left).push right).fences
      (g.extend t.nodes.length (g.level id) (some sep))) id sep := by
  have hid := lt_of_node hn
  have hne : ∀ m < t.nodes.length, m ≠ t.nodes.length := fun m hm => ne_of_lt hm
  have hleft : ((t.setNode id left).push right).nodes[id]? = some left := by
    rw [node_push_old (by simpa using hid), node_setNode_self hid]
  have hright : ((t.setNode id left).push right).nodes[t.nodes.length]? = some right := by
    simpa using node_push_new (t := t.setNode id left) (n := right)
  have hother : ∀ m < t.nodes.length, m ≠ id →
      ((t.setNode id left).push right).nodes[m]? = t.nodes[m]? := by
    intro m hm hmid
    rw [node_push_old (by simpa using hm), node_setNode_ne hmid]
  exact {
    size := by simp
    level_old := fun m hm => if_neg (hne m hm)
    level_new := if_pos rfl
    low_old := fun m hm => if_neg (hne m hm)
    low_new := if_pos rfl
    high_other := fun m hm hmid => by simp only [fences, hother m hm hmid]
    high_left := (fences_high hleft).trans hlh
    high_new := (fences_high hright).trans (hrh.trans (fences_high hn).symm)
    right_other := fun m hm hmid => by simp only [fences, hother m hm hmid]
    right_left := (fences_right hleft).trans hlr
    right_new := (fences_right hright).trans (hrr.trans (fences_right hn).symm) }

theorem Inserted.splitNode (h : Inserted t g id t' g' none) (hid : id < t.nodes.length)
    (hn : t'.nodes[id]? = some n) {left right : Node K V}
    (hlow : LowLt (g.low id) (some sep)) (hhigh : LtHigh sep ((t.fences g).high id))
    (hs : Fences.Split (t'.fences g') (((t'.setNode id left).push right).fences
      (g'.extend t'.nodes.length (g'.level id) (some sep))) id sep)
    (hleft : NodeOk (((t'.setNode id left).push right).fences
      (g'.extend t'.nodes.length (g'.level id) (some sep))) id left)
    (hright : NodeOk (((t'.setNode id left).push right).fences
      (g'.extend t'.nodes.length (g'.level id) (some sep))) t'.nodes.length right) :
    Inserted t g id ((t'.setNode id left).push right)
      (g'.extend t'.nodes.length (g'.level id) (some sep)) (some (sep, t'.nodes.length)) := by
  have hid' := lt_of_node hn
  have hsize : ((t'.setNode id left).push right).nodes.length = t'.nodes.length + 1 := by simp
  have hnode : ∀ m < t'.nodes.length, m ≠ id →
      ((t'.setNode id left).push right).nodes[m]? = t'.nodes[m]? := by
    intro m hm hmid
    rw [node_push_old (by simpa using hm), node_setNode_ne hmid]
  have hlt : LowLt ((t'.fences g').low id) (some sep) := by
    rw [fences_low, h.low id hid]; exact hlow
  have hgt : LtHigh sep ((t'.fences g').high id) := by rw [h.whole rfl]; exact hhigh
  have hleveln : (g'.extend t'.nodes.length (g'.level id) (some sep)).level t'.nodes.length =
      g.level id := hs.level_new.trans (h.level id hid)
  refine ⟨⟨h.below.fences.split hid' hlt hgt hs, ?_⟩, ?_, h.root, ?_, ?_, ?_, ?_, ?_, ?_⟩
  · intro m x hx hml
    have hm := lt_of_node hx
    rw [hsize] at hm
    rcases Nat.lt_succ_iff_lt_or_eq.mp hm with hm | rfl
    · by_cases hmid : m = id
      · subst hmid
        rw [node_push_old (by simpa using hm), node_setNode_self hm] at hx
        obtain rfl := some.inj hx
        exact hleft
      · rw [hnode m hm hmid] at hx
        have hml' : g'.level m ≤ g.level id := (hs.level_old m hm).symm.trans_le hml
        refine (h.below.node m x hx hml').congr (hs.level_old m hm) (hs.low_old m hm)
          (hs.high_other m hm hmid) ?_
        intro c _ hc hcl
        have hcid : c ≠ id := by
          rintro rfl
          have := h.level c hid
          simp only [fences_level] at hcl
          omega
        exact ⟨by rw [hs.size]; exact Nat.lt_succ_of_lt hc, hs.level_old c hc, hs.low_old c hc,
          hs.high_other c hc hcid⟩
    · have hnew := node_push_new (t := t'.setNode id left) (n := right)
      rw [length_setNode] at hnew
      obtain rfl : right = x := some.inj (hnew.symm.trans hx)
      exact hright
  · rw [hsize]; exact Nat.le_succ_of_le h.size
  · intro m hm
    exact (hs.level_old m (lt_of_lt_of_le hm h.size)).trans (h.level m hm)
  · intro m hm
    exact (hs.low_old m (lt_of_lt_of_le hm h.size)).trans (h.low m hm)
  · intro m hm hml hmid
    rw [hnode m (lt_of_lt_of_le hm h.size) hmid]
    exact h.frame m hm hml hmid
  · intro m hm hml
    rw [hsize] at hm
    rcases Nat.lt_succ_iff_lt_or_eq.mp hm with hm | rfl
    · rcases h.fresh m hm hml with hlt | ⟨_, s, hs'⟩
      · exact Or.inl ((hs.level_old m hm).trans_lt hlt)
      · cases hs'
    · exact Or.inr ⟨hleveln, sep, rfl⟩
  · intro hnone
    cases hnone
  · intro s r hsr
    obtain ⟨rfl, rfl⟩ : sep = s ∧ t'.nodes.length = r := by simpa using hsr
    exact ⟨h.size, by rw [hsize]; exact Nat.lt_succ_self _, hleveln, hs.low_new, hs.high_left,
      hs.high_new.trans (h.whole rfl), hlow, hhigh⟩

omit [LinearOrder K] in
theorem entry_split (hn : t.nodes[id]? = some n) {left right : Node K V}
    (hentries : ∀ p, p ∈ n.entries ↔ p ∈ left.entries ∨ p ∈ right.entries) (k : K) (v : V) :
    ((t.setNode id left).push right).Entry k v ↔ t.Entry k v := by
  rw [entry_push, entry_setNode (lt_of_node hn), entry_iff_elsewhere hn, hentries]
  tauto

theorem Inserted.splitLeaf_spec (h : Inserted t g id t' g' none) (hid : id < t.nodes.length)
    {keys : List K} {vals : List V} {right : Option NodeId} {highKey : Option K}
    (hn : t'.nodes[id]? = some (.leaf keys vals right highKey))
    (hfull : nodeCapacity < keys.length) :
    ∃ t'' g'' s, t'.splitLeaf id = .ok (t'', s) ∧ Inserted t g id t'' g'' (some s) ∧
      ∀ k v, t''.Entry k v ↔ t'.Entry k v := by
  have hlevel := h.level id hid
  have hlow := h.low id hid
  have hhigh := h.whole rfl
  obtain ⟨l, sep, r, rfl, hl⟩ := exists_cut (show 32 < keys.length from
    lt_trans (by decide) hfull)
  cases h.below.node id _ hn (le_of_eq hlevel) with
  | leaf h0 hlen hsorted hcov =>
    obtain ⟨l', v, r', rfl, hl'⟩ := exists_vals_split hlen
    have hs := split_fences (g := g') (.leaf l l' (some t'.nodes.length) (some sep))
      (.leaf (sep :: r) (v :: r') right highKey) hn rfl rfl rfl rfl
    have hcovSep := hcov sep (by simp)
    rw [pairwise_append, pairwise_cons] at hsorted
    obtain ⟨hsl, ⟨hsepr, hsr⟩, hlr⟩ := hsorted
    simp only [length_append, length_cons] at hlen
    -- some key precedes the separator, so the left half keeps a non-empty range
    have hsepLow : LowLt (g.low id) (some sep) := by
      obtain ⟨x, hx⟩ := exists_mem_of_length_pos (show 0 < l.length by omega)
      have hx' := (hcov x (mem_append_left _ hx)).1
      rw [fences_low, hlow] at hx'
      exact lowLt_of_lowLe hx' (hlr x hx sep mem_cons_self)
    refine ⟨_, _, (sep, t'.nodes.length), ?_, h.splitNode hid hn hsepLow ?_ hs
      (.leaf ?_ ?_ hsl ?_) (.leaf ?_ ?_ (pairwise_cons.mpr ⟨hsepr, hsr⟩) ?_),
      entry_split hn ?_⟩
    · have hk : (splitOff (l ++ sep :: r) 32 : Result Empty _) = .ok (l, sep :: r) := by
        rw [← hl, splitOff_append_length]
      have hv : (splitOff (l' ++ v :: r') 32 : Result Empty _) = .ok (l', v :: r') := by
        rw [← hl, ← hl', splitOff_append_length]
      have hi : (index (sep :: r) 0 : Result Empty K) = .ok sep := rfl
      simp [splitLeaf, nodeCapacity, index_eq_ok hn, hk, hv, hi]
    · rw [← hhigh]; exact hcovSep.2
    · exact (hs.level_old id (lt_of_node hn)).trans h0
    · exact hl'
    · intro k hk
      refine ⟨?_, ?_⟩
      · rw [hs.low_old id (lt_of_node hn)]
        exact (hcov k (mem_append_left _ hk)).1
      · rw [hs.high_left]
        exact hlr k hk sep mem_cons_self
    · exact hs.level_new.trans h0
    · simp only [length_cons]
      omega
    · intro k hk
      have hlow' := hs.low_new
      have hhigh' := hs.high_new
      simp only [fences_size] at hlow' hhigh'
      refine ⟨?_, ?_⟩
      · rw [hlow']
        rcases mem_cons.mp hk with rfl | hk
        · exact le_refl k
        · exact le_of_lt (hsepr k hk)
      · rw [hhigh']
        exact (hcov k (mem_append_right _ hk)).2
    · intro p
      simp only [Node.entries_leaf]
      rw [zip_append hl'.symm, mem_append]

theorem Inserted.splitInternal_spec (h : Inserted t g id t' g' none) (hid : id < t.nodes.length)
    {keys : List K} {children : List NodeId} {right : Option NodeId} {highKey : Option K}
    (hn : t'.nodes[id]? = some (.internal keys children right highKey))
    (hfull : nodeCapacity < keys.length) :
    ∃ t'' g'' s, t'.splitInternal id = .ok (t'', s) ∧ Inserted t g id t'' g'' (some s) ∧
      ∀ k v, t''.Entry k v ↔ t'.Entry k v := by
  have hlevel := h.level id hid
  have hlow := h.low id hid
  have hhigh := h.whole rfl
  obtain ⟨l, sep, r, rfl, hl⟩ := exists_cut (show 32 < keys.length from
    lt_trans (by decide) hfull)
  cases h.below.node id _ hn (le_of_eq hlevel) with
  | internal hsorted hbounds hspans =>
    have hclen := hspans.length
    obtain ⟨a, b, rfl, ha⟩ : ∃ a b, children = a ++ b ∧ a.length = l.length + 1 := by
      refine ⟨children.take (l.length + 1), children.drop (l.length + 1),
        (take_append_drop _ _).symm, length_take_of_le ?_⟩
      simp only [length_append, length_cons] at hclen
      omega
    obtain ⟨hspl, hspr⟩ := (spans_append ha).mp hspans
    have hs := split_fences (g := g') (.internal l a (some t'.nodes.length) (some sep))
      (.internal r b right highKey) hn rfl rfl rfl rfl
    have hsep := hbounds sep (by simp)
    rw [pairwise_append, pairwise_cons] at hsorted
    obtain ⟨hsl, ⟨hsepr, hsr⟩, hlr⟩ := hsorted
    -- children are below the node that is split, so their fences stay
    have hchild : ∀ p, (p = id ∨ p = t'.nodes.length) → ∀ lo c hi,
        Child (t'.fences g') id lo c hi →
        Child (((t'.setNode id (.internal l a (some t'.nodes.length) (some sep))).push
          (.internal r b right highKey)).fences
          (g'.extend t'.nodes.length (g'.level id) (some sep))) p lo c hi := by
      rintro p hp lo c hi ⟨hc, hcl, rfl, rfl⟩
      have hcid : c ≠ id := by
        rintro rfl
        omega
      refine ⟨by rw [hs.size]; exact Nat.lt_succ_of_lt hc, ?_, hs.low_old c hc,
        hs.high_other c hc hcid⟩
      rw [hs.level_old c hc, hcl]
      rcases hp with rfl | rfl
      · exact (hs.level_old p (lt_of_node hn)).symm
      · exact hs.level_new.symm
    refine ⟨_, _, (sep, t'.nodes.length), ?_, h.splitNode hid hn ?_ ?_ hs
      (.internal hsl ?_ ?_) (.internal hsr ?_ ?_), entry_split hn (by simp)⟩
    · have hi : (index (l ++ sep :: r) 32 : Result Empty K) = .ok sep := by
        rw [← hl, index_append_length]
      have hk : (splitOff (l ++ sep :: r) 33 : Result Empty _) = .ok (l ++ [sep], r) := by
        have := splitOff_append_length (E := Empty) (l ++ [sep]) r
        simpa [hl] using this
      have hc : (splitOff (a ++ b) 33 : Result Empty _) = .ok (a, b) := by
        have : a.length = 33 := by omega
        rw [← this, splitOff_append_length]
      simp [splitInternal, nodeCapacity, index_eq_ok hn, hi, hk, hc]
    · rw [← hlow]; exact hsep.1
    · rw [← hhigh]; exact hsep.2
    · intro k hk
      refine ⟨?_, ?_⟩
      · rw [hs.low_old id (lt_of_node hn)]
        exact (hbounds k (mem_append_left _ hk)).1
      · rw [hs.high_left]
        exact hlr k hk sep mem_cons_self
    · rw [hs.low_old id (lt_of_node hn), hs.high_left]
      exact hspl.mono (fun lo c _ hi => hchild id (Or.inl rfl) lo c hi)
    · intro k hk
      have hlow' := hs.low_new
      have hhigh' := hs.high_new
      simp only [fences_size] at hlow' hhigh'
      refine ⟨?_, ?_⟩
      · rw [hlow']; exact hsepr k hk
      · rw [hhigh']
        exact (hbounds k (mem_append_right _ (mem_cons_of_mem sep hk))).2
    · have hlow' := hs.low_new
      have hhigh' := hs.high_new
      simp only [fences_size] at hlow' hhigh'
      rw [hlow', hhigh']
      exact hspr.mono (fun lo c _ hi => hchild _ (Or.inr rfl) lo c hi)

end BTree

end Splits

end Oikos.Archon
