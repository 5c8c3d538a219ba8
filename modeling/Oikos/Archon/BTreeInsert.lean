/-
Insertion into the B-Link tree, level by level: the leaf takes the pair, each
inner node takes the separator of a child that was split, and the root that is
split gets a new root above it.
-/
import Oikos.Archon.BTreeSplit

namespace Oikos.Archon

open List

variable {K V : Type} [LinearOrder K] {t t' : BTree K V} {g g' : Ghost K} {id c : NodeId}
  {n : Node K V} {key sep : K} {value : V} {right : Option NodeId} {highKey : Option K}

theorem NodeOk.insertChild {f f' : Fences K} {l r : List K} {a b : List NodeId} {new : NodeId}
    (hok : NodeOk f id (.internal (l ++ r) (a ++ c :: b) right highKey : Node K V))
    (hlen : a.length = l.length) (hl : ∀ x ∈ l, x < sep) (hr : ∀ x ∈ r, sep < x)
    (hsep : LowLt (f.low id) (some sep) ∧ LtHigh sep (f.high id))
    (hlow : f'.low id = f.low id) (hhigh : f'.high id = f.high id)
    (hother : ∀ lo, ∀ x ∈ a ++ b, ∀ hi, x ≠ c → Child f id lo x hi → Child f' id lo x hi)
    (hsplit : ∀ lo hi, Child f id lo c hi →
      Child f' id lo c (some sep) ∧ Child f' id (some sep) new hi) :
    NodeOk f' id (.internal (l ++ sep :: r) (a ++ c :: new :: b) right highKey : Node K V) := by
  cases hok with
  | internal hsorted hbounds hspans =>
    refine .internal (pairwise_insert hsorted hl hr) ?_ ?_
    · intro k hk
      rw [hlow, hhigh]
      rcases mem_append.mp hk with hk | hk
      · exact hbounds k (mem_append_left r hk)
      · rcases mem_cons.mp hk with rfl | hk
        · exact hsep
        · exact hbounds k (mem_append_right l hk)
    · rw [hlow, hhigh]
      have hnodup := hspans.nodup (fun _ _ _ hc => hc.2.2.1) hsorted
        (fun k hk => (hbounds k hk).1)
      refine hspans.insert hlen ?_ hsplit
      intro lo x hx hi
      refine hother lo x hx hi ?_
      rintro rfl
      rw [nodup_append, nodup_cons] at hnodup
      obtain ⟨_, ⟨hxb, _⟩, hdis⟩ := hnodup
      rcases mem_append.mp hx with hx | hx
      · exact hdis x hx x mem_cons_self rfl
      · exact hxb hx

namespace BTree

/-! ### The leaf -/

variable {keys l r : List K} {vals : List V}

theorem Inv.inserted_leaf (h : Inv t g) (keys' : List K)
    (vals' : List V) (hn : t.nodes[id]? = some (.leaf keys vals right highKey))
    (hlen : vals'.length = keys'.length) (hsorted : keys'.Pairwise (· < ·))
    (hcov : ∀ k ∈ keys', (t.fences g).Covers id k) :
    Inserted t g id (t.setNode id (.leaf keys' vals' right highKey)) g none where
  below := (h.setLeaf hn hlen hsorted hcov).below _
  size := by simp
  root := rfl
  level _ _ := rfl
  low _ _ := rfl
  frame _ _ _ hne := node_setNode_ne hne
  fresh m hm hle := by
    rw [length_setNode] at hm
    exact absurd hm (not_lt.mpr hle)
  whole _ := by
    have hf : (t.setNode id (.leaf keys' vals' right highKey)).fences g = t.fences g :=
      fences_setNode hn rfl rfl
    rw [hf]
  halves _ _ hs := by cases hs

theorem Inv.stores_leaf (h : Inv t g) (keys' : List K)
    (vals' : List V) (hn : t.nodes[id]? = some (.leaf keys vals right highKey))
    (hlevel : g.level id = 0)
    (hcov : (t.fences g).Covers id key)
    (hmem : ∀ k v, (k, v) ∈ keys'.zip vals' ↔
      (k = key ∧ v = value) ∨ (k ≠ key ∧ (k, v) ∈ keys.zip vals)) :
    Stores t (t.setNode id (.leaf keys' vals' right highKey)) key value := by
  intro k v
  have helse : t.EntryElsewhere id k v → k ≠ key := h.ne_of_elsewhere (lt_of_node hn) hlevel hcov
  rw [entry_setNode (lt_of_node hn), entry_iff_elsewhere hn, Node.entries_leaf,
    Node.entries_leaf, hmem]
  tauto

theorem mem_zip_replace {l' r' : List V} {v : V}
    (hsorted : (l ++ key :: r).Pairwise (· < ·)) (hlen : l'.length = l.length) (k : K) (w : V) :
    (k, w) ∈ (l ++ key :: r).zip (l' ++ value :: r') ↔
      (k = key ∧ w = value) ∨ (k ≠ key ∧ (k, w) ∈ (l ++ key :: r).zip (l' ++ v :: r')) := by
  by_cases hk : k = key
  · subst hk
    simp [mem_zip_of_found hsorted hlen]
  · rw [zip_append hlen.symm, zip_append hlen.symm]
    simp [hk]

omit [LinearOrder K] in
theorem mem_zip_add {l' r' : List V} (hnew : key ∉ l ++ r)
    (hlen : l'.length = l.length) (k : K) (w : V) :
    (k, w) ∈ (l ++ key :: r).zip (l' ++ value :: r') ↔
      (k = key ∧ w = value) ∨ (k ≠ key ∧ (k, w) ∈ (l ++ r).zip (l' ++ r')) := by
  have hne : (k, w) ∈ (l ++ r).zip (l' ++ r') → k ≠ key := by
    rintro hmem rfl
    exact hnew (mem_keys_of_mem_zip hmem)
  rw [zip_append hlen.symm] at hne ⊢
  rw [zip_append hlen.symm]
  simp only [zip_cons_cons, mem_append, mem_cons, Prod.mk.injEq] at hne ⊢
  tauto

omit [LinearOrder K] in
/-- The values of a leaf part where its keys do. -/
theorem exists_vals_cut (hlen : vals.length = (l ++ r).length) :
    ∃ l' r', vals = l' ++ r' ∧ l'.length = l.length := by
  refine ⟨vals.take l.length, vals.drop l.length, (take_append_drop _ _).symm,
    length_take_of_le ?_⟩
  simp [hlen]

theorem Inv.insertRec_leaf (h : Inv t g)
    (hn : t.nodes[id]? = some (.leaf keys vals right highKey))
    (hcov : (t.fences g).Covers id key) (value : V) (depth : Nat) :
    ∃ t' g' up, insertRec (depth + 1) t id key value = .ok (t', up) ∧
      Inserted t g id t' g' up ∧ Stores t t' key value := by
  cases h.node id _ hn with
  | leaf hlevel hlen hsorted hcovs =>
    cases hs : binarySearch keys key with
    | ok i =>
      obtain ⟨l, r, rfl, rfl⟩ := binarySearch_ok hs
      obtain ⟨l', v, r', rfl, hl'⟩ := exists_vals_split hlen
      refine ⟨_, g, none, ?_,
        h.inserted_leaf _ (l' ++ value :: r') hn (by simpa using hlen) hsorted hcovs,
        h.stores_leaf _ _ hn hlevel hcov (mem_zip_replace hsorted hl')⟩
      have hset : (setAt (l' ++ v :: r') l.length value : Result Empty _) =
          .ok (l' ++ value :: r') := by
        rw [← hl', setAt_append_length]
      simp [insertRec, index_eq_ok hn, hs, hset]
    | error i =>
      have hnew := not_mem_of_binarySearch_error hsorted hs
      obtain ⟨l, r, rfl, rfl, hl, hr⟩ := binarySearch_error hsorted hs
      obtain ⟨l', r', rfl, hl'⟩ := exists_vals_cut hlen
      have hins := h.inserted_leaf (l ++ key :: r) (l' ++ value :: r') hn
        (by simp only [length_append, length_cons] at hlen ⊢; omega)
        (pairwise_insert hsorted hl hr) (by
          intro k hk
          rcases mem_append.mp hk with hk | hk
          · exact hcovs k (mem_append_left r hk)
          · rcases mem_cons.mp hk with rfl | hk
            · exact hcov
            · exact hcovs k (mem_append_right l hk))
      have hstores := h.stores_leaf (l ++ key :: r) (l' ++ value :: r') hn hlevel hcov
        (mem_zip_add hnew hl')
      have hival : (insertAt (l' ++ r') l.length value : Result Empty _) =
          .ok (l' ++ value :: r') := by
        rw [← hl', insertAt_append_length]
      by_cases hfull : nodeCapacity < l.length + (r.length + 1)
      · obtain ⟨t'', g'', s, hsplit, hins', hsame⟩ := hins.splitLeaf_spec (lt_of_node hn)
          (node_setNode_self (lt_of_node hn)) (by simpa using hfull)
        refine ⟨t'', g'', some s, ?_, hins', hstores.congr hsame⟩
        simp [insertRec, index_eq_ok hn, hs, hival, hfull, hsplit]
      · refine ⟨_, g, none, ?_, hins, hstores⟩
        simp [insertRec, index_eq_ok hn, hs, hival, hfull]

/-! ### Inner nodes -/

theorem Inserted.old_of_level {up : Option (K × NodeId)} (h : Inserted t g c t' g' up)
    {m : NodeId} (hm : m < t'.nodes.length) (hlevel : g.level c < g'.level m) :
    m < t.nodes.length := by
  by_contra hnot
  rcases h.fresh m hm (not_lt.mp hnot) with hlt | ⟨heq, _⟩
  · exact absurd (hlt.trans hlevel) (lt_irrefl _)
  · exact absurd heq (Nat.ne_of_gt hlevel)

theorem Inserted.lift (h : Inv t g) (hi : Inserted t g c t' g' none) (hid : id < t.nodes.length)
    (hc : c < t.nodes.length) (hlevel : g.level c + 1 = g.level id) :
    Inserted t g id t' g' none := by
  have hne : ∀ m, g.level id ≤ g.level m → m ≠ c := by
    rintro m hle rfl
    omega
  refine ⟨⟨hi.below.fences, ?_⟩, hi.size, hi.root, hi.level, hi.low, ?_, ?_, ?_, ?_⟩
  · intro m x hx hle
    by_cases hmc : g'.level m ≤ g.level c
    · exact hi.below.node m x hx hmc
    · have hm := hi.old_of_level (lt_of_node hx) (not_le.mp hmc)
      have hml := hi.level m hm
      have hframe := hi.frame m hm (by omega) (hne m (by omega))
      refine (h.node m x (hframe ▸ hx)).congr hml (hi.low m hm)
        (hi.high_frame hm (by omega) (hne m (by omega))) ?_
      intro d _ hd hdl
      refine ⟨lt_of_lt_of_le hd hi.size, hi.level d hd, hi.low d hd, ?_⟩
      by_cases hdc : d = c
      · subst hdc
        exact hi.whole rfl
      · simp only [fences_level] at hdl
        exact hi.high_frame hd (by omega) hdc
  · intro m hm hle _
    exact hi.frame m hm (by omega) (hne m hle)
  · intro m hm hle
    rcases hi.fresh m hm hle with hlt | ⟨heq, _⟩
    · exact Or.inl (by omega)
    · exact Or.inl (by omega)
  · intro _
    exact hi.high_frame hid (by omega) (hne id (le_refl _))
  · intro s r hs
    cases hs

/-- The parent of a child that was split, after it has taken the new child. -/
theorem Inserted.adopt (h : Inv t g) {a b : List NodeId} {new : NodeId}
    (hn : t.nodes[id]? = some (.internal (l ++ r) (a ++ c :: b) right highKey))
    (hi : Inserted t g c t' g' (some (sep, new))) (hlen : a.length = l.length)
    (hc : c < t.nodes.length) (hlevel : g.level c + 1 = g.level id)
    (hcov : (t.fences g).Covers c key) (hl : ∀ x ∈ l, x < sep) (hr : ∀ x ∈ r, sep < x)
    (hsep : LowLt (g.low id) (some sep) ∧ LtHigh sep ((t.fences g).high id)) :
    Inserted t g id
      (t'.setNode id (.internal (l ++ sep :: r) (a ++ c :: new :: b) right highKey)) g' none := by
  have hid := lt_of_node hn
  have hhalves := hi.halves sep new rfl
  have hne : ∀ m, g.level id ≤ g.level m → m ≠ c := by
    rintro m hle rfl
    omega
  have hn' : t'.nodes[id]? = some (.internal (l ++ r) (a ++ c :: b) right highKey) := by
    rw [hi.frame id hid (by omega) (hne id (le_refl _))]
    exact hn
  have hf : (t'.setNode id (.internal (l ++ sep :: r) (a ++ c :: new :: b) right highKey)).fences
      g' = t'.fences g' := fences_setNode hn' rfl rfl
  have hhigh : ∀ m < t.nodes.length, g.level c ≤ g.level m → m ≠ c →
      (t'.fences g').high m = (t.fences g).high m := fun m hm hle hmc =>
    hi.high_frame hm hle hmc
  have hchild : ∀ d < t.nodes.length, g.level d + 1 = g.level id → d ≠ c →
      d < t'.nodes.length ∧ g'.level d = g.level d ∧ g'.low d = g.low d ∧
      (t'.fences g').high d = (t.fences g).high d := fun d hd hdl hdc =>
    ⟨lt_of_lt_of_le hd hi.size, hi.level d hd, hi.low d hd, hhigh d hd (by omega) hdc⟩
  refine ⟨⟨hf ▸ hi.below.fences, ?_⟩, by simpa using hi.size, hi.root, hi.level, hi.low,
    ?_, ?_, ?_, ?_⟩
  · intro m x hx hle
    rw [hf]
    by_cases hm : m = id
    · subst hm
      rw [node_setNode_self (lt_of_node hn')] at hx
      obtain rfl := Option.some.inj hx
      refine (h.node m _ hn).insertChild hlen hl hr hsep (hi.low m hid)
        (hhigh m hid (by omega) (hne m (le_refl _))) ?_ ?_
      · rintro lo d _ hi' hdc ⟨hd, hdl, rfl, rfl⟩
        obtain ⟨hd', hdl', hdlo, hdhi⟩ := hchild d hd hdl hdc
        exact ⟨hd', by simp only [fences_level, hdl', hi.level m hid]; exact hdl, hdlo, hdhi⟩
      · rintro lo hi' ⟨_, _, rfl, rfl⟩
        refine ⟨⟨lt_of_lt_of_le hc hi.size, ?_, hi.low c hc, hhalves.left_high⟩,
          ⟨hhalves.lt, ?_, hhalves.low, hhalves.high⟩⟩
        · simp only [fences_level, hi.level c hc, hi.level m hid]
          exact hlevel
        · simp only [fences_level, hhalves.level, hi.level m hid]
          exact hlevel
    · rw [node_setNode_ne hm] at hx
      by_cases hmc : g'.level m ≤ g.level c
      · exact hi.below.node m x hx hmc
      · have hmt := hi.old_of_level (lt_of_node hx) (not_le.mp hmc)
        have hml := hi.level m hmt
        have hlev : g.level m = g.level id := by omega
        have hmne := hne m (le_of_eq hlev.symm)
        rw [hi.frame m hmt (by omega) hmne] at hx
        have hok := h.node m x hx
        refine hok.congr hml (hi.low m hmt) (hhigh m hmt (by omega) hmne) ?_
        intro d hdmem hd hdl
        refine hchild d hd (by rw [← hlev]; exact hdl) ?_
        -- the child that was split has one parent only
        rintro rfl
        refine hm (h.fences.covers_unique hmt hid hlev (k := key) ?_ ?_)
        · cases hok with
          | leaf _ _ _ _ => simp [Node.childIds] at hdmem
          | internal _ hbounds hspans => exact covers_of_child hbounds hspans hdmem hcov
        · cases h.node id _ hn with
          | internal _ hbounds hspans => exact covers_of_child hbounds hspans (by simp) hcov
  · intro m hm hle hmid
    rw [node_setNode_ne hmid]
    exact hi.frame m hm (by omega) (hne m hle)
  · intro m hm hle
    rw [length_setNode] at hm
    rcases hi.fresh m hm hle with hlt | ⟨heq, _⟩
    · exact Or.inl (by omega)
    · exact Or.inl (by omega)
  · intro _
    rw [hf]
    exact hhigh id hid (by omega) (hne id (le_refl _))
  · intro s r hs
    cases hs

omit [LinearOrder K] in
theorem entry_setInternal {children : List NodeId} (keys' : List K)
    (children' : List NodeId) (hn : t.nodes[id]? = some (.internal keys children right highKey))
    (k : K) (v : V) :
    (t.setNode id (.internal keys' children' right highKey)).Entry k v ↔ t.Entry k v := by
  rw [entry_setNode (lt_of_node hn), entry_iff_elsewhere hn]
  simp

/-- `insert_rec` at an inner node, given what it does below the child. -/
theorem Inv.insertRec_internal (h : Inv t g) {children : List NodeId}
    (hn : t.nodes[id]? = some (.internal keys children right highKey))
    (hcov : (t.fences g).Covers id key) {depth : Nat}
    (ih : ∀ c < t.nodes.length, g.level c + 1 = g.level id → (t.fences g).Covers c key →
      ∃ t' g' up, insertRec depth t c key value = .ok (t', up) ∧
        Inserted t g c t' g' up ∧ Stores t t' key value) :
    ∃ t' g' up, insertRec (depth + 1) t id key value = .ok (t', up) ∧
      Inserted t g id t' g' up ∧ Stores t t' key value := by
  have hid := lt_of_node hn
  cases h.node id _ hn with
  | internal hsorted hbounds hspans =>
    obtain ⟨l, r, a, c, b, rfl, rfl, hlen, hidx, hc, hlevel, hclow, hchigh, hlo, hhi, hleft,
      hright⟩ := route hsorted hspans hcov.1
    have hccov : (t.fences g).Covers c key := ⟨hclow, hchigh hcov.2⟩
    obtain ⟨t', g', up, hrec, hins, hstores⟩ := ih c hc hlevel hccov
    have hchild : (index (a ++ c :: b) (childIndex (l ++ r) key) : Result Empty NodeId) =
        .ok c := by
      rw [← hidx, ← hlen, index_append_length]
    cases up with
    | none =>
      refine ⟨t', g', none, ?_, hins.lift h hid hc hlevel, hstores⟩
      simp [insertRec, index_eq_ok hn, hchild, hrec]
    | some up =>
      obtain ⟨sep, new⟩ := up
      have hhalves := hins.halves sep new rfl
      -- the separator falls strictly into the gap of the child
      have hl : ∀ x ∈ l, x < sep := by
        intro x hx
        obtain ⟨y, hy, hle⟩ := hleft x hx
        have hlt := hhalves.above_low
        rw [fences_low] at hy
        rw [hy] at hlt
        exact lt_of_le_of_lt hle hlt
      have hr : ∀ x ∈ r, sep < x := by
        intro x hx
        obtain ⟨y, hy, hle⟩ := hright x hx
        have hlt := hhalves.below_high
        rw [hy] at hlt
        exact lt_of_lt_of_le hlt hle
      have hsep : LowLt (g.low id) (some sep) ∧ LtHigh sep ((t.fences g).high id) := by
        constructor
        · rcases hlo with heq | ⟨x, hx, heq⟩
          · have hlt := hhalves.above_low
            simp only [fences_low] at heq
            rwa [heq] at hlt
          · exact lowLt_trans (hbounds x (mem_append_left r hx)).1
              (some_lowLt_some.mpr (hl x hx))
        · rcases hhi with heq | ⟨y, hy, heq⟩
          · rw [← heq]; exact hhalves.below_high
          · have hy' := (hbounds y (mem_append_right l hy)).2
            cases hh : (t.fences g).high id with
            | none => trivial
            | some z =>
              rw [hh] at hy'
              exact (hr y hy).trans hy'
      have hadopt := hins.adopt h hn hlen hc hlevel hccov hl hr hsep
      have hn' : t'.nodes[id]? = some (.internal (l ++ r) (a ++ c :: b) right highKey) := by
        rw [hins.frame id hid (by simp only [fences_level] at hlevel; omega) ?_]
        · exact hn
        · rintro rfl
          simp at hlevel
      have hstores' := hstores.congr
        (entry_setInternal (l ++ sep :: r) (a ++ c :: new :: b) hn')
      have hpos := binarySearch_gap hl hr
      have hikey : (insertAt (l ++ r) l.length sep : Result Empty _) = .ok (l ++ sep :: r) :=
        insertAt_append_length l r sep
      have hichild : (insertAt (a ++ c :: b) (l.length + 1) new : Result Empty _) =
          .ok (a ++ c :: new :: b) := by
        have := insertAt_append_length (E := Empty) (a ++ [c]) b new
        simpa [hlen] using this
      by_cases hfull : nodeCapacity < l.length + (r.length + 1)
      · obtain ⟨t'', g'', s, hsplit, hins', hsame⟩ := hadopt.splitInternal_spec hid
          (node_setNode_self (lt_of_node hn')) (by simpa using hfull)
        refine ⟨t'', g'', some s, ?_, hins', hstores'.congr hsame⟩
        simp [insertRec, index_eq_ok hn, index_eq_ok hn', hchild, hrec, hpos, hichild, hfull,
          hsplit]
      · refine ⟨_, g', none, ?_, hadopt, hstores'⟩
        simp [insertRec, index_eq_ok hn, index_eq_ok hn', hchild, hrec, hpos, hichild, hfull]

theorem Inv.insertRec_spec (h : Inv t g) (value : V) (depth : Nat) {id : NodeId}
    (hid : id < t.nodes.length) (hdepth : g.level id < depth)
    (hcov : (t.fences g).Covers id key) :
    ∃ t' g' up, insertRec depth t id key value = .ok (t', up) ∧
      Inserted t g id t' g' up ∧ Stores t t' key value := by
  induction depth generalizing id with
  | zero => omega
  | succ depth ih =>
    obtain ⟨n, hn⟩ := exists_node hid
    cases n with
    | leaf keys vals right highKey => exact h.insertRec_leaf hn hcov value depth
    | internal keys children right highKey =>
      refine h.insertRec_internal hn hcov ?_
      intro c hc hlevel hccov
      exact ih hc (by omega) hccov

theorem Inv.level_le_ahead (h : Inv t g) {level : Nat} {id : NodeId} (hid : id < t.nodes.length)
    (hlevel : g.level id = level) : level ≤ ((t.fences g).ahead id).card := by
  induction level generalizing id with
  | zero => exact Nat.zero_le _
  | succ level ih =>
    obtain ⟨n, hn⟩ := exists_node hid
    cases h.node id n hn with
    | leaf h0 _ _ _ =>
      simp only [fences_level] at h0
      omega
    | internal _ _ hspans =>
      obtain ⟨c, _, _, _, hc, hcl, _⟩ := hspans.head
      simp only [fences_level] at hcl
      have hahead : c ∈ (t.fences g).ahead id :=
        Fences.mem_ahead.mpr ⟨hc, Or.inl (by simp only [fences_level]; omega)⟩
      exact (ih hc (by omega)).trans_lt (Fences.card_ahead_lt_of_mem hahead)

/-! ### The root -/

theorem Inserted.inv (h : Inv t g) (hi : Inserted t g t.root t' g' none) : Inv t' g' := by
  have hle : ∀ m < t'.nodes.length, m ≠ t.root → g'.level m < g.level t.root := by
    intro m hm hne
    by_cases hold : m < t.nodes.length
    · rw [hi.level m hold]
      exact h.top m hold hne
    · rcases hi.fresh m hm (not_lt.mp hold) with hlt | ⟨_, s, hs⟩
      · exact hlt
      · cases hs
  have hroot := hi.level t.root h.root_lt
  refine ⟨hi.below.fences, ?_, ?_, ?_, ?_, ?_⟩
  · intro m x hx
    apply hi.below.node m x hx
    by_cases hm : m = t.root
    · rw [hm, hroot]
    · exact le_of_lt (hle m (lt_of_node hx) hm)
  · rw [hi.root]
    exact lt_of_lt_of_le h.root_lt hi.size
  · rw [hi.root, hi.low t.root h.root_lt, h.root_low]
  · rw [hi.root, hi.whole rfl, h.root_high]
  · rw [hi.root, hroot]
    exact hle

theorem Inserted.inv_newRoot (h : Inv t g) {new : NodeId}
    (hi : Inserted t g t.root t' g' (some (sep, new))) :
    Inv { t'.push (.internal [sep] [t.root, new] none none) with root := t'.nodes.length }
      (g'.extend t'.nodes.length (g.level t.root + 1) none) := by
  have hhalves := hi.halves sep new rfl
  have hroot := hi.level t.root h.root_lt
  have hroot' := lt_of_lt_of_le h.root_lt hi.size
  have hne : ∀ m < t'.nodes.length, m ≠ t'.nodes.length := fun m hm => ne_of_lt hm
  have hle : ∀ m < t'.nodes.length, g'.level m ≤ g.level t.root := by
    intro m hm
    by_cases hold : m < t.nodes.length
    · rw [hi.level m hold]
      by_cases hmr : m = t.root
      · rw [hmr]
      · exact le_of_lt (h.top m hold hmr)
    · rcases hi.fresh m hm (not_lt.mp hold) with hlt | ⟨heq, _⟩
      · exact le_of_lt hlt
      · exact le_of_eq heq
  set u : BTree K V := { t'.push (.internal [sep] [t.root, new] none none) with
    root := t'.nodes.length }
  have hsize : u.nodes.length = t'.nodes.length + 1 := length_push
  have hnew : u.nodes[t'.nodes.length]? = some (.internal [sep] [t.root, new] none none) :=
    node_push_new
  have hold : ∀ m < t'.nodes.length, u.nodes[m]? = t'.nodes[m]? := fun m hm => node_push_old hm
  have hcrown : Fences.Crown (t'.fences g')
      (u.fences (g'.extend t'.nodes.length (g.level t.root + 1) none)) := {
    size := hsize
    level_old := fun m hm => if_neg (hne m hm)
    low_old := fun m hm => if_neg (hne m hm)
    high_old := fun m hm => by simp only [fences, hold m hm]
    right_old := fun m hm => by simp only [fences, hold m hm]
    high_new := fences_high hnew
    right_new := fences_right hnew
    level_new := fun m hm => by
      have := hle m hm
      simp only [fences_level, fences_size, Ghost.extend, if_true]
      omega }
  have hlevelNew : (u.fences (g'.extend t'.nodes.length (g.level t.root + 1) none)).level
      t'.nodes.length = g.level t.root + 1 := if_pos rfl
  have hlowNew : (u.fences (g'.extend t'.nodes.length (g.level t.root + 1) none)).low
      t'.nodes.length = none := if_pos rfl
  refine ⟨hi.below.fences.crown hcrown, ?_, ?_, hlowNew, hcrown.high_new, ?_⟩
  · intro m x hx
    have hm := lt_of_node hx
    rw [hsize] at hm
    rcases Nat.lt_succ_iff_lt_or_eq.mp hm with hm | rfl
    · rw [hold m hm] at hx
      refine (hi.below.node m x hx (hle m hm)).congr (hcrown.level_old m hm)
        (hcrown.low_old m hm) (hcrown.high_old m hm) ?_
      intro d _ hd _
      exact ⟨by rw [hcrown.size]; exact Nat.lt_succ_of_lt hd, hcrown.level_old d hd,
        hcrown.low_old d hd, hcrown.high_old d hd⟩
    · obtain rfl := Option.some.inj (hnew.symm.trans hx)
      refine .internal (pairwise_singleton _ _) ?_ ⟨⟨?_, ?_, ?_, ?_⟩, ⟨?_, ?_, ?_, ?_⟩⟩
      · intro k hk
        rw [hlowNew, fences_high hnew]
        exact ⟨trivial, trivial⟩
      · rw [hcrown.size]; exact Nat.lt_succ_of_lt hroot'
      · rw [hcrown.level_old _ hroot', hlevelNew, fences_level, hroot]
      · rw [hcrown.low_old _ hroot', hlowNew, fences_low, hi.low _ h.root_lt, h.root_low]
      · rw [hcrown.high_old _ hroot', hhalves.left_high]
      · rw [hcrown.size]; exact Nat.lt_succ_of_lt hhalves.lt
      · rw [hcrown.level_old _ hhalves.lt, hlevelNew, fences_level, hhalves.level]
      · rw [hcrown.low_old _ hhalves.lt, fences_low, hhalves.low]
      · rw [hcrown.high_old _ hhalves.lt, hhalves.high, h.root_high]
        exact hcrown.high_new.symm
  · rw [hsize]; exact Nat.lt_succ_self _
  · intro m hm hmne
    rw [hsize] at hm
    rcases Nat.lt_succ_iff_lt_or_eq.mp hm with hm | rfl
    · exact (hcrown.level_old m hm).trans_lt (hcrown.level_new m hm)
    · exact absurd rfl hmne

/-- Old nodes keep their place. -/
def Ghost.Extends (g g' : Ghost K) (size : Nat) : Prop :=
  ∀ m < size, g'.level m = g.level m ∧ g'.low m = g.low m

/-- `insert` binds the key and keeps the invariant; no node moves. -/
theorem Inv.insert_spec (h : Inv t g) (key : K) (value : V) :
    ∃ t' g', t.insert key value = .ok t' ∧ Inv t' g' ∧ Stores t t' key value ∧
      t.nodes.length ≤ t'.nodes.length ∧ Ghost.Extends g g' t.nodes.length := by
  have hdepth : g.level t.root < t.nodes.length :=
    (h.level_le_ahead h.root_lt rfl).trans_lt (Fences.card_ahead_lt_size h.root_lt)
  have hcov : (t.fences g).Covers t.root key := by
    constructor
    · rw [fences_low, h.root_low]; trivial
    · rw [h.root_high]; trivial
  obtain ⟨t', g', up, hrec, hins, hstores⟩ := h.insertRec_spec value _ h.root_lt hdepth hcov
  cases up with
  | none =>
    exact ⟨t', g', by simp [insert, hrec], hins.inv h, hstores, hins.size,
      fun m hm => ⟨hins.level m hm, hins.low m hm⟩⟩
  | some up =>
    obtain ⟨sep, new⟩ := up
    refine ⟨_, _, by simp [insert, hrec, hins.root], hins.inv_newRoot h, ?_, ?_, ?_⟩
    · refine hstores.congr fun k v => ?_
      exact (entry_push k v).trans (by simp)
    · exact hins.size.trans (by simp)
    · intro m hm
      have hne : m ≠ t'.nodes.length := ne_of_lt (lt_of_lt_of_le hm hins.size)
      exact ⟨(if_neg hne).trans (hins.level m hm), (if_neg hne).trans (hins.low m hm)⟩

end BTree

end Oikos.Archon
