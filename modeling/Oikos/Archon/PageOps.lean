/-
The operations of the buffer pool and the invariant they keep: pinning a block
on a hit and on a miss, releasing it, and writing frames back.
-/
import Oikos.Archon.PageCache

namespace Oikos.Archon

open List

namespace BufferPool

section Cut

variable {D : Type} {pool : BufferPool D} {l r : List Frame} {x : Frame}

theorem setFrame_cut {p : BufferPool D} (h : p.frames = l ++ x :: r) (f : Frame) :
    p.setFrame l.length f = .ok { p with frames := l ++ f :: r } := by
  simp [setFrame, h]

theorem index_cut (h : pool.frames = l ++ x :: r) :
    (index pool.frames l.length : Result Empty Frame) = .ok x := by
  simp [h]

@[simp] theorem touch_frames (idx : Nat) : (pool.touch idx).frames = pool.frames := rfl

@[simp] theorem touch_device (idx : Nat) : (pool.touch idx).device = pool.device := rfl

@[simp] theorem touch_capacity (idx : Nat) : (pool.touch idx).capacity = pool.capacity := rfl

theorem find_eq_some {b : BlockId} {idx : Nat} (h : pool.find b = some idx) :
    ∃ l f r, pool.frames = l ++ f :: r ∧ l.length = idx ∧ f.blockId = b := by
  obtain ⟨hlt, hf, _⟩ := findIdx?_eq_some_iff_getElem.mp h
  obtain ⟨l, f, r, hfs, hlen⟩ := exists_cut hlt
  refine ⟨l, f, r, hfs, hlen, ?_⟩
  subst hlen
  simpa [hfs] using hf

theorem find_eq_none {b : BlockId} (h : pool.find b = none) :
    b ∉ pool.frames.map Frame.blockId := by
  rw [find, findIdx?_eq_none_iff] at h
  intro hmem
  obtain ⟨f, hf, rfl⟩ := mem_map.mp hmem
  simpa using h f hf

theorem pinFrame_cut (h : pool.frames = l ++ x :: r) (hpins : x.pins + 1 < 2 ^ 32) :
    pool.pinFrame l.length =
      .ok { pool with frames := l ++ { x with state := .pinned (x.pins + 1) } :: r } := by
  unfold pinFrame
  rw [index_cut h, ok_bind]
  cases hs : x.state with
  | pinned n =>
    have hn : x.pins = n := by simp [Frame.pins, hs]
    rw [hn] at hpins ⊢
    simp only [hpins, if_true]
    exact setFrame_cut h _
  | _ => simpa [Frame.pins, hs] using setFrame_cut h _

theorem pinFrame_overflow (h : pool.frames = l ++ x :: r) (hpins : ¬ x.pins + 1 < 2 ^ 32) :
    pool.pinFrame l.length = .error .panic := by
  unfold pinFrame
  rw [index_cut h, ok_bind]
  cases hs : x.state with
  | pinned n =>
    have hn : x.pins = n := by simp [Frame.pins, hs]
    rw [hn] at hpins
    simp only [hpins, if_false]
  | _ => simp [Frame.pins, hs] at hpins

end Cut

variable {D : Type} [ReliableDevice D] {pool pool' : BufferPool D}
  {latest latest' : BlockId → Bytes} {f : Frame} {b : BlockId} {idx : Nat} {l r : List Frame}

/-- The invariant between calls. -/
structure Inv (pool : BufferPool D) (latest : BlockId → Bytes) : Prop where
  cached : Cached pool.device latest pool.frames
  lru : pool.lru.Perm (List.range pool.frames.length)
  bounded : pool.frames.length ≤ pool.capacity

theorem inv_empty (d : D) (capacity : Nat) :
    (⟨d, capacity, [], []⟩ : BufferPool D).Inv (content d) :=
  ⟨⟨by simp, by simp, fun _ _ _ => rfl⟩, Perm.refl _, Nat.zero_le _⟩

theorem touch_perm {lru ixs : List Nat} (h : (idx :: lru.erase idx).Perm ixs) :
    (lru.erase idx ++ [idx]).Perm ixs :=
  (perm_append_singleton idx _).trans h

theorem Inv.swap (h : Inv pool latest) {x y : Frame} (hfs : pool.frames = l ++ x :: r)
    (hid : y.blockId = x.blockId) (hlatest : ∀ b, b ≠ x.blockId → latest' b = latest b)
    (hok : FrameOk pool.device latest' y) :
    Inv { pool with frames := l ++ y :: r } latest' where
  cached := by
    have hcached := h.cached
    rw [hfs] at hcached
    exact ((hcached.perm perm_middle).replace hid hlatest hok).perm perm_middle.symm
  lru := by simpa [hfs] using h.lru
  bounded := by simpa [hfs] using h.bounded

theorem Inv.touch (h : Inv pool latest) (hidx : idx < pool.frames.length) :
    Inv (pool.touch idx) latest where
  cached := h.cached
  lru := by
    have hmem : idx ∈ pool.lru := by
      rw [h.lru.mem_iff, mem_range]
      exact hidx
    exact touch_perm ((perm_cons_erase hmem).symm.trans h.lru)
  bounded := h.bounded

/-! ### Pinning -/

/-- Block `b` has been pinned in frame `idx`. -/
structure Pinned (pool pool' : BufferPool D) (latest : BlockId → Bytes) (b : BlockId)
    (idx : Nat) : Prop where
  inv : Inv pool' latest
  frame : ∃ l f r, pool'.frames = l ++ f :: r ∧ l.length = idx ∧ f.blockId = b ∧
    f.state.isPinned = true
  keeps : Keeps pool.frames pool'.frames
  pins : ∀ c, pinCount pool'.frames c = pinCount pool.frames c + if c = b then 1 else 0
  blockCount : blockCount pool'.device = blockCount pool.device
  capacity : pool'.capacity = pool.capacity

theorem FrameOk.pin {d : D} (h : FrameOk d latest f) (n : Nat) :
    FrameOk d latest { f with state := .pinned (n + 1) } where
  inRange := h.inRange
  page := h.page
  written := h.written
  not_free := by simp
  clean := by simp
  pinned := by
    rintro m ⟨⟩
    exact Nat.succ_pos n

theorem Inv.pinned_hit (h : Inv pool latest) (hfs : pool.frames = l ++ f :: r) :
    Pinned pool
      (({ pool with frames := l ++ { f with state := .pinned (f.pins + 1) } :: r } :
        BufferPool D).touch l.length) latest f.blockId l.length := by
  have hinv : Inv { pool with frames := l ++ { f with state := .pinned (f.pins + 1) } :: r }
      latest :=
    h.swap hfs rfl (fun _ _ => rfl) (FrameOk.pin (h.cached.frame f (by simp [hfs])) f.pins)
  refine ⟨hinv.touch (by simp), ⟨l, _, r, rfl, rfl, rfl, rfl⟩, ?_, ?_, rfl, rfl⟩
  · rw [hfs]
    exact keeps_swap hinv.cached fun _ => rfl
  · intro c
    rw [hfs]
    simp only [BufferPool.touch, pinCount_cut]
    by_cases hc : f.blockId = c
    · simp only [hc, if_true, Frame.pins]
      omega
    · simp [hc, Ne.symm hc]

theorem firstUnpinned_cases {fs : List Frame} {ixs : List Nat} (hix : ∀ i ∈ ixs, i < fs.length) :
    (firstUnpinned fs ixs = .ok none ∧
      ∀ i ∈ ixs, ∃ f : Frame, fs[i]? = some f ∧ f.state.isPinned = true) ∨
    ∃ l f r, firstUnpinned fs ixs = .ok (some l.length) ∧ fs = l ++ f :: r ∧ l.length ∈ ixs ∧
      f.state.isPinned = false := by
  induction ixs with
  | nil => exact Or.inl ⟨rfl, by simp⟩
  | cons i ixs ih =>
    obtain ⟨l, f, r, rfl, rfl⟩ := exists_cut (hix i mem_cons_self)
    simp only [firstUnpinned, index_append_length, ok_bind]
    cases hp : f.state.isPinned with
    | false => exact Or.inr ⟨l, f, r, rfl, rfl, mem_cons_self, hp⟩
    | true =>
      rcases ih fun j hj => hix j (mem_cons_of_mem _ hj) with
        ⟨hnone, hall⟩ | ⟨l', f', r', hsome, heq, hmem, hf'⟩
      · refine Or.inl ⟨by simpa using hnone, ?_⟩
        intro j hj
        rcases mem_cons.mp hj with rfl | hj
        · exact ⟨f, by simp, hp⟩
        · exact hall j hj
      · exact Or.inr ⟨l', f', r', by simpa using hsome, heq,
          mem_cons_of_mem _ hmem, hf'⟩

/-- The frame between `l` and `r` is to be filled; the others are in order. -/
structure Vacant (pool : BufferPool D) (latest : BlockId → Bytes) (l r : List Frame) : Prop where
  frames : ∃ x, pool.frames = l ++ x :: r
  cached : Cached pool.device latest (l ++ r)
  lru : (l.length :: pool.lru).Perm (List.range pool.frames.length)
  bounded : pool.frames.length ≤ pool.capacity

theorem Inv.evict_unpinned (h : Inv pool latest) (hfs : pool.frames = l ++ f :: r)
    (hfirst : firstUnpinned pool.frames pool.lru = .ok (some l.length))
    (hf : f.state.isPinned = false) :
    ∃ pool', pool.evict = .ok (pool', .ok (some l.length)) ∧ Vacant pool' latest l r ∧
      blockCount pool'.device = blockCount pool.device ∧ pool'.capacity = pool.capacity := by
  have hok := h.cached.frame f (by simp [hfs])
  have hcached := h.cached
  rw [hfs] at hcached
  have hmem : l.length ∈ pool.lru := by
    rw [h.lru.mem_iff, mem_range, hfs]
    simp
  have hlru : (l.length :: pool.lru.erase l.length).Perm (range (l ++ f :: r).length) := by
    have := (perm_cons_erase hmem).symm.trans h.lru
    rwa [hfs] at this
  have hbound := h.bounded
  rw [hfs] at hbound
  -- either the frame is dirty and written back, or the device has its bytes already
  obtain ⟨device, hwrite, hcount, hcached'⟩ : ∃ device,
      (if f.state = .dirty then writeBlock pool.device f.blockId f.page.bytes
        else (pool.device, .ok ())) = (device, .ok ()) ∧
      blockCount device = blockCount pool.device ∧ Cached device latest (l ++ r) := by
    by_cases hd : f.state = .dirty
    · obtain ⟨d', hw, hcount, hcontent⟩ := ReliableDevice.write_ok hok.inRange f.page.size
      refine ⟨d', by rw [if_pos hd, hw], hcount, ?_⟩
      exact ((hcached.perm perm_middle).writeBack hcount hcontent).drop (by
        rw [hcontent, if_pos rfl])
    · refine ⟨pool.device, if_neg hd, rfl, (hcached.perm perm_middle).drop ?_⟩
      apply hok.written
      apply hok.clean
      cases hs : f.state with
      | free => exact absurd hs hok.not_free
      | clean => rfl
      | dirty => exact absurd hs hd
      | pinned n => simp [PageState.isPinned, hs] at hf
  refine ⟨{ pool with
    device := device
    lru := pool.lru.erase l.length
    frames := l ++ { f with state := .free, dirtyIntent := false } :: r }, ?_,
    ⟨⟨_, rfl⟩, hcached', by simpa using hlru, by simpa using hbound⟩, hcount, rfl⟩
  unfold evict
  simp only [hfirst, ok_bind, index_cut hfs, hwrite]
  rw [setFrame_cut (p := { pool with device := device, lru := pool.lru.erase l.length }) hfs]
  rfl

theorem Inv.acquireFrame_cases (h : Inv pool latest) :
    (pool.acquireFrame = .ok (pool, .error .allFramesPinned) ∧
      pool.frames.length = pool.capacity ∧ ∀ f ∈ pool.frames, f.state.isPinned = true) ∨
    ∃ pool' l r, pool.acquireFrame = .ok (pool', .ok l.length) ∧ Vacant pool' latest l r ∧
      ((l = pool.frames ∧ r = []) ∨
        ∃ f, pool.frames = l ++ f :: r ∧ f.state.isPinned = false) ∧
      blockCount pool'.device = blockCount pool.device ∧ pool'.capacity = pool.capacity := by
  have hfree : (pool.frames.findIdx? fun f => f.state == .free) = none := by
    rw [findIdx?_eq_none_iff]
    intro f hf
    simpa using (h.cached.frame f hf).not_free
  by_cases hlt : pool.frames.length < pool.capacity
  · refine Or.inr ⟨{ pool with frames := pool.frames ++
        [⟨0xFFFFFFFFFFFFFFFF, Page.zeroed, .free, false⟩] }, pool.frames, [],
      by simp [acquireFrame, hfree, hlt], ?_, Or.inl ⟨rfl, rfl⟩, rfl, rfl⟩
    refine ⟨⟨_, rfl⟩, by simpa using h.cached, ?_, by simpa using Nat.succ_le_of_lt hlt⟩
    rw [length_append, length_singleton, range_succ]
    exact (Perm.cons _ h.lru).trans (perm_append_singleton _ _).symm
  · have hix : ∀ i ∈ pool.lru, i < pool.frames.length := fun i hi =>
      mem_range.mp (h.lru.mem_iff.mp hi)
    rcases firstUnpinned_cases hix with ⟨hnone, hall⟩ | ⟨l, f, r, hsome, hfs, _, hf⟩
    · refine Or.inl ⟨?_, Nat.le_antisymm h.bounded (not_lt.mp hlt), ?_⟩
      · simp [acquireFrame, hfree, hlt, evict, hnone]
      · intro f hf
        obtain ⟨i, hi, rfl⟩ := mem_iff_getElem.mp hf
        obtain ⟨x, hx, hpin⟩ := hall i (h.lru.mem_iff.mpr (mem_range.mpr hi))
        obtain rfl : pool.frames[i] = x := by simpa [hi] using hx
        exact hpin
    · obtain ⟨pool', hevict, hvac, hcount, hcap⟩ := h.evict_unpinned hfs hsome hf
      exact Or.inr ⟨pool', l, r, by simp [acquireFrame, hfree, hlt, hevict], hvac,
        Or.inr ⟨f, hfs, hf⟩, hcount, hcap⟩

theorem readPage_ok {d : D} (hb : InRange d b) :
    ∃ page : Page, readPage d b = .ok page ∧ page.bytes = content d b := by
  have hread := ReliableDevice.read_ok hb Page.zeroed.size
  refine ⟨⟨content d b, ReliableDevice.content_size hb⟩, ?_, rfl⟩
  unfold readPage
  split
  · next out hout =>
    obtain rfl : out = content d b := by
      have heq := hout.symm.trans hread
      simpa using heq
    rfl
  · next e he =>
    have heq := he.symm.trans hread
    simp at heq

theorem Vacant.load (h : Vacant pool latest l r) (hb : InRange pool.device b)
    (hnew : b ∉ (l ++ r).map Frame.blockId) {page : Page}
    (hpage : page.bytes = content pool.device b) :
    Inv (({ pool with frames := l ++ ⟨b, page, .pinned 1, false⟩ :: r } : BufferPool D).touch
      l.length) latest := by
  obtain ⟨x, hx⟩ := h.frames
  have hnodup : (l.length :: pool.lru).Nodup := h.lru.nodup_iff.mpr nodup_range
  have hnot : l.length ∉ pool.lru := (nodup_cons.mp hnodup).1
  have hlru := h.lru
  have hbound := h.bounded
  rw [hx] at hlru hbound
  refine ⟨(h.cached.load hb hnew hpage).perm perm_middle.symm, ?_, by simpa using hbound⟩
  refine touch_perm ?_
  rw [erase_of_not_mem hnot]
  simpa using hlru

theorem Inv.pinBlock_cases (h : Inv pool latest) (hb : InRange pool.device b) :
    (pool.pinBlock b = .error .panic ∧ 2 ^ 32 ≤ pinCount pool.frames b + 1) ∨
    (pool.pinBlock b = .ok (pool, .error .allFramesPinned) ∧ b ∉ pool.frames.map Frame.blockId ∧
      pool.frames.length = pool.capacity ∧ ∀ f ∈ pool.frames, f.state.isPinned = true) ∨
    ∃ pool' idx, pool.pinBlock b = .ok (pool', .ok idx) ∧
      Pinned pool (pool'.touch idx) latest b idx := by
  cases hfind : pool.find b with
  | some idx =>
    obtain ⟨l, f, r, hfs, rfl, rfl⟩ := find_eq_some hfind
    by_cases hpins : f.pins + 1 < 2 ^ 32
    · exact Or.inr (Or.inr ⟨_, l.length, by simp [pinBlock, hfind, pinFrame_cut hfs hpins],
        h.pinned_hit hfs⟩)
    · refine Or.inl ⟨by simp [pinBlock, hfind, pinFrame_overflow hfs hpins], ?_⟩
      rw [hfs, pinCount_cut, if_pos rfl]
      omega
  | none =>
    have hnew := find_eq_none hfind
    rcases h.acquireFrame_cases with ⟨hfail, hfull, hall⟩ |
      ⟨pool', l, r, hacq, hvac, hlr, hcount, hcap⟩
    · exact Or.inr (Or.inl ⟨by simp [pinBlock, hfind, loadFrame, hfail], hnew, hfull, hall⟩)
    · have hb' : InRange pool'.device b := by rwa [InRange, hcount]
      obtain ⟨page, hread, hpage⟩ := readPage_ok hb'
      obtain ⟨x, hx⟩ := hvac.frames
      have hsub : ∀ y ∈ l ++ r, y ∈ pool.frames := by
        intro y hy
        rcases hlr with ⟨rfl, rfl⟩ | ⟨f, hfs, _⟩
        · simpa using hy
        · rw [hfs]
          rcases mem_append.mp hy with hy | hy
          · exact mem_append_left _ hy
          · exact mem_append_right _ (mem_cons_of_mem f hy)
      have hnew' : b ∉ (l ++ r).map Frame.blockId := by
        intro hmem
        obtain ⟨y, hy, rfl⟩ := mem_map.mp hmem
        exact hnew (mem_map_of_mem (hsub y hy))
      have hinv := hvac.load hb' hnew' hpage
      refine Or.inr (Or.inr ⟨{ pool' with frames := l ++ ⟨b, page, .pinned 1, false⟩ :: r },
        l.length, ?_, hinv, ⟨l, _, r, rfl, rfl, rfl, rfl⟩, ?_, ?_, hcount, hcap⟩)
      · simp [pinBlock, hfind, loadFrame, hacq, hread, setFrame_cut hx]
      · rcases hlr with ⟨rfl, rfl⟩ | ⟨f, hfs, hf⟩
        · intro i f hf _
          exact ⟨f, by rw [BufferPool.touch, getElem?_append_left
            (List.getElem?_eq_some_iff.mp hf).1, hf], rfl,
            (h.cached.frame f (mem_of_getElem? hf)).not_free⟩
        · rw [hfs]
          refine keeps_swap hinv.cached fun hpin => ?_
          rw [hf] at hpin
          cases hpin
      · intro c
        simp only [BufferPool.touch, pinCount_cut, Frame.pins]
        rcases hlr with ⟨rfl, rfl⟩ | ⟨f, hfs, hf⟩
        · by_cases hc : b = c
          · simp [hc, add_comm]
          · simp [hc, Ne.symm hc]
        · have hzero : f.pins = 0 := by
            have := (h.cached.frame f (by simp [hfs])).pins_pos_iff
            rw [hf] at this
            simpa using this
          rw [hfs, pinCount_cut, hzero]
          by_cases hc : b = c
          · simp [hc, add_comm]
          · simp [hc, Ne.symm hc]

/-! ### The operations -/

theorem Inv.fetch_cases (h : Inv pool latest) (hb : InRange pool.device b) :
    (pool.fetch b = .error .panic ∧ 2 ^ 32 ≤ pinCount pool.frames b + 1) ∨
    (pool.fetch b = .ok (pool, .error .allFramesPinned) ∧ b ∉ pool.frames.map Frame.blockId ∧
      pool.frames.length = pool.capacity ∧ ∀ f ∈ pool.frames, f.state.isPinned = true) ∨
    ∃ pool' idx page, pool.fetch b = .ok (pool', .ok page) ∧ Pinned pool pool' latest b idx ∧
      page.bytes = latest b := by
  rcases h.pinBlock_cases hb with ⟨hp, hlim⟩ | ⟨hp, hfull⟩ | ⟨pool', idx, hp, hpinned⟩
  · exact Or.inl ⟨by simp [fetch, hp], hlim⟩
  · exact Or.inr (Or.inl ⟨by simp [fetch, hp], hfull⟩)
  · obtain ⟨l, f, r, hfs, rfl, rfl, _⟩ := hpinned.frame
    refine Or.inr (Or.inr ⟨_, l.length, f.page, ?_, hpinned, ?_⟩)
    · simp only [fetch, hp, ok_bind, index_cut hfs]
    · exact (hpinned.inv.cached.frame f (by rw [hfs]; simp)).page

theorem Inv.fetchMut_cases (h : Inv pool latest) (hb : InRange pool.device b) :
    (pool.fetchMut b = .error .panic ∧ 2 ^ 32 ≤ pinCount pool.frames b + 1) ∨
    (pool.fetchMut b = .ok (pool, .error .allFramesPinned) ∧ b ∉ pool.frames.map Frame.blockId ∧
      pool.frames.length = pool.capacity ∧ ∀ f ∈ pool.frames, f.state.isPinned = true) ∨
    ∃ pool' l f r, pool.fetchMut b = .ok (pool', .ok l.length) ∧
      Pinned pool pool' latest b l.length ∧ pool'.frames = l ++ f :: r ∧ f.blockId = b ∧
      f.dirtyIntent = true ∧ f.state.isPinned = true := by
  rcases h.pinBlock_cases hb with ⟨hp, hlim⟩ | ⟨hp, hfull⟩ | ⟨pool', idx, hp, hpinned⟩
  · exact Or.inl ⟨by simp [fetchMut, hp], hlim⟩
  · exact Or.inr (Or.inl ⟨by simp [fetchMut, hp], hfull⟩)
  · obtain ⟨l, f, r, hfs, rfl, rfl, hpin⟩ := hpinned.frame
    have hok := hpinned.inv.cached.frame f (by rw [hfs]; simp)
    have hmarked : FrameOk (pool'.touch l.length).device latest { f with dirtyIntent := true } := {
      hok with
      written := fun hfalse => by cases hfalse
      clean := fun hclean => by
        have hs : f.state = .clean := hclean
        rw [hs] at hpin
        cases hpin }
    have hinv := hpinned.inv.swap hfs (y := { f with dirtyIntent := true }) rfl (fun _ _ => rfl)
      hmarked
    refine Or.inr (Or.inr ⟨_, l, _, r, ?_, ⟨hinv, ⟨l, _, r, rfl, rfl, rfl, hpin⟩, ?_, ?_,
      hpinned.blockCount, hpinned.capacity⟩, rfl, rfl, rfl, hpin⟩)
    · simp only [fetchMut, hp, ok_bind, index_cut hfs, setFrame_cut hfs]
    · intro i x hx hxpin
      obtain ⟨y, hy, hyid, hyfree⟩ := hpinned.keeps i x hx hxpin
      rw [hfs] at hy
      by_cases hi : i = l.length
      · subst hi
        obtain rfl : f = y := by simpa using hy
        exact ⟨{ f with dirtyIntent := true }, by simp, hyid, hyfree⟩
      · exact ⟨y, by rw [← hy]; exact getElem?_swap hi, hyid, hyfree⟩
    · intro c
      have hpins := hpinned.pins c
      rw [hfs, pinCount_cut] at hpins
      rw [pinCount_cut, ← hpins]
      rfl

/-- Writing through a marked frame changes the latest bytes of its block. -/
theorem Inv.setPage (h : Inv pool latest) (hfs : pool.frames = l ++ f :: r)
    (hintent : f.dirtyIntent = true) (page : Page) :
    Inv { pool with frames := l ++ { f with page := page } :: r }
      (fun c => if c = f.blockId then page.bytes else latest c) := by
  have hok := h.cached.frame f (by simp [hfs])
  refine h.swap hfs rfl (fun c hc => if_neg hc) {
    hok with
    page := (if_pos rfl).symm
    written := fun hfalse => ?_ }
  rw [hintent] at hfalse
  cases hfalse

/-- `unpin` releases one pin. -/
theorem Inv.unpin_spec (h : Inv pool latest) (b : BlockId) :
    ∃ pool', pool.unpin b = .ok pool' ∧ Inv pool' latest ∧ Keeps pool.frames pool'.frames ∧
      (∀ c, pinCount pool'.frames c = pinCount pool.frames c - if c = b then 1 else 0) ∧
      pool'.device = pool.device ∧ pool'.capacity = pool.capacity := by
  have hkeep := keeps_refl h.cached
  cases hfind : pool.find b with
  | none =>
    refine ⟨pool, by simp [unpin, hfind], h, hkeep, ?_, rfl, rfl⟩
    intro c
    by_cases hc : c = b
    · rw [hc, pinCount_eq_zero (find_eq_none hfind), Nat.zero_sub]
    · rw [if_neg hc, Nat.sub_zero]
  | some idx =>
    obtain ⟨l, f, r, hfs, rfl, rfl⟩ := find_eq_some hfind
    have hok := h.cached.frame f (by simp [hfs])
    -- a block has one frame, so the other frames do not pin it
    have hone : pinCount (l ++ r) f.blockId = 0 := by
      apply pinCount_eq_zero
      have hnodup := h.cached.distinct
      rw [hfs] at hnodup
      exact (nodup_cons.mp ((perm_middle.map Frame.blockId).nodup_iff.mp hnodup)).1
    -- all outcomes replace the state of the frame by one with a pin less
    have swap : ∀ state : PageState, state ≠ .free → (state = .clean → f.dirtyIntent = false) →
        (∀ n, state = .pinned n → 0 < n) →
        Frame.pins { f with state := state } = f.pins - 1 →
        pool.unpin f.blockId = .ok { pool with frames := l ++ { f with state := state } :: r } →
        ∃ pool', pool.unpin f.blockId = .ok pool' ∧ Inv pool' latest ∧
          Keeps pool.frames pool'.frames ∧
          (∀ c, pinCount pool'.frames c =
            pinCount pool.frames c - if c = f.blockId then 1 else 0) ∧
          pool'.device = pool.device ∧ pool'.capacity = pool.capacity := by
      intro state hfree hclean hpos hpins hrun
      have hinv := h.swap hfs (y := { f with state := state }) rfl (fun _ _ => rfl)
        { hok with not_free := hfree, clean := hclean, pinned := hpos }
      refine ⟨_, hrun, hinv, ?_, ?_, rfl, rfl⟩
      · rw [hfs]
        exact keeps_swap hinv.cached fun _ => rfl
      · intro c
        rw [hfs, pinCount_cut, pinCount_cut, hpins]
        by_cases hc : c = f.blockId
        · subst hc
          simp [hone]
        · simp [hc, Ne.symm hc]
    cases hs : f.state with
    | pinned n =>
      have hn := hok.pinned n hs
      by_cases hgt : n > 1
      · refine swap (.pinned (n - 1)) (by simp) (by simp) ?_ (by simp [Frame.pins, hs]) ?_
        · rintro m ⟨⟩
          omega
        · simp [unpin, hfind, index_cut hfs, hs, hgt, setFrame_cut hfs]
      · have hpins : f.pins - 1 = 0 := by
          simp only [Frame.pins, hs]
          omega
        cases hd : f.dirtyIntent with
        | true =>
          refine swap .dirty (by simp) (by simp) (by simp) hpins.symm ?_
          simp [unpin, hfind, index_cut hfs, hs, hgt, hd, setFrame_cut hfs]
        | false =>
          refine swap .clean (by simp) (fun _ => hd) (by simp) hpins.symm ?_
          simp [unpin, hfind, index_cut hfs, hs, hgt, hd, setFrame_cut hfs]
    | free => exact absurd hs hok.not_free
    | _ =>
      refine ⟨pool, by simp [unpin, hfind, index_cut hfs, hs], h, hkeep, ?_, rfl, rfl⟩
      intro c
      rw [hfs, pinCount_cut]
      have hzero : f.pins = 0 := by simp [Frame.pins, hs]
      by_cases hc : c = f.blockId
      · subst hc
        simp [hone, hzero]
      · simp [hc]

/-- What writing back frames leaves of each of them. -/
def FlushedAs (f f' : Frame) : Prop :=
  f'.blockId = f.blockId ∧ f'.page = f.page ∧ f'.pins = f.pins ∧
    (f.dirtyIntent = false → f'.dirtyIntent = false)

theorem Inv.flushFrame_spec (h : Inv pool latest) (hfs : pool.frames = l ++ f :: r) :
    ∃ pool' f', pool.flushFrame l.length = .ok (pool', .ok ()) ∧ Inv pool' latest ∧
      pool'.frames = l ++ f' :: r ∧ FlushedAs f f' ∧ f'.dirtyIntent = false ∧
      blockCount pool'.device = blockCount pool.device ∧ pool'.capacity = pool.capacity := by
  have hok := h.cached.frame f (by simp [hfs])
  by_cases hneed : f.state = .dirty ∨ (f.dirtyIntent = true ∧ f.state.isPinned = true)
  · obtain ⟨d', hwrite, hcount, hcontent⟩ := ReliableDevice.write_ok hok.inRange f.page.size
    have hcached := h.cached
    rw [hfs] at hcached
    have hinv : Inv { pool with device := d' } latest := ⟨by
      rw [hfs]
      exact ((hcached.perm perm_middle).writeBack hcount hcontent).perm
        perm_middle.symm, h.lru, h.bounded⟩
    set f' : Frame := { f with
      state := if f.state = .dirty then .clean else f.state
      dirtyIntent := false }
    have hpins : f'.pins = f.pins := by
      by_cases hd : f.state = .dirty
      · simp [f', Frame.pins, hd]
      · simp [f', Frame.pins, hd]
    have hok' : FrameOk d' latest f' := by
      have hokd := hinv.cached.frame f (by simp [hfs])
      refine { hokd with
        written := fun _ => ?_, not_free := ?_, clean := fun _ => rfl, pinned := ?_ }
      · rw [hcontent]
        exact if_pos rfl
      · by_cases hd : f.state = .dirty
        · simp [f', hd]
        · simpa [f', hd] using hok.not_free
      · intro n hn
        by_cases hd : f.state = .dirty
        · simp [f', hd] at hn
        · exact hok.pinned n (by simpa [f', hd] using hn)
    refine ⟨_, f', ?_, hinv.swap hfs (y := f') rfl (fun _ _ => rfl) hok', rfl,
      ⟨rfl, rfl, hpins, fun _ => rfl⟩, rfl, hcount, rfl⟩
    simp only [flushFrame, index_cut hfs, ok_bind, hneed, if_true, hwrite]
    rw [setFrame_cut (p := { pool with device := d' }) hfs]
    rfl
  · refine ⟨pool, f, by simp [flushFrame, index_cut hfs, hneed], h, hfs,
      ⟨rfl, rfl, rfl, fun hf => hf⟩, ?_, rfl, rfl⟩
    cases hs : f.state with
    | free => exact absurd hs hok.not_free
    | clean => exact hok.clean hs
    | dirty => exact absurd (Or.inl hs) hneed
    | pinned n =>
      cases hd : f.dirtyIntent with
      | false => rfl
      | true => exact absurd (Or.inr ⟨hd, by simp [PageState.isPinned, hs]⟩) hneed

/-- A run of write-backs reaches every frame it is given and spoils none. -/
theorem Inv.flushFrames_spec (h : Inv pool latest) (ixs : List Nat)
    (hix : ∀ i ∈ ixs, i < pool.frames.length) :
    ∃ pool', pool.flushFrames ixs = .ok (pool', .ok ()) ∧ Inv pool' latest ∧
      pool'.frames.length = pool.frames.length ∧
      (∀ (i : Nat) (f : Frame), pool.frames[i]? = some f → ∃ f', pool'.frames[i]? = some f' ∧
        FlushedAs f f' ∧ (i ∈ ixs → f'.dirtyIntent = false)) ∧
      blockCount pool'.device = blockCount pool.device ∧ pool'.capacity = pool.capacity := by
  induction ixs generalizing pool with
  | nil =>
    exact ⟨pool, rfl, h, rfl,
      fun i f hf => ⟨f, hf, ⟨rfl, rfl, rfl, fun hf => hf⟩, by simp⟩, rfl, rfl⟩
  | cons i ixs ih =>
    obtain ⟨l, f, r, hfs, rfl⟩ := exists_cut (hix i mem_cons_self)
    obtain ⟨pool₁, f₁, hrun₁, h₁, hfs₁, has₁, hclean₁, hcount₁, hcap₁⟩ := h.flushFrame_spec hfs
    have hlen₁ : pool₁.frames.length = pool.frames.length := by simp [hfs, hfs₁]
    obtain ⟨pool₂, hrun₂, h₂, hlen₂, hframes₂, hcount₂, hcap₂⟩ := ih h₁ fun j hj => by
      rw [hlen₁]
      exact hix j (mem_cons_of_mem _ hj)
    refine ⟨pool₂, by simp [flushFrames, hrun₁, hrun₂], h₂, hlen₂.trans hlen₁, ?_,
      hcount₂.trans hcount₁, hcap₂.trans hcap₁⟩
    intro j x hx
    by_cases hj : j = l.length
    · subst hj
      obtain rfl : f = x := by simpa [hfs] using hx
      obtain ⟨f₂, hf₂, ⟨hid, hpage, hpins, hkeep⟩, _⟩ :=
        hframes₂ l.length f₁ (by simp [hfs₁])
      exact ⟨f₂, hf₂, ⟨hid.trans has₁.1, hpage.trans has₁.2.1, hpins.trans has₁.2.2.1,
        fun _ => hkeep hclean₁⟩, fun _ => hkeep hclean₁⟩
    · obtain ⟨x₂, hx₂, has, hmem⟩ := hframes₂ j x (by
        rw [hfs₁, getElem?_swap hj, ← hfs]
        exact hx)
      refine ⟨x₂, hx₂, has, fun hin => hmem ?_⟩
      rcases mem_cons.mp hin with heq | hin
      · exact absurd heq hj
      · exact hin

/-- `flush_all` brings the device up to date. -/
theorem Inv.flushAll_spec (h : Inv pool latest) :
    ∃ pool', pool.flushAll = .ok (pool', .ok ()) ∧ Inv pool' latest ∧
      (∀ b, InRange pool'.device b → content pool'.device b = latest b) ∧
      Keeps pool.frames pool'.frames ∧
      (∀ c, pinCount pool'.frames c = pinCount pool.frames c) ∧
      blockCount pool'.device = blockCount pool.device ∧ pool'.capacity = pool.capacity := by
  obtain ⟨pool₁, hrun, h₁, hlen, hframes, hcount, hcap⟩ :=
    h.flushFrames_spec (range pool.frames.length) fun i hi => mem_range.mp hi
  obtain ⟨d', hsync, hcount', hcontent⟩ := ReliableDevice.sync_ok pool₁.device
  have hcached : Cached d' latest pool₁.frames := h₁.cached.congr hcount' hcontent
  have hpair : ∀ (i : Nat) (f' : Frame), pool₁.frames[i]? = some f' →
      ∃ f, pool.frames[i]? = some f ∧ FlushedAs f f' ∧ f'.dirtyIntent = false := by
    intro i f' hf'
    have hi : i < pool.frames.length := hlen ▸ (List.getElem?_eq_some_iff.mp hf').1
    obtain ⟨x, hx, has, hclean⟩ := hframes i _ (getElem?_eq_getElem hi)
    obtain rfl : x = f' := Option.some.inj (hx.symm.trans hf')
    exact ⟨_, getElem?_eq_getElem hi, has, hclean (mem_range.mpr hi)⟩
  refine ⟨{ pool₁ with device := d' }, by simp [flushAll, hrun, hsync],
    ⟨hcached, h₁.lru, h₁.bounded⟩, ?_, ?_, ?_, hcount'.trans hcount, hcap⟩
  · intro b hb
    refine hcached.content_eq (fun f hf => ?_) hb
    obtain ⟨i, hi⟩ := mem_iff_getElem?.mp hf
    obtain ⟨_, _, _, hclean⟩ := hpair i f hi
    exact hclean
  · intro i f hf _
    obtain ⟨f', hf', has, _⟩ := hframes i f hf
    exact ⟨f', hf', has.1, (h₁.cached.frame f' (mem_of_getElem? hf')).not_free⟩
  · intro c
    have hmap : (pool₁.frames.map fun f => if f.blockId = c then f.pins else 0) =
        pool.frames.map fun f => if f.blockId = c then f.pins else 0 := by
      apply ext_getElem?
      intro i
      rw [getElem?_map, getElem?_map]
      cases hf' : pool₁.frames[i]? with
      | none =>
        have hnone : pool.frames[i]? = none := by
          rw [List.getElem?_eq_none_iff] at hf' ⊢
          omega
        rw [hnone]
      | some f' =>
        obtain ⟨f, hf, has, _⟩ := hpair i f' hf'
        simp [hf, has.1, has.2.2.1]
    simp only [pinCount, hmap]

end BufferPool

end Oikos.Archon
