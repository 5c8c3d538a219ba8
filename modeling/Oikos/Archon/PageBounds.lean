/-
What a buffer pool does with block ids that its device does not have.  Frames
that were never loaded carry the largest id, and the search for a resident block
looks at ids only, so a blank frame is taken for a page of that block.
-/
import Oikos.Archon.PageTransparent

namespace Oikos.Archon

open List

/-- A reliable device that refuses to read outside its range. -/
class BoundedDevice (D : Type) extends ReliableDevice D where
  read_err {d : D} {id : BlockId} {buffer : Bytes} : ¬ InRange d id →
    ∃ e, readBlock d id buffer = .error e

instance : BoundedDevice InMemoryBlockDevice where
  read_err {d id buffer} hid := by
    have hge : d.blockCount ≤ id := not_lt.mp hid
    by_cases hbuf : buffer.length = pageSize
    · exact ⟨.outOfBounds id d.blockCount, by simp [readBlock, hbuf, hge]⟩
    · exact ⟨.shortRead buffer.length pageSize, by simp [readBlock, hbuf]⟩

/-- `BlockId::MAX`, the id of a frame that was never loaded. -/
def blankId : BlockId := 0xFFFFFFFFFFFFFFFF

namespace BufferPool

/-- The ids that the frames carry. -/
def blocks {D : Type} (pool : BufferPool D) : List BlockId :=
  pool.frames.map Frame.blockId

section Effects

variable {D : Type} [BoundedDevice D] {pool pool' : BufferPool D} {b : BlockId} {idx : Nat}
  {f x : Frame}

inductive Effect : BufferPool D → BufferPool D → Prop
  | restate {pool : BufferPool D} {l r : List Frame} {x y : Frame} :
      pool.frames = l ++ x :: r → y.blockId = x.blockId → y.page = x.page →
      Effect pool { pool with frames := l ++ y :: r }
  | reorder {pool : BufferPool D} {lru : List Nat} :
      (∀ i ∈ lru, i ∈ pool.lru ∨ i < pool.frames.length) → Effect pool { pool with lru := lru }
  | writeBack {pool : BufferPool D} {f : Frame} {device : D} :
      f ∈ pool.frames → InRange pool.device f.blockId →
      blockCount device = blockCount pool.device →
      (∀ b, content device b = if b = f.blockId then f.page.bytes else content pool.device b) →
      Effect pool { pool with device := device }
  | sync {pool : BufferPool D} {device : D} :
      blockCount device = blockCount pool.device →
      (∀ b, content device b = content pool.device b) → Effect pool { pool with device := device }
  | grow {pool : BufferPool D} {f : Frame} :
      f.blockId = blankId → Effect pool { pool with frames := pool.frames ++ [f] }
  | load {pool : BufferPool D} {l r : List Frame} {x f : Frame} :
      pool.frames = l ++ x :: r → f.blockId ∉ pool.blocks → InRange pool.device f.blockId →
      f.page.bytes = content pool.device f.blockId →
      Effect pool { pool with frames := l ++ f :: r }

def Effects : BufferPool D → BufferPool D → Prop :=
  Relation.ReflTransGen Effect

theorem Effects.refl (pool : BufferPool D) : Effects pool pool :=
  Relation.ReflTransGen.refl

theorem Effects.trans {pool₁ pool₂ pool₃ : BufferPool D} (h : Effects pool₁ pool₂)
    (h' : Effects pool₂ pool₃) : Effects pool₁ pool₃ :=
  Relation.ReflTransGen.trans h h'

theorem Effect.effects (h : Effect pool pool') : Effects pool pool' :=
  Relation.ReflTransGen.single h

theorem Effects.preserve {P : BufferPool D → Prop} (h : Effects pool pool')
    (hstep : ∀ p p', P p → Effect p p' → P p') (hp : P pool) : P pool' := by
  induction h with
  | refl => exact hp
  | tail _ hlast ih => exact hstep _ _ ih hlast

omit [BoundedDevice D] in
theorem setFrame_eq_ok (h : pool.setFrame idx f = .ok pool') :
    ∃ l x r, pool.frames = l ++ x :: r ∧ l.length = idx ∧
      pool' = { pool with frames := l ++ f :: r } := by
  obtain ⟨frames, hset, h⟩ := bind_eq_ok.mp h
  obtain ⟨l, x, r, hfs, rfl⟩ := exists_cut (setAt_eq_ok hset).1
  rw [hfs, setAt_append_length] at hset
  cases hset
  cases h
  exact ⟨l, x, r, hfs, rfl, rfl⟩

theorem setFrame_effects (hx : (index pool.frames idx : Result Empty Frame) = .ok x)
    (h : pool.setFrame idx f = .ok pool') (hid : f.blockId = x.blockId) (hpage : f.page = x.page) :
    Effects pool pool' := by
  obtain ⟨l, y, r, hfs, rfl, rfl⟩ := setFrame_eq_ok h
  rw [hfs, index_append_length] at hx
  cases hx
  exact (Effect.restate hfs hid hpage).effects

theorem writeBack_cases (hf : f ∈ pool.frames) :
    (InRange pool.device f.blockId ∧ ∃ device,
      writeBlock pool.device f.blockId f.page.bytes = (device, .ok ()) ∧
      Effect pool { pool with device := device } ∧ blockCount device = blockCount pool.device) ∨
    (¬ InRange pool.device f.blockId ∧ ∃ err,
      writeBlock pool.device f.blockId f.page.bytes = (pool.device, .error err)) := by
  by_cases hrange : InRange pool.device f.blockId
  · obtain ⟨device, hwrite, hcount, hcontent⟩ := ReliableDevice.write_ok hrange f.page.size
    exact Or.inl ⟨hrange, device, hwrite, .writeBack hf hrange hcount hcontent, hcount⟩
  · exact Or.inr ⟨hrange, ReliableDevice.write_err hrange⟩

theorem touch_effects (hx : (index pool.frames idx : Result Empty Frame) = .ok x) :
    Effects pool (pool.touch idx) := by
  refine (Effect.reorder fun i hi => ?_).effects
  rcases mem_append.mp hi with hi | hi
  · exact Or.inl (mem_of_mem_erase hi)
  · rw [mem_singleton.mp hi]
    exact Or.inr (List.getElem?_eq_some_iff.mp (index_eq_ok_iff.mp hx)).1

theorem unpin_effects (h : pool.unpin b = .ok pool') : Effects pool pool' := by
  unfold unpin at h
  split at h
  · cases h
    exact .refl pool
  · obtain ⟨x, hx, h⟩ := bind_eq_ok.mp h
    split at h
    · split at h
      · exact setFrame_effects hx h rfl rfl
      · split at h
        · exact setFrame_effects hx h rfl rfl
        · exact setFrame_effects hx h rfl rfl
    · cases h
      exact .refl pool

variable {r : Except StorageError Unit}

theorem flushFrame_effects (h : pool.flushFrame idx = .ok (pool', r)) : Effects pool pool' := by
  obtain ⟨x, hx, h⟩ := bind_eq_ok.mp h
  have hmem : x ∈ pool.frames := mem_of_getElem? (index_eq_ok_iff.mp hx)
  split at h
  · rcases writeBack_cases hmem with ⟨_, device, hwrite, heffect, _⟩ | ⟨_, err, hwrite⟩
    · simp only [hwrite] at h
      obtain ⟨pool₁, hset, h⟩ := bind_eq_ok.mp h
      cases h
      exact heffect.effects.trans (setFrame_effects hx hset rfl rfl)
    · simp only [hwrite] at h
      cases h
      exact .refl pool
  · cases h
    exact .refl pool

theorem flushFrames_effects {ixs : List Nat}
    (h : pool.flushFrames ixs = .ok (pool', r)) : Effects pool pool' := by
  induction ixs generalizing pool with
  | nil =>
    cases h
    exact .refl _
  | cons i ixs ih =>
    obtain ⟨⟨pool₁, flushed⟩, hfirst, h⟩ := bind_eq_ok.mp h
    have heffects := flushFrame_effects hfirst
    cases flushed with
    | error err =>
      cases h
      exact heffects
    | ok _ => exact heffects.trans (ih h)

theorem flushAll_effects (h : pool.flushAll = .ok (pool', r)) : Effects pool pool' := by
  obtain ⟨⟨pool₁, flushed⟩, hflush, h⟩ := bind_eq_ok.mp h
  have heffects := flushFrames_effects hflush
  cases flushed with
  | error err =>
    cases h
    exact heffects
  | ok _ =>
    obtain ⟨device, hsync, hcount, hcontent⟩ := ReliableDevice.sync_ok pool₁.device
    simp only [hsync] at h
    cases h
    exact heffects.trans (Effect.sync hcount hcontent).effects

/-! ### Pools that calls can lead to -/

structure Sound (count : UInt64) (pool : BufferPool D) : Prop where
  device : blockCount pool.device = count
  ids : ∀ b ∈ pool.blocks, b < count ∨ b = blankId
  distinct : pool.blocks.Pairwise fun a b => a = b → a = blankId
  lru : ∀ i ∈ pool.lru, i < pool.frames.length

variable {count : UInt64}

theorem sound_empty (d : D) (capacity : Nat) :
    Sound (blockCount d) (⟨d, capacity, [], []⟩ : BufferPool D) where
  device := rfl
  ids := by simp [blocks]
  distinct := Pairwise.nil
  lru := by simp

omit [BoundedDevice D] in
theorem blocks_cut {l r : List Frame} (h : pool.frames = l ++ x :: r) :
    pool.blocks = l.map Frame.blockId ++ x.blockId :: r.map Frame.blockId := by
  simp [blocks, h]

theorem ne_blankId {d : D} (h : InRange d b) : b ≠ blankId := by
  rintro rfl
  have hlt : blankId.toNat < (blockCount d).toNat := UInt64.lt_iff_toNat_lt.mp h
  have hmax := (blockCount d).toNat_lt
  have hblank : blankId.toNat = 2 ^ 64 - 1 := rfl
  omega

theorem Effect.sound (h : Effect pool pool') (hs : Sound count pool) : Sound count pool' := by
  cases h with
  | @restate l r x y hfs hid _ =>
    have hblocks : ({ pool with frames := l ++ y :: r } : BufferPool D).blocks = pool.blocks := by
      rw [blocks_cut hfs, ← hid]
      exact blocks_cut rfl
    exact ⟨hs.device, hblocks ▸ hs.ids, hblocks ▸ hs.distinct,
      fun i hi => by simpa [hfs] using hs.lru i hi⟩
  | reorder hlru =>
    refine ⟨hs.device, hs.ids, hs.distinct, fun i hi => ?_⟩
    rcases hlru i hi with hi | hi
    · exact hs.lru i hi
    · exact hi
  | writeBack _ _ hcount _ => exact ⟨hcount.trans hs.device, hs.ids, hs.distinct, hs.lru⟩
  | sync hcount _ => exact ⟨hcount.trans hs.device, hs.ids, hs.distinct, hs.lru⟩
  | @grow f hid =>
    have hblocks : ({ pool with frames := pool.frames ++ [f] } : BufferPool D).blocks =
        pool.blocks ++ [blankId] := by
      simp [blocks, hid]
    refine ⟨hs.device, ?_, ?_, fun i hi => ?_⟩
    · intro b hb
      rw [hblocks, mem_append, mem_singleton] at hb
      rcases hb with hb | hb
      · exact hs.ids b hb
      · exact Or.inr hb
    · rw [hblocks, pairwise_append]
      refine ⟨hs.distinct, pairwise_singleton _ _, fun a _ c hc heq => ?_⟩
      rw [heq]
      exact mem_singleton.mp hc
    · have := hs.lru i hi
      simp only [length_append, length_singleton]
      omega
  | @load l r x f hfs hnew hrange _ =>
    have hold := blocks_cut hfs
    have hblocks : ({ pool with frames := l ++ f :: r } : BufferPool D).blocks =
        l.map Frame.blockId ++ f.blockId :: r.map Frame.blockId := blocks_cut rfl
    have hids := hs.ids
    have hdistinct := hs.distinct
    rw [hold] at hids hdistinct hnew
    rw [pairwise_append, pairwise_cons] at hdistinct
    obtain ⟨hl, ⟨_, hr⟩, hlr⟩ := hdistinct
    simp only [mem_append, mem_cons, not_or] at hnew
    refine ⟨hs.device, ?_, ?_, fun i hi => by simpa [hfs] using hs.lru i hi⟩
    · intro b hb
      rw [hblocks, mem_append, mem_cons] at hb
      rcases hb with hb | rfl | hb
      · exact hids b (mem_append_left _ hb)
      · left
        rw [← hs.device]
        exact hrange
      · exact hids b (mem_append_right _ (mem_cons_of_mem _ hb))
    · rw [hblocks, pairwise_append, pairwise_cons]
      refine ⟨hl, ⟨fun c hc heq => ?_, hr⟩, fun a ha c hc heq => ?_⟩
      · exact absurd (heq ▸ hc) hnew.2.2
      · rcases mem_cons.mp hc with rfl | hc
        · exact absurd (heq ▸ ha) hnew.1
        · exact hlr a ha c (mem_cons_of_mem _ hc) heq

theorem Sound.effects (hs : Sound count pool) (h : Effects pool pool') : Sound count pool' :=
  h.preserve (fun _ _ hs h => h.sound hs) hs

def CanLoad (pool : BufferPool D) : Prop :=
  (∃ f ∈ pool.frames, f.state = .free) ∨ pool.frames.length < pool.capacity ∨
    ∃ idx f, firstUnpinned pool.frames pool.lru = .ok (some idx) ∧ pool.frames[idx]? = some f ∧
      (f.state = .dirty → InRange pool.device f.blockId)

/-- Eviction finds no frame, cannot write its frame back, or frees it. -/
theorem Sound.evict_cases (hs : Sound count pool) :
    (firstUnpinned pool.frames pool.lru = .ok none ∧ pool.evict = .ok (pool, .ok none)) ∨
    ∃ l f r, firstUnpinned pool.frames pool.lru = .ok (some l.length) ∧
      pool.frames = l ++ f :: r ∧
      ((¬ (f.state = .dirty → InRange pool.device f.blockId) ∧
          ∃ err, pool.evict = .ok (pool, .error err)) ∨
        ((f.state = .dirty → InRange pool.device f.blockId) ∧ ∃ pool' y,
          pool.evict = .ok (pool', .ok (some l.length)) ∧ pool'.frames = l ++ y :: r ∧
          y.blockId = f.blockId ∧ Effects pool pool')) := by
  rcases firstUnpinned_cases hs.lru with ⟨hnone, _⟩ | ⟨l, f, r, hsome, hfs, _, _⟩
  · exact Or.inl ⟨hnone, by simp [evict, hnone]⟩
  · refine Or.inr ⟨l, f, r, hsome, hfs, ?_⟩
    have hmem : f ∈ pool.frames := by simp [hfs]
    -- the device that the frame leaves behind, if it can be written back
    have hdone : ∀ device, Effects pool { pool with device := device } →
        (if f.state = .dirty then writeBlock pool.device f.blockId f.page.bytes
          else (pool.device, .ok ())) = (device, .ok ()) →
        ∃ pool' y, pool.evict = .ok (pool', .ok (some l.length)) ∧ pool'.frames = l ++ y :: r ∧
          y.blockId = f.blockId ∧ Effects pool pool' := by
      intro device heffects hwrite
      set y : Frame := { f with state := .free, dirtyIntent := false }
      have hreorder : Effect { pool with device := device }
          { pool with device := device, lru := pool.lru.erase l.length } :=
        .reorder fun i hi => Or.inl (mem_of_mem_erase hi)
      have hrestate : Effect { pool with device := device, lru := pool.lru.erase l.length }
          { pool with device := device, lru := pool.lru.erase l.length, frames := l ++ y :: r } :=
        .restate hfs rfl rfl
      refine ⟨_, y, ?_, rfl, rfl,
        heffects.trans (hreorder.effects.trans hrestate.effects)⟩
      simp only [evict, hsome, ok_bind, index_cut hfs, hwrite]
      rw [setFrame_cut (p := { pool with device := device, lru := pool.lru.erase l.length }) hfs]
      rfl
    by_cases hdirty : f.state = .dirty
    · rcases writeBack_cases hmem with ⟨hrange, device, hwrite, heffect, _⟩ | ⟨hrange, err, hwrite⟩
      · exact Or.inr ⟨fun _ => hrange, hdone device heffect.effects (by rw [if_pos hdirty, hwrite])⟩
      · refine Or.inl ⟨fun h => hrange (h hdirty), err, ?_⟩
        simp only [evict, hsome, ok_bind, index_cut hfs, hdirty, if_true, hwrite]
    · exact Or.inr ⟨fun h => absurd h hdirty, hdone pool.device (.refl pool) (if_neg hdirty)⟩

theorem Sound.acquireFrame_cases (hs : Sound count pool) :
    (¬ CanLoad pool ∧ ∃ err, pool.acquireFrame = .ok (pool, .error err)) ∨
    (CanLoad pool ∧ ∃ pool' l x r, pool.acquireFrame = .ok (pool', .ok l.length) ∧
      pool'.frames = l ++ x :: r ∧ Effects pool pool' ∧
      ∀ c ∈ pool'.blocks, c ∈ pool.blocks ∨ c = blankId) := by
  cases hfree : (pool.frames.findIdx? fun f => f.state == .free) with
  | some idx =>
    obtain ⟨hlt, hf, _⟩ := findIdx?_eq_some_iff_getElem.mp hfree
    obtain ⟨l, x, r, hfs, rfl⟩ := exists_cut hlt
    refine Or.inr ⟨Or.inl ⟨_, getElem_mem hlt, by simpa using hf⟩, pool, l, x, r, ?_, hfs,
      .refl pool, fun c hc => Or.inl hc⟩
    simp [acquireFrame, hfree]
  | none =>
    have hnone : ∀ f ∈ pool.frames, f.state ≠ .free := by
      rw [findIdx?_eq_none_iff] at hfree
      intro f hf
      simpa using hfree f hf
    by_cases hlt : pool.frames.length < pool.capacity
    · refine Or.inr ⟨Or.inr (Or.inl hlt), { pool with frames := pool.frames ++
          [⟨blankId, Page.zeroed, .free, false⟩] }, pool.frames, _, [],
        by simp [acquireFrame, hfree, hlt, blankId], rfl, (Effect.grow rfl).effects, ?_⟩
      intro c hc
      simpa [blocks] using hc
    · rcases hs.evict_cases with ⟨hfirst, hevict⟩ | ⟨l, f, r, hfirst, hfs, hcases⟩
      · refine Or.inl ⟨?_, .allFramesPinned, by simp [acquireFrame, hfree, hlt, hevict]⟩
        rintro (⟨f, hf, hstate⟩ | hlt' | ⟨idx, f, hsome, _⟩)
        · exact hnone f hf hstate
        · exact hlt hlt'
        · rw [hfirst] at hsome
          cases hsome
      · have hf : pool.frames[l.length]? = some f := by simp [hfs]
        rcases hcases with ⟨hstuck, err, hevict⟩ | ⟨hdone, pool', y, hevict, hfs', hid, heffects⟩
        · refine Or.inl ⟨?_, err, by simp [acquireFrame, hfree, hlt, hevict]⟩
          rintro (⟨g, hg, hstate⟩ | hlt' | ⟨idx, g, hsome, hg, hrange⟩)
          · exact hnone g hg hstate
          · exact hlt hlt'
          · rw [hfirst] at hsome
            cases hsome
            rw [hf] at hg
            cases hg
            exact hstuck hrange
        · refine Or.inr ⟨Or.inr (Or.inr ⟨l.length, f, hfirst, hf, hdone⟩), pool', l, y, r,
            by simp [acquireFrame, hfree, hlt, hevict], hfs', heffects, ?_⟩
          intro c hc
          rw [blocks_cut hfs', hid, ← blocks_cut hfs] at hc
          exact Or.inl hc

theorem readPage_refused {d : D} (h : ¬ InRange d b) : ∃ err, readPage d b = .error err := by
  obtain ⟨err, hread⟩ : ∃ err, readBlock d b Page.zeroed.bytes = .error err :=
    BoundedDevice.read_err h
  unfold readPage
  split
  · next hok =>
    rw [hread] at hok
    cases hok
  · next e _ => exact ⟨e, rfl⟩

theorem Sound.loadFrame_cases (hs : Sound count pool) (hnew : b ∉ pool.blocks) :
    (¬ (InRange pool.device b ∧ CanLoad pool) ∧ ∃ pool' err,
      pool.loadFrame b = .ok (pool', .error err) ∧ Effects pool pool') ∨
    (InRange pool.device b ∧ CanLoad pool ∧ ∃ pool' l f r,
      pool.loadFrame b = .ok (pool', .ok l.length) ∧ pool'.frames = l ++ f :: r ∧ f.blockId = b ∧
      Effects pool pool') := by
  rcases hs.acquireFrame_cases with ⟨hno, err, hacq⟩ |
    ⟨hcan, pool', l, x, r, hacq, hfs, heffects, hids⟩
  · exact Or.inl ⟨fun h => hno h.2, pool, err, by simp [loadFrame, hacq], .refl pool⟩
  · have hcount : blockCount pool'.device = blockCount pool.device :=
      (hs.effects heffects).device.trans hs.device.symm
    by_cases hrange : InRange pool.device b
    · have hrange' : InRange pool'.device b := by rwa [InRange, hcount]
      obtain ⟨page, hread, hpage⟩ := readPage_ok hrange'
      have hnew' : b ∉ pool'.blocks := fun hmem =>
        (hids b hmem).elim hnew (ne_blankId hrange)
      refine Or.inr ⟨hrange, hcan, _, l, ⟨b, page, .pinned 1, false⟩, r, ?_, rfl, rfl,
        heffects.trans (Effect.load (f := ⟨b, page, .pinned 1, false⟩) hfs hnew' hrange'
          hpage).effects⟩
      simp [loadFrame, hacq, hread, setFrame_cut hfs]
    · have hrange' : ¬ InRange pool'.device b := by rwa [InRange, hcount]
      obtain ⟨err, hread⟩ := readPage_refused hrange'
      exact Or.inl ⟨fun h => hrange h.1, pool', err, by simp [loadFrame, hacq, hread], heffects⟩

/-! ### Calls -/

theorem Sound.pinBlock_cases (hs : Sound count pool) (b : BlockId) :
    (∃ l f r, pool.frames = l ++ f :: r ∧ f.blockId = b ∧ pool.find b = some l.length ∧
      (f.pins + 1 < 2 ^ 32 ∧ pool.pinBlock b = .ok ({ pool with
          frames := l ++ { f with state := .pinned (f.pins + 1) } :: r }, .ok l.length) ∨
        ¬ f.pins + 1 < 2 ^ 32 ∧ pool.pinBlock b = .error .panic)) ∨
    (b ∉ pool.blocks ∧
      ((¬ (InRange pool.device b ∧ CanLoad pool) ∧ ∃ pool' err,
          pool.pinBlock b = .ok (pool', .error err) ∧ Effects pool pool') ∨
        (InRange pool.device b ∧ CanLoad pool ∧ ∃ pool' l f r,
          pool.pinBlock b = .ok (pool', .ok l.length) ∧ pool'.frames = l ++ f :: r ∧
          f.blockId = b ∧ Effects pool pool'))) := by
  cases hfind : pool.find b with
  | some idx =>
    obtain ⟨l, f, r, hfs, rfl, hid⟩ := find_eq_some hfind
    refine Or.inl ⟨l, f, r, hfs, hid, rfl, ?_⟩
    by_cases hpins : f.pins + 1 < 2 ^ 32
    · exact Or.inl ⟨hpins, by simp [pinBlock, hfind, pinFrame_cut hfs hpins]⟩
    · exact Or.inr ⟨hpins, by simp [pinBlock, hfind, pinFrame_overflow hfs hpins]⟩
  | none =>
    have hload : pool.pinBlock b = pool.loadFrame b := by
      simp only [pinBlock, hfind]
    rw [hload]
    exact Or.inr ⟨find_eq_none hfind, hs.loadFrame_cases (find_eq_none hfind)⟩

theorem Sound.pinBlock_effects (hs : Sound count pool) {r : Except StorageError Nat}
    (h : pool.pinBlock b = .ok (pool', r)) :
    Effects pool pool' ∧ ∀ idx, r = .ok idx →
      ∃ l f tl, pool'.frames = l ++ f :: tl ∧ l.length = idx ∧ f.blockId = b := by
  rcases hs.pinBlock_cases b with ⟨l, f, tl, hfs, hid, _, ⟨_, hrun⟩ | ⟨_, hrun⟩⟩ |
    ⟨_, ⟨_, p, err, hrun, heffects⟩ | ⟨_, _, p, l, f, tl, hrun, hfs, hid, heffects⟩⟩
  · rw [hrun] at h
    cases h
    refine ⟨(Effect.restate (y := { f with state := .pinned (f.pins + 1) }) hfs rfl rfl).effects,
      ?_⟩
    rintro idx ⟨⟩
    exact ⟨l, _, tl, rfl, rfl, hid⟩
  · rw [hrun] at h
    cases h
  · rw [hrun] at h
    cases h
    exact ⟨heffects, by rintro idx ⟨⟩⟩
  · rw [hrun] at h
    cases h
    refine ⟨heffects, ?_⟩
    rintro idx ⟨⟩
    exact ⟨l, f, tl, hfs, rfl, hid⟩

theorem Sound.fetch_effects (hs : Sound count pool) {r : Except StorageError Page}
    (h : pool.fetch b = .ok (pool', r)) : Effects pool pool' := by
  obtain ⟨⟨pool₁, pinned⟩, hpin, h⟩ := bind_eq_ok.mp h
  obtain ⟨heffects, _⟩ := hs.pinBlock_effects hpin
  cases pinned with
  | error err =>
    cases h
    exact heffects
  | ok idx =>
    obtain ⟨f, hf, h⟩ := bind_eq_ok.mp h
    cases h
    exact heffects.trans (touch_effects hf)

/-- A frame that a block was pinned in for modification carries that block. -/
theorem Sound.fetchMut_effects (hs : Sound count pool) {r : Except StorageError Nat}
    (h : pool.fetchMut b = .ok (pool', r)) :
    Effects pool pool' := by
  obtain ⟨⟨pool₁, pinned⟩, hpin, h⟩ := bind_eq_ok.mp h
  obtain ⟨heffects, _⟩ := hs.pinBlock_effects hpin
  cases pinned with
  | error err =>
    cases h
    exact heffects
  | ok idx =>
    obtain ⟨f, hf, h⟩ := bind_eq_ok.mp h
    obtain ⟨pool₂, hset, h⟩ := bind_eq_ok.mp h
    cases h
    exact (heffects.trans (touch_effects hf)).trans (setFrame_effects hf hset rfl rfl)

/-- The caller of `fetch_mut` changes the page of a frame only. -/
theorem Sound.setPage (hs : Sound count pool) {page : Page}
    (h : pool.setPage idx page = .ok pool') : Sound count pool' := by
  obtain ⟨x, hx, h⟩ := bind_eq_ok.mp h
  obtain ⟨l, y, r, hfs, rfl, rfl⟩ := setFrame_eq_ok h
  rw [hfs, index_append_length] at hx
  cases hx
  have hblocks : ({ pool with frames := l ++ { x with page := page } :: r } :
      BufferPool D).blocks = pool.blocks := by
    rw [blocks_cut hfs]
    exact blocks_cut (x := { x with page := page }) rfl
  exact ⟨hs.device, hblocks ▸ hs.ids, hblocks ▸ hs.distinct,
    fun i hi => by simpa [hfs] using hs.lru i hi⟩

theorem Sound.pinBlock_refused_iff (hs : Sound count pool) (hb : ¬ InRange pool.device b) :
    (∃ pool' err, pool.pinBlock b = .ok (pool', .error err)) ↔
      ¬ (b = blankId ∧ blankId ∈ pool.blocks) := by
  rcases hs.pinBlock_cases b with ⟨l, f, r, hfs, hid, _, hpin⟩ |
    ⟨hnew, ⟨_, p, err, hrun, _⟩ | ⟨hrange, _⟩⟩
  · have hmem : b ∈ pool.blocks := by
      rw [blocks_cut hfs, hid]
      simp
    have hblank : b = blankId := (hs.ids b hmem).resolve_left fun hlt => hb (by
      rwa [InRange, hs.device])
    constructor
    · rintro ⟨p, err, hrefused⟩
      rcases hpin with ⟨_, hrun⟩ | ⟨_, hrun⟩
      · simp [hrun] at hrefused
      · simp [hrun] at hrefused
    · exact fun hnot => absurd ⟨hblank, hblank ▸ hmem⟩ hnot
  · constructor
    · rintro _ ⟨rfl, hmem⟩
      exact hnew hmem
    · exact fun _ => ⟨p, err, hrun⟩
  · exact absurd hrange hb

omit [BoundedDevice D] in
theorem fetch_refused_iff [BlockDevice D] {err : StorageError} :
    pool.fetch b = .ok (pool', .error err) ↔ pool.pinBlock b = .ok (pool', .error err) := by
  constructor
  · intro h
    obtain ⟨⟨pool₁, pinned⟩, hpin, h⟩ := bind_eq_ok.mp h
    cases pinned with
    | error e =>
      cases h
      exact hpin
    | ok idx =>
      obtain ⟨f, _, h⟩ := bind_eq_ok.mp h
      cases h
  · intro h
    simp [fetch, h]

omit [BoundedDevice D] in
theorem fetchMut_refused_iff [BlockDevice D] {err : StorageError} :
    pool.fetchMut b = .ok (pool', .error err) ↔ pool.pinBlock b = .ok (pool', .error err) := by
  constructor
  · intro h
    obtain ⟨⟨pool₁, pinned⟩, hpin, h⟩ := bind_eq_ok.mp h
    cases pinned with
    | error e =>
      cases h
      exact hpin
    | ok idx =>
      obtain ⟨f, _, h⟩ := bind_eq_ok.mp h
      obtain ⟨pool₂, _, h⟩ := bind_eq_ok.mp h
      cases h
  · intro h
    simp [fetchMut, h]

theorem pinBlock_empty_refused {d : D} {capacity : Nat} (hcap : 0 < capacity)
    (hb : ¬ InRange d b) :
    ∃ err, (⟨d, capacity, [], []⟩ : BufferPool D).pinBlock b =
      .ok (⟨d, capacity, [⟨blankId, Page.zeroed, .free, false⟩], []⟩, .error err) := by
  obtain ⟨err, hread⟩ := readPage_refused hb
  refine ⟨err, ?_⟩
  simp [pinBlock, find, loadFrame, acquireFrame, hcap, hread, blankId]

end Effects

end BufferPool

namespace PoolRun

open BufferPool (Sound blocks)

variable {D : Type} [BoundedDevice D] {d : D} {s s' : PoolRun D} {c : PoolCall} {b : BlockId}
  {count : UInt64}

theorem sound_step (hs : Sound count s.pool) (h : s.step c = .ok s') : Sound count s'.pool := by
  obtain ⟨⟨reply, s₁⟩, hcall, h⟩ := bind_eq_ok.mp h
  cases h
  cases c with
  | fetch b =>
    obtain ⟨⟨pool, r⟩, hfetch, hcall⟩ := bind_eq_ok.mp hcall
    cases hcall
    exact hs.effects (hs.fetch_effects hfetch)
  | fetchMut b modify =>
    obtain ⟨⟨pool, r⟩, hfetch, hcall⟩ := bind_eq_ok.mp hcall
    have hs' := hs.effects (hs.fetchMut_effects hfetch)
    cases r with
    | error err =>
      cases hcall
      exact hs'
    | ok idx =>
      obtain ⟨f, _, hcall⟩ := bind_eq_ok.mp hcall
      obtain ⟨pool', hset, hcall⟩ := bind_eq_ok.mp hcall
      cases hcall
      exact hs'.setPage hset
  | unpin b =>
    obtain ⟨pool, hunpin, hcall⟩ := bind_eq_ok.mp hcall
    cases hcall
    exact hs.effects (BufferPool.unpin_effects hunpin)
  | flushAll =>
    obtain ⟨⟨pool, r⟩, hflush, hcall⟩ := bind_eq_ok.mp hcall
    cases hcall
    exact hs.effects (BufferPool.flushAll_effects hflush)

theorem sound_run {pool : BufferPool D} {capacity : Nat} {calls : List PoolCall}
    (hnew : BufferPool.new d capacity = .ok pool)
    (hrun : steps step ⟨pool, content d⟩ calls = .ok s) : Sound (blockCount d) s.pool := by
  obtain rfl := BufferPool.new_eq_ok hnew
  exact steps_preserve (P := fun s : PoolRun D => Sound (blockCount d) s.pool)
    (fun _ _ _ hs h => sound_step hs h) (BufferPool.sound_empty d capacity) hrun

/-- After any run of calls, failed ones included, both forms of fetching refuse a
block that the device in memory does not have, unless it is the largest id and a
frame is blank. -/
theorem out_of_range_refused_iff {d : InMemoryBlockDevice} {pool : BufferPool InMemoryBlockDevice}
    {s : PoolRun InMemoryBlockDevice} {capacity : Nat} {calls : List PoolCall}
    (hnew : BufferPool.new d capacity = .ok pool)
    (hrun : steps step ⟨pool, content d⟩ calls = .ok s) (hb : d.blockCount ≤ b) :
    ((∃ pool' err, s.pool.fetch b = .ok (pool', .error err)) ∧
      ∃ pool' err, s.pool.fetchMut b = .ok (pool', .error err)) ↔
    ¬ (b = blankId ∧ blankId ∈ s.pool.blocks) := by
  have hs := sound_run hnew hrun
  have hrange : ¬ InRange s.pool.device b := by
    rw [InRange, hs.device]
    exact not_lt.mpr hb
  simp only [BufferPool.fetch_refused_iff, BufferPool.fetchMut_refused_iff, and_self]
  exact hs.pinBlock_refused_iff hrange

section Blank

abbrev tiny : InMemoryBlockDevice := InMemoryBlockDevice.new 1

theorem new_tiny : BufferPool.new tiny 1 = .ok ⟨tiny, 1, [], []⟩ := rfl

theorem tiny_refused (b : BlockId) (hb : tiny.blockCount ≤ b) :
    steps step ⟨⟨tiny, 1, [], []⟩, content tiny⟩ [.fetch b] =
      .ok ⟨⟨tiny, 1, [⟨blankId, Page.zeroed, .free, false⟩], []⟩, content tiny⟩ := by
  obtain ⟨err, hpin⟩ := BufferPool.pinBlock_empty_refused (d := tiny) Nat.one_pos (not_lt.mpr hb)
  simp [steps, step, call, BufferPool.fetch_refused_iff.mpr hpin]

/-- Block 5 of a device of one block is refused, and refused again. -/
theorem out_of_range_refused_iff_five :
    ∃ s, steps step ⟨⟨tiny, 1, [], []⟩, content tiny⟩ [.fetch 5] = .ok s ∧
      ((∃ pool' err, s.pool.fetch 5 = .ok (pool', .error err)) ∧
        ∃ pool' err, s.pool.fetchMut 5 = .ok (pool', .error err)) := by
  have hb : tiny.blockCount ≤ 5 := by
    show (1 : UInt64) ≤ 5
    decide
  have hrun := tiny_refused 5 hb
  refine ⟨_, hrun, (out_of_range_refused_iff new_tiny hrun hb).mpr ?_⟩
  rintro ⟨h, _⟩
  exact absurd h (by decide)

/-- The largest id is refused at first and served from the blank frame afterwards. -/
theorem not_out_of_range_refused :
    tiny.blockCount ≤ blankId ∧
      ∃ s, steps step ⟨⟨tiny, 1, [], []⟩, content tiny⟩ [.fetch blankId] = .ok s ∧
        ¬∃ pool' err, s.pool.fetch blankId = .ok (pool', .error err) := by
  have hb : tiny.blockCount ≤ blankId := by
    show (1 : UInt64) ≤ 0xFFFFFFFFFFFFFFFF
    decide
  have hrun := tiny_refused blankId hb
  have hs := sound_run new_tiny hrun
  refine ⟨hb, _, hrun, fun ⟨pool', err, hfetch⟩ => ?_⟩
  refine (hs.pinBlock_refused_iff ?_).mp ⟨pool', err, BufferPool.fetch_refused_iff.mp hfetch⟩ ?_
  · exact not_lt.mpr hb
  · exact ⟨rfl, mem_singleton.mpr rfl⟩

end Blank

end PoolRun

end Oikos.Archon
