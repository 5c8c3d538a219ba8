/-
The storage engine of `tpt-archon-core`: a buffer pool whose page modifications
are first recorded in a write-ahead log.

Pins of the storage engine.  `read_page` leaves its page pinned, `write_page`
does not, so the pinned frames are those of the blocks that have been read; a
run gets stuck exactly when it comes to one more block than there are frames.
-/
import Mathlib.Data.Finset.Card
import Mathlib.Data.Finset.Dedup
import Oikos.Archon.Wal
import Oikos.Archon.PageOps

namespace Oikos.Archon

open List

structure StorageEngine (D : Type) where
  pool : BufferPool D
  wal : Wal

namespace StorageEngine

variable {D : Type} [BlockDevice D]

/-- What a method that takes `&mut self` returns. -/
abbrev Ret (D : Type) (α : Type) := StorageEngine D × Except StorageError α

def new (device : D) (capacity : Nat) : Result Empty (StorageEngine D) := do
  let pool ← BufferPool.new device capacity
  .ok ⟨pool, Wal.new⟩

theorem new_eq_ok {device : D} {capacity : Nat} {e : StorageEngine D}
    (h : new device capacity = .ok e) : e = ⟨⟨device, capacity, [], []⟩, Wal.new⟩ := by
  simp only [new, bind_eq_ok] at h
  obtain ⟨pool, hpool, hres⟩ := h
  obtain rfl := BufferPool.new_eq_ok hpool
  simpa [eq_comm] using hres

def writePage (e : StorageEngine D) (blockId : BlockId) (page : Bytes) :
    Result Empty (Ret D Unit) :=
  if h : page.length = pageSize then do
    let (_, wal) ← e.wal.append .pageWrite blockId page
    let (pool, fetched) ← e.pool.fetchMut blockId
    match fetched with
    | .error err => .ok (⟨pool, wal⟩, .error err)
    | .ok idx =>
      let pool ← pool.setPage idx ⟨page, h⟩
      let pool ← pool.unpin blockId
      .ok (⟨pool, wal⟩, .ok ())
  else .ok (e, .error (.shortWrite page.length pageSize))

def readPage (e : StorageEngine D) (blockId : BlockId) : Result Empty (Ret D Page) := do
  let (pool, page) ← e.pool.fetch blockId
  .ok ({ e with pool := pool }, page)

def commit (e : StorageEngine D) : Result Empty (Ret D Unit) := do
  let (_, wal) ← e.wal.append .commit 0 []
  let (pool, flushed) ← e.pool.flushAll
  .ok (⟨pool, wal⟩, flushed)

/-- Apply a page image to the device; the state also counts the images applied. -/
def applyRecord (s : D × Nat) (record : WalRecord) : D × Nat :=
  if record.kind = .pageWrite ∧ record.payload.length = pageSize then
    match writeBlock s.1 record.blockId record.payload with
    | (device, .ok ()) => (device, s.2 + 1)
    | (device, .error _) => (device, s.2)
  else s

def recover (e : StorageEngine D) (logBytes : Bytes) : Result Empty (Ret D Nat) := do
  let wal ← Wal.fromBytes logBytes
  let ((device, applied), _) ← wal.replay applyRecord (e.pool.device, 0)
  .ok (⟨{ e.pool with device := device }, wal⟩, .ok applied)

end StorageEngine

inductive EngineCall where
  | writePage (b : BlockId) (page : Bytes)
  | readPage (b : BlockId)
  | commit
deriving Repr, DecidableEq

namespace EngineCall

def block : EngineCall → Option BlockId
  | .writePage b _ => some b
  | .readPage b => some b
  | .commit => none

end EngineCall

namespace StorageEngine

variable {D : Type} [BlockDevice D]

def call (e : StorageEngine D) : EngineCall → Result Empty (Ret D Unit)
  | .writePage b page => e.writePage b page
  | .readPage b => do
    let (e, page) ← e.readPage b
    .ok (e, page.map fun _ => ())
  | .commit => e.commit

def calls (e : StorageEngine D) :
    List EngineCall → Result Empty (StorageEngine D × List (Except StorageError Unit))
  | [] => .ok (e, [])
  | c :: cs => do
    let (e, r) ← e.call c
    let (e, rs) ← e.calls cs
    .ok (e, r :: rs)

end StorageEngine

variable {D : Type} [ReliableDevice D] {d : D} {latest : BlockId → Bytes} {b : BlockId}
  {seen : Finset BlockId}

namespace BufferPool

variable {pool pool' : BufferPool D}

/-- The pinned blocks are those of `seen`. -/
def PinsAre (pool : BufferPool D) (seen : Finset BlockId) : Prop :=
  ∀ b, 0 < pinCount pool.frames b ↔ b ∈ seen

theorem mem_blocks_of_pinned {fs : List Frame} (h : 0 < pinCount fs b) :
    b ∈ fs.map Frame.blockId := by
  by_contra hnot
  rw [pinCount_eq_zero hnot] at h
  exact lt_irrefl 0 h

theorem Inv.card_le (h : Inv pool latest) (seen : Finset BlockId)
    (hseen : ∀ b ∈ seen, 0 < pinCount pool.frames b) :
    seen.card ≤ pool.capacity := by
  have hsub : seen ⊆ (pool.frames.map Frame.blockId).toFinset := fun b hb =>
    mem_toFinset.mpr (mem_blocks_of_pinned (hseen b hb))
  calc seen.card ≤ (pool.frames.map Frame.blockId).toFinset.card := Finset.card_le_card hsub
    _ = pool.frames.length := by
      rw [toFinset_card_of_nodup h.cached.distinct, length_map]
    _ ≤ pool.capacity := h.bounded

theorem PinsAre.full (hp : pool.PinsAre seen) (h : Inv pool latest)
    (hall : ∀ f ∈ pool.frames, f.state.isPinned = true) :
    seen = (pool.frames.map Frame.blockId).toFinset := by
  ext b
  rw [← hp b, mem_toFinset]
  refine ⟨mem_blocks_of_pinned, ?_⟩
  intro hb
  obtain ⟨f, hf, rfl⟩ := mem_map.mp hb
  obtain ⟨l, r, hfs⟩ := append_of_mem hf
  have hpos := (h.cached.frame f hf).pins_pos_iff.mpr (hall f hf)
  rw [hfs, pinCount_cut, if_pos rfl]
  exact Nat.add_pos_left hpos _

/-- The pool has a frame for `b`. -/
def Room (capacity : Nat) (seen : Finset BlockId) (b : BlockId) : Prop :=
  seen.card < capacity ∨ b ∈ seen

theorem PinsAre.not_room (hp : pool.PinsAre seen) (h : Inv pool latest)
    (hb : b ∉ pool.frames.map Frame.blockId) (hfull : pool.frames.length = pool.capacity)
    (hall : ∀ f ∈ pool.frames, f.state.isPinned = true) : ¬ Room pool.capacity seen b := by
  have hseen := hp.full h hall
  rintro (hlt | hmem)
  · rw [hseen, toFinset_card_of_nodup h.cached.distinct, length_map, hfull] at hlt
    exact lt_irrefl _ hlt
  · rw [hseen, mem_toFinset] at hmem
    exact hb hmem

theorem PinsAre.room (hp : pool.PinsAre seen) {idx : Nat} (hpin : Pinned pool pool' latest b idx) :
    Room pool.capacity seen b ∧ pool'.PinsAre (insert b seen) := by
  have hafter : pool'.PinsAre (insert b seen) := by
    intro c
    rw [hpin.pins c, Finset.mem_insert]
    by_cases hc : c = b
    · simp [hc]
    · simp [hc, hp c]
  refine ⟨?_, hafter⟩
  by_cases hb : b ∈ seen
  · exact Or.inr hb
  · left
    have hcard := hpin.inv.card_le (insert b seen) fun c hc => (hafter c).mpr hc
    rw [Finset.card_insert_of_notMem hb, hpin.capacity] at hcard
    exact hcard

end BufferPool

namespace StorageEngine

open BufferPool (Room)

variable {e e' : StorageEngine D}

/-- The state of a run: the pool is in order over a device like `d`, and the
blocks read so far are the pinned ones. -/
structure Pins (e : StorageEngine D) (d : D) (capacity : Nat) (seen : Finset BlockId) :
    Prop where
  inv : ∃ latest, e.pool.Inv latest
  blockCount : blockCount e.pool.device = blockCount d
  capacity : e.pool.capacity = capacity
  pins : e.pool.PinsAre seen

def readAfter (seen : Finset BlockId) : EngineCall → Finset BlockId
  | .readPage b => insert b seen
  | _ => seen

def CallRoom (capacity : Nat) (seen : Finset BlockId) : EngineCall → Prop
  | .readPage b => Room capacity seen b
  | .writePage b page => page.length = pageSize → Room capacity seen b
  | .commit => True

theorem Pins.call {capacity : Nat} {c : EngineCall} {r : Except StorageError Unit}
    (h : Pins e d capacity seen) (hc : ∀ b, c.block = some b → InRange d b)
    (hcall : e.call c = .ok (e', r)) :
    (r ≠ .error .allFramesPinned ∧ CallRoom capacity seen c ∧
      Pins e' d capacity (readAfter seen c)) ∨
    (r = .error .allFramesPinned ∧ ¬ CallRoom capacity seen c) := by
  obtain ⟨⟨latest, hinv⟩, hcount, hcap, hpins⟩ := h
  cases c with
  | readPage b =>
    have hb : InRange e.pool.device b := by
      have := hc b rfl
      rwa [InRange, hcount]
    rcases hinv.fetch_cases hb with ⟨hf, _⟩ | ⟨hf, hnot, hfull, hall⟩ |
      ⟨pool, idx, page, hf, hpin, _⟩
    · simp [StorageEngine.call, readPage, hf] at hcall
    · obtain ⟨rfl, rfl⟩ : e = e' ∧ _ = r := by
        simpa [StorageEngine.call, readPage, hf] using hcall
      exact Or.inr ⟨rfl, hcap ▸ hpins.not_room hinv hnot hfull hall⟩
    · obtain ⟨rfl, rfl⟩ : _ = e' ∧ _ = r := by
        simpa [StorageEngine.call, readPage, hf] using hcall
      obtain ⟨hroom, hafter⟩ := hpins.room hpin
      exact Or.inl ⟨by simp [Except.map], hcap ▸ hroom, ⟨latest, hpin.inv⟩,
        hpin.blockCount.trans hcount, hpin.capacity.trans hcap, hafter⟩
  | writePage b page =>
    by_cases hsize : page.length = pageSize
    · have hb : InRange e.pool.device b := by
        have := hc b rfl
        rwa [InRange, hcount]
      simp only [StorageEngine.call, writePage, dif_pos hsize, bind_eq_ok] at hcall
      obtain ⟨⟨lsn, wal⟩, _, hcall⟩ := hcall
      rcases hinv.fetchMut_cases hb with ⟨hf, _⟩ | ⟨hf, hnot, hfull, hall⟩ |
        ⟨pool, l, f, tl, hf, hpin, hfs, rfl, hintent, _⟩
      · simp [hf] at hcall
      · obtain ⟨_, rfl⟩ : _ = e' ∧ _ = r := by simpa [hf] using hcall
        exact Or.inr ⟨rfl, fun hroom => hpins.not_room hinv hnot hfull hall (hcap ▸ hroom hsize)⟩
      · obtain ⟨hroom, hafter⟩ := hpins.room hpin
        have hinv' := hpin.inv.setPage hfs hintent ⟨page, hsize⟩
        obtain ⟨pool₂, hun, hinv₂, _, hpins₂, hdev₂, hcap₂⟩ := hinv'.unpin_spec f.blockId
        obtain ⟨rfl, rfl⟩ : _ = e' ∧ _ = r := by
          simpa [hf, BufferPool.setPage, BufferPool.index_cut hfs, BufferPool.setFrame_cut hfs,
            hun] using hcall
        refine Or.inl ⟨by simp, fun _ => hcap ▸ hroom, ⟨_, hinv₂⟩, ?_, ?_, ?_⟩
        · rw [hdev₂]
          exact hpin.blockCount.trans hcount
        · exact hcap₂.trans (hpin.capacity.trans hcap)
        · -- the pin taken for writing is released again
          intro c
          have hcount' : pinCount (l ++ { f with page := ⟨page, hsize⟩ } :: tl) c =
              pinCount pool.frames c := by
            rw [hfs, pinCount_cut, pinCount_cut]
            rfl
          rw [hpins₂ c]
          simp only [readAfter]
          rw [hcount', hpin.pins c, Nat.add_sub_cancel]
          exact hpins c
    · obtain ⟨rfl, rfl⟩ : e = e' ∧ _ = r := by
        simpa [StorageEngine.call, writePage, hsize] using hcall
      exact Or.inl ⟨by simp, fun h => absurd h hsize, ⟨latest, hinv⟩, hcount, hcap, hpins⟩
  | commit =>
    obtain ⟨pool, hf, hinv', _, _, hpins', hcount', hcap'⟩ := hinv.flushAll_spec
    simp only [StorageEngine.call, commit, bind_eq_ok] at hcall
    obtain ⟨⟨lsn, wal⟩, _, ⟨pool₁, flushed⟩, hf₁, hrest⟩ := hcall
    obtain ⟨rfl, rfl⟩ : pool = pool₁ ∧ .ok () = flushed := by
      have heq := hf.symm.trans hf₁
      simpa using heq
    obtain ⟨rfl, rfl⟩ : _ = e' ∧ _ = r := by simpa using hrest
    refine Or.inl ⟨by simp, trivial, ⟨latest, hinv'⟩, hcount'.trans hcount, hcap'.trans hcap, ?_⟩
    intro b
    rw [hpins' b]
    exact hpins b

def Roomy (capacity : Nat) : Finset BlockId → List EngineCall → Prop
  | _, [] => True
  | seen, c :: cs => CallRoom capacity seen c ∧ Roomy capacity (readAfter seen c) cs

variable {capacity : Nat}

theorem Pins.calls {cs : List EngineCall} {rs : List (Except StorageError Unit)}
    (h : Pins e d capacity seen) (hcs : ∀ c ∈ cs, ∀ b, c.block = some b → InRange d b)
    (hrun : e.calls cs = .ok (e', rs)) :
    .error .allFramesPinned ∉ rs ↔ Roomy capacity seen cs := by
  induction cs generalizing e seen rs with
  | nil =>
    obtain ⟨_, rfl⟩ : e = e' ∧ [] = rs := by simpa [StorageEngine.calls] using hrun
    simp [Roomy]
  | cons c cs ih =>
    simp only [StorageEngine.calls, bind_eq_ok] at hrun
    obtain ⟨⟨e₁, r⟩, hcall, ⟨e₂, rs'⟩, hrest, hres⟩ := hrun
    obtain ⟨rfl, rfl⟩ : e₂ = e' ∧ r :: rs' = rs := by simpa using hres
    rcases h.call (hcs c mem_cons_self) hcall with ⟨hr, hroom, h₁⟩ | ⟨hr, hroom⟩
    · have hiff := ih h₁ (fun x hx => hcs x (mem_cons_of_mem c hx)) hrest
      simp only [Roomy, hroom, true_and, mem_cons, Ne.symm hr, false_or]
      exact hiff
    · simp [Roomy, hroom, hr]

theorem pins_new (hnew : StorageEngine.new d capacity = .ok e) : Pins e d capacity ∅ := by
  obtain rfl := new_eq_ok hnew
  exact ⟨⟨_, BufferPool.inv_empty d capacity⟩, rfl, rfl, fun b => by simp [pinCount]⟩

theorem Pins.readPage_returns (h : Pins e d capacity seen) (hb : InRange d b)
    (hnew : b ∉ seen) : ∃ e' r, e.call (.readPage b) = .ok (e', r) := by
  obtain ⟨⟨latest, hinv⟩, hcount, _, hpins⟩ := h
  have hb' : InRange e.pool.device b := by rwa [InRange, hcount]
  have hzero : pinCount e.pool.frames b = 0 :=
    Nat.eq_zero_of_not_pos fun hpos => hnew ((hpins b).mp hpos)
  rcases hinv.fetch_cases hb' with ⟨_, hlim⟩ | ⟨hf, _⟩ | ⟨pool, idx, page, hf, _⟩
  · rw [hzero] at hlim
    exact absurd hlim (by decide)
  · simp [StorageEngine.call, readPage, hf]
  · simp [StorageEngine.call, readPage, hf]

/-- A run on an engine never runs out of frames if and only if each call that
needs a frame finds room for its block. -/
theorem never_wedged_iff {cs : List EngineCall}
    {rs : List (Except StorageError Unit)} (hnew : StorageEngine.new d capacity = .ok e)
    (hcs : ∀ c ∈ cs, ∀ b, c.block = some b → InRange d b) (hrun : e.calls cs = .ok (e', rs)) :
    .error .allFramesPinned ∉ rs ↔ Roomy capacity ∅ cs :=
  (pins_new hnew).calls hcs hrun

section Wedge

abbrev twoBlocks : InMemoryBlockDevice := InMemoryBlockDevice.new 2

theorem twoBlocks_inRange_zero : InRange twoBlocks 0 := by
  show (0 : UInt64) < 2
  decide

theorem twoBlocks_inRange_one : InRange twoBlocks 1 := by
  show (1 : UInt64) < 2
  decide

/-- One frame is enough to read one block. -/
theorem never_wedged_iff_one_read :
    ∃ e e' rs, StorageEngine.new twoBlocks 1 = .ok e ∧ e.calls [.readPage 0] = .ok (e', rs) ∧
      (.error .allFramesPinned ∉ rs ↔ Roomy 1 ∅ [.readPage 0]) ∧ Roomy 1 ∅ [.readPage 0] := by
  have hnew : StorageEngine.new twoBlocks 1 = .ok ⟨⟨twoBlocks, 1, [], []⟩, Wal.new⟩ := rfl
  obtain ⟨e', r, hcall⟩ := (pins_new hnew).readPage_returns twoBlocks_inRange_zero (by simp)
  have hrun : StorageEngine.calls ⟨⟨twoBlocks, 1, [], []⟩, Wal.new⟩ [.readPage 0] =
      .ok (e', [r]) := by
    simp [StorageEngine.calls, hcall]
  refine ⟨_, e', [r], hnew, hrun, never_wedged_iff hnew ?_ hrun, by simp [Roomy, CallRoom, Room]⟩
  intro c hc b hb
  obtain rfl := mem_singleton.mp hc
  obtain rfl : 0 = b := Option.some.inj hb
  exact twoBlocks_inRange_zero

/-- With one frame, reading two blocks one after the other fails: the first read
leaves its page pinned. -/
theorem wedged_by_two_reads :
    ∃ e e' rs, StorageEngine.new twoBlocks 1 = .ok e ∧
      e.calls [.readPage 0, .readPage 1] = .ok (e', rs) ∧ .error .allFramesPinned ∈ rs := by
  have hnew : StorageEngine.new twoBlocks 1 = .ok ⟨⟨twoBlocks, 1, [], []⟩, Wal.new⟩ := rfl
  have h₀ := pins_new hnew
  obtain ⟨e₁, r₁, hcall₁⟩ := h₀.readPage_returns twoBlocks_inRange_zero (by simp)
  rcases h₀.call (by rintro b ⟨⟩; exact twoBlocks_inRange_zero) hcall₁ with
    ⟨_, _, h₁⟩ | ⟨_, hroom⟩
  · obtain ⟨e₂, r₂, hcall₂⟩ := h₁.readPage_returns twoBlocks_inRange_one (by simp [readAfter])
    refine ⟨_, e₂, [r₁, r₂], hnew, by simp [StorageEngine.calls, hcall₁, hcall₂], ?_⟩
    rcases h₁.call (by rintro b ⟨⟩; exact twoBlocks_inRange_one) hcall₂ with
      ⟨_, hroom, _⟩ | ⟨hr, _⟩
    · simp [CallRoom, Room, readAfter] at hroom
    · simp [hr]
  · simp [CallRoom, Room] at hroom

end Wedge

end StorageEngine

end Oikos.Archon
