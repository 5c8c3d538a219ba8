/-
The buffer pool of `tpt-archon-core`: a bounded number of page frames over a block device,
with pins, write-back of modified frames and eviction of the least recently used frame that
is not pinned.  A call panics or returns the pool together with its Rust result; an error
does not undo what the call has done before.
-/
import Oikos.Archon.BTree
import Oikos.Lib.Bits

namespace Oikos.Archon

open List

/-- Identifies a block of a device. -/
abbrev BlockId := UInt64

inductive StorageError where
  | outOfBounds (blockId : BlockId) (blockCount : UInt64)
  | shortRead (got expected : Nat)
  | shortWrite (got expected : Nat)
  | io (kind : UInt8)
  | syncFailed
  | allFramesPinned
deriving Repr, DecidableEq

def pageSize : Nat := 4096

/-- A fixed-block-size storage backend.  Reading fills a buffer, whose length it
cannot change. -/
class BlockDevice (D : Type) where
  blockSize (D) : Nat
  readBlock : D → BlockId → Bytes → Except StorageError Bytes
  writeBlock : D → BlockId → Bytes → D × Except StorageError Unit
  sync : D → D × Except StorageError Unit
  blockCount : D → UInt64
  readBlock_length {d : D} {id : BlockId} {buffer out : Bytes} :
    readBlock d id buffer = .ok out → out.length = buffer.length

export BlockDevice (readBlock writeBlock blockCount)

def InRange {D : Type} [BlockDevice D] (d : D) (id : BlockId) : Prop :=
  id < blockCount d

/-- A device of page-sized blocks that remembers what is written to it and fails
only outside its range. -/
class ReliableDevice (D : Type) extends BlockDevice D where
  content : D → BlockId → Bytes
  blockSize_eq : BlockDevice.blockSize D = pageSize
  content_size {d : D} {id : BlockId} : InRange d id → (content d id).length = pageSize
  read_ok {d : D} {id : BlockId} {buffer : Bytes} : InRange d id → buffer.length = pageSize →
    readBlock d id buffer = .ok (content d id)
  write_ok {d : D} {id : BlockId} {data : Bytes} : InRange d id → data.length = pageSize →
    ∃ d', writeBlock d id data = (d', .ok ()) ∧ blockCount d' = blockCount d ∧
      ∀ b, content d' b = if b = id then data else content d b
  write_err {d : D} {id : BlockId} {data : Bytes} : ¬ InRange d id →
    ∃ e, writeBlock d id data = (d, .error e)
  sync_ok (d : D) : ∃ d', BlockDevice.sync d = (d', .ok ()) ∧ blockCount d' = blockCount d ∧
    ∀ b, content d' b = content d b

export ReliableDevice (content)

/-! ### The device in memory -/

/-- A device backed by one contiguous buffer. -/
structure InMemoryBlockDevice where
  blocks : Bytes
  blockCount : UInt64
  size : blocks.length = blockCount.toNat * pageSize
deriving Repr, DecidableEq

namespace InMemoryBlockDevice

def new (blockCount : UInt64) : InMemoryBlockDevice :=
  ⟨List.replicate (blockCount.toNat * pageSize) 0, blockCount, List.length_replicate⟩

def start (id : BlockId) : Nat :=
  id.toNat * pageSize

def slice (d : InMemoryBlockDevice) (id : BlockId) : Bytes :=
  (d.blocks.drop (start id)).take pageSize

theorem start_add_le (d : InMemoryBlockDevice) {id : BlockId} (h : id < d.blockCount) :
    start id + pageSize ≤ d.blocks.length := by
  rw [d.size, start, ← Nat.succ_mul]
  exact Nat.mul_le_mul_right _ (UInt64.lt_iff_toNat_lt.mp h)

theorem length_slice (d : InMemoryBlockDevice) {id : BlockId} (h : id < d.blockCount) :
    (d.slice id).length = pageSize := by
  have := d.start_add_le h
  rw [slice, length_take, length_drop]
  omega

def patch (d : InMemoryBlockDevice) (id : BlockId) (data : Bytes) (hid : id < d.blockCount)
    (hdata : data.length = pageSize) : InMemoryBlockDevice where
  blocks := d.blocks.take (start id) ++ data ++ d.blocks.drop (start id + pageSize)
  blockCount := d.blockCount
  size := by
    have := d.start_add_le hid
    rw [← d.size]
    simp only [List.length_append, List.length_take, List.length_drop, hdata]
    omega

instance : BlockDevice InMemoryBlockDevice where
  blockSize := pageSize
  readBlock d id buffer :=
    if buffer.length ≠ pageSize then .error (.shortRead buffer.length pageSize)
    else if id ≥ d.blockCount then .error (.outOfBounds id d.blockCount)
    else .ok (d.slice id)
  writeBlock d id data :=
    if hdata : data.length = pageSize then
      if hid : id < d.blockCount then (d.patch id data hid hdata, .ok ())
      else (d, .error (.outOfBounds id d.blockCount))
    else (d, .error (.shortWrite data.length pageSize))
  sync d := (d, .ok ())
  blockCount := InMemoryBlockDevice.blockCount
  readBlock_length {d id buffer out} h := by
    by_cases hb : buffer.length = pageSize
    · by_cases hid : d.blockCount ≤ id
      · simp [hb, hid] at h
      · obtain rfl : d.slice id = out := by simpa [hb, hid] using h
        rw [hb, d.length_slice (not_le.mp hid)]
    · simp [hb] at h

theorem start_apart {a b : BlockId} (h : a ≠ b) :
    start a + pageSize ≤ start b ∨ start b + pageSize ≤ start a := by
  have hne : a.toNat ≠ b.toNat := fun heq => h (UInt64.toNat_inj.mp heq)
  simp only [start, ← Nat.succ_mul]
  rcases Nat.lt_or_gt_of_ne hne with hlt | hlt
  · exact Or.inl (Nat.mul_le_mul_right _ hlt)
  · exact Or.inr (Nat.mul_le_mul_right _ hlt)

theorem slice_patch (d : InMemoryBlockDevice) {id : BlockId} {data : Bytes}
    (hid : id < d.blockCount) (hdata : data.length = pageSize) (b : BlockId) :
    (d.patch id data hid hdata).slice b = if b = id then data else d.slice b := by
  have hle := d.start_add_le hid
  have htake : (d.blocks.take (start id)).length = start id :=
    length_take_of_le (by omega)
  have hblocks : (d.patch id data hid hdata).blocks =
      d.blocks.take (start id) ++ (data ++ d.blocks.drop (start id + pageSize)) :=
    append_assoc _ _ _
  rw [slice, hblocks]
  by_cases hb : b = id
  · subst hb
    rw [if_pos rfl, drop_left' htake, ← hdata, take_left]
  · rw [if_neg hb, slice]
    apply ext_getElem?
    intro i
    by_cases hi : i < pageSize
    · rw [getElem?_take_of_lt hi, getElem?_take_of_lt hi, getElem?_drop,
        getElem?_drop]
      rcases start_apart hb with hlt | hlt
      · rw [getElem?_append_left (by omega), getElem?_take_of_lt (by omega)]
      · rw [getElem?_append_right (by omega), getElem?_append_right (by omega),
          getElem?_drop, htake, hdata]
        have hidx : start id + pageSize + (start b + i - start id - pageSize) = start b + i := by
          omega
        rw [hidx]
    · rw [getElem?_take_eq_none (by omega), getElem?_take_eq_none (by omega)]

instance : ReliableDevice InMemoryBlockDevice where
  content := slice
  blockSize_eq := rfl
  content_size {d _} h := d.length_slice h
  read_ok {d id buffer} hid hbuf := by
    have hnot : ¬ d.blockCount ≤ id := not_le.mpr hid
    simp [readBlock, hbuf, hnot]
  write_ok {d id data} hid hdata := by
    have hid' : id < d.blockCount := hid
    exact ⟨d.patch id data hid' hdata, by simp [writeBlock, hdata, hid'], rfl,
      d.slice_patch hid' hdata⟩
  write_err {d id data} hid := by
    have hid' : ¬ id < d.blockCount := hid
    by_cases hdata : data.length = pageSize
    · exact ⟨.outOfBounds id d.blockCount, by simp [writeBlock, hdata, hid']⟩
    · exact ⟨.shortWrite data.length pageSize, by simp [writeBlock, hdata]⟩
  sync_ok d := ⟨d, rfl, rfl, fun _ => rfl⟩

end InMemoryBlockDevice

/-- The lifecycle of a frame; a pinned frame carries its pin count. -/
inductive PageState where
  | free
  | clean
  | dirty
  | pinned (count : Nat)
deriving Repr, DecidableEq

namespace PageState

/-- `matches!(state, PageState::Pinned(_))`. -/
def isPinned : PageState → Bool
  | .pinned _ => true
  | _ => false

end PageState

structure Page where
  bytes : Bytes
  size : bytes.length = pageSize
deriving Repr, DecidableEq

namespace Page

def zeroed : Page :=
  ⟨List.replicate pageSize 0, List.length_replicate⟩

end Page

/-- A frame.  `dirtyIntent` decides whether it becomes dirty or clean when the
last pin is released. -/
structure Frame where
  blockId : BlockId
  page : Page
  state : PageState
  dirtyIntent : Bool
deriving Repr, DecidableEq

/-- The pool; `lru` lists frame indices, least recently used first. -/
structure BufferPool (D : Type) where
  device : D
  capacity : Nat
  frames : List Frame
  lru : List Nat

namespace BufferPool

variable {D : Type} [BlockDevice D]

/-- What a method that takes `&mut self` returns. -/
abbrev Ret (D : Type) (α : Type) := BufferPool D × Except StorageError α

def new (device : D) (capacity : Nat) : Result Empty (BufferPool D) :=
  if capacity = 0 then .error .panic
  else if BlockDevice.blockSize D ≠ pageSize then .error .panic
  else .ok ⟨device, capacity, [], []⟩

theorem new_eq_ok {device : D} {capacity : Nat} {pool : BufferPool D}
    (h : new device capacity = .ok pool) : pool = ⟨device, capacity, [], []⟩ := by
  unfold new at h
  split at h
  · cases h
  · split at h
    · cases h
    · simpa [eq_comm] using h

/-- The index of the frame that holds `blockId`. -/
def find (pool : BufferPool D) (blockId : BlockId) : Option Nat :=
  pool.frames.findIdx? fun f => f.blockId == blockId

/-- Make a frame the most recently used one. -/
def touch (pool : BufferPool D) (idx : Nat) : BufferPool D :=
  { pool with lru := pool.lru.erase idx ++ [idx] }

/-- Assign to `frames[idx]`. -/
def setFrame (pool : BufferPool D) (idx : Nat) (f : Frame) : Result Empty (BufferPool D) := do
  let frames ← setAt pool.frames idx f
  .ok { pool with frames := frames }

def readPage (d : D) (id : BlockId) : Except StorageError Page :=
  match h : readBlock d id Page.zeroed.bytes with
  | .ok out => .ok ⟨out, (BlockDevice.readBlock_length h).trans Page.zeroed.size⟩
  | .error e => .error e

def firstUnpinned (frames : List Frame) : List Nat → Result Empty (Option Nat)
  | [] => .ok none
  | i :: rest => do
    let f ← index frames i
    if f.state.isPinned then firstUnpinned frames rest else .ok (some i)

/-- Free the least recently used frame that is not pinned, after writing it back
if it is dirty. -/
def evict (pool : BufferPool D) : Result Empty (Ret D (Option Nat)) := do
  match ← firstUnpinned pool.frames pool.lru with
  | none => .ok (pool, .ok none)
  | some idx =>
    let f ← index pool.frames idx
    let (device, written) :=
      if f.state = .dirty then writeBlock pool.device f.blockId f.page.bytes
      else (pool.device, .ok ())
    let pool := { pool with device := device }
    match written with
    | .error e => .ok (pool, .error e)
    | .ok () =>
      let pool := { pool with lru := pool.lru.erase idx }
      let pool ← pool.setFrame idx { f with state := .free, dirtyIntent := false }
      .ok (pool, .ok (some idx))

/-- Add a pin; the count is a 32-bit number. -/
def pinFrame (pool : BufferPool D) (idx : Nat) : Result Empty (BufferPool D) := do
  let f ← index pool.frames idx
  match f.state with
  | .pinned n =>
    if n + 1 < 2 ^ 32 then pool.setFrame idx { f with state := .pinned (n + 1) }
    else .error .panic
  | _ => pool.setFrame idx { f with state := .pinned 1 }

def acquireFrame (pool : BufferPool D) : Result Empty (Ret D Nat) := do
  match pool.frames.findIdx? fun f => f.state == .free with
  | some idx => .ok (pool, .ok idx)
  | none =>
    if pool.frames.length < pool.capacity then
      let blank : Frame := ⟨0xFFFFFFFFFFFFFFFF, Page.zeroed, .free, false⟩
      .ok ({ pool with frames := pool.frames ++ [blank] }, .ok pool.frames.length)
    else
      let (pool, evicted) ← pool.evict
      match evicted with
      | .error e => .ok (pool, .error e)
      | .ok (some idx) => .ok (pool, .ok idx)
      | .ok none => .ok (pool, .error .allFramesPinned)

def loadFrame (pool : BufferPool D) (blockId : BlockId) : Result Empty (Ret D Nat) := do
  let (pool, acquired) ← pool.acquireFrame
  match acquired with
  | .error e => .ok (pool, .error e)
  | .ok idx =>
    match readPage pool.device blockId with
    | .error e => .ok (pool, .error e)
    | .ok page =>
      let pool ← pool.setFrame idx ⟨blockId, page, .pinned 1, false⟩
      .ok (pool, .ok idx)

def pinBlock (pool : BufferPool D) (blockId : BlockId) : Result Empty (Ret D Nat) := do
  match pool.find blockId with
  | some idx =>
    let pool ← pool.pinFrame idx
    .ok (pool, .ok idx)
  | none => pool.loadFrame blockId

def fetch (pool : BufferPool D) (blockId : BlockId) : Result Empty (Ret D Page) := do
  let (pool, pinned) ← pool.pinBlock blockId
  match pinned with
  | .error e => .ok (pool, .error e)
  | .ok idx =>
    let pool := pool.touch idx
    let f ← index pool.frames idx
    .ok (pool, .ok f.page)

def fetchMut (pool : BufferPool D) (blockId : BlockId) : Result Empty (Ret D Nat) := do
  let (pool, pinned) ← pool.pinBlock blockId
  match pinned with
  | .error e => .ok (pool, .error e)
  | .ok idx =>
    let pool := pool.touch idx
    let f ← index pool.frames idx
    let pool ← pool.setFrame idx { f with dirtyIntent := true }
    .ok (pool, .ok idx)

/-- Assign to the page of a frame, as the caller of `fetch_mut` may do. -/
def setPage (pool : BufferPool D) (idx : Nat) (page : Page) : Result Empty (BufferPool D) := do
  let f ← index pool.frames idx
  pool.setFrame idx { f with page := page }

/-- Release one pin. -/
def unpin (pool : BufferPool D) (blockId : BlockId) : Result Empty (BufferPool D) := do
  match pool.find blockId with
  | none => .ok pool
  | some idx =>
    let f ← index pool.frames idx
    match f.state with
    | .pinned n =>
      if n > 1 then pool.setFrame idx { f with state := .pinned (n - 1) }
      else if f.dirtyIntent then pool.setFrame idx { f with state := .dirty }
      else pool.setFrame idx { f with state := .clean }
    | _ => .ok pool

def flushFrame (pool : BufferPool D) (idx : Nat) : Result Empty (Ret D Unit) := do
  let f ← index pool.frames idx
  if f.state = .dirty ∨ (f.dirtyIntent = true ∧ f.state.isPinned = true) then
    let (device, written) := writeBlock pool.device f.blockId f.page.bytes
    let pool := { pool with device := device }
    match written with
    | .error e => .ok (pool, .error e)
    | .ok () =>
      let state := if f.state = .dirty then .clean else f.state
      let pool ← pool.setFrame idx { f with state := state, dirtyIntent := false }
      .ok (pool, .ok ())
  else .ok (pool, .ok ())

/-- Write back the frames with the given indices, up to the first failure. -/
def flushFrames (pool : BufferPool D) : List Nat → Result Empty (Ret D Unit)
  | [] => .ok (pool, .ok ())
  | idx :: rest => do
    let (pool, flushed) ← pool.flushFrame idx
    match flushed with
    | .error e => .ok (pool, .error e)
    | .ok () => pool.flushFrames rest

def flushAll (pool : BufferPool D) : Result Empty (Ret D Unit) := do
  let (pool, flushed) ← pool.flushFrames (List.range pool.frames.length)
  match flushed with
  | .error e => .ok (pool, .error e)
  | .ok () =>
    let (device, synced) := BlockDevice.sync pool.device
    .ok ({ pool with device := device }, synced)

end BufferPool

end Oikos.Archon
