/-
Page writes that the storage engine refuses.  The page image is logged before
the buffer pool is asked for a frame, so only a page of the wrong length is
refused without a trace.

Recovery with pages in the pool.  `recover` writes to the device and leaves the
frames alone, so a block that a frame carries is served from that frame, and
written back from it if it is modified.
-/
import Oikos.Archon.PageBounds
import Oikos.Archon.StorageRecovery
import Oikos.Archon.WalCanonical

namespace Oikos.Archon

open List

inductive EngineOp where
  | call (c : EngineCall)
  | recover (log : Bytes)
deriving Repr, DecidableEq

namespace StorageEngine

variable {D : Type} [BlockDevice D] {e e' : StorageEngine D} {b : BlockId} {page : Bytes}

/-- One step of a run; its result is not kept. -/
def op (e : StorageEngine D) : EngineOp → Result Empty (StorageEngine D)
  | .call c => do
    let (e, _) ← e.call c
    .ok e
  | .recover log => do
    let (e, _) ← e.recover log
    .ok e

/-- A run of calls and recoveries. -/
def ops : StorageEngine D → List EngineOp → Result Empty (StorageEngine D) :=
  steps op

/-- What `read_page` returns after a run. -/
def readAfterOps (e : StorageEngine D) (later : List EngineOp) (b : BlockId) :
    Result Empty (Except StorageError Page) := do
  let e ← e.ops later
  let (_, page) ← e.readPage b
  .ok page

/-- The engine `fresh` recovered from what survives of the log after a run. -/
def recoverAfterOps (e : StorageEngine D) (later : List EngineOp) (n : Nat)
    (fresh : StorageEngine D) : Result Empty (Ret D Nat) := do
  let e ← e.ops later
  fresh.recover (e.wal.bytes.take n)

/-- The engine `e'` is as if the call that led to it from `e` had not been made: in
its log, in every page read later and in every recovery from a later log. -/
structure NoTrace (e e' : StorageEngine D) : Prop where
  log : e'.wal.bytes = e.wal.bytes
  reads : ∀ later b, e'.readAfterOps later b = e.readAfterOps later b
  recoveries : ∀ later n fresh, e'.recoverAfterOps later n fresh = e.recoverAfterOps later n fresh

theorem noTrace_refl (e : StorageEngine D) : NoTrace e e :=
  ⟨rfl, fun _ _ => rfl, fun _ _ _ => rfl⟩

theorem bytes_append {wal wal' : Wal} {kind : RecordKind} {lsn : UInt64}
    (h : wal.append kind b page = .ok (lsn, wal')) :
    wal'.bytes = wal.bytes ++ (⟨wal.nextLsn, kind, b, page⟩ : WalRecord).frame := by
  simp only [Wal.append, WalRecord.encode_replicate, bind_eq_ok] at h
  obtain ⟨next, _, h⟩ := h
  cases h
  rw [← WalRecord.length_frame, take_length]

theorem writePage_logged {r : Except StorageError Unit} (hsize : page.length = pageSize)
    (h : e.writePage b page = .ok (e', r)) :
    e'.wal.bytes = e.wal.bytes ++ (⟨e.wal.nextLsn, .pageWrite, b, page⟩ : WalRecord).frame := by
  simp only [writePage, dif_pos hsize, bind_eq_ok] at h
  obtain ⟨⟨lsn, wal⟩, happend, ⟨pool, fetched⟩, _, h⟩ := h
  have hlog := bytes_append happend
  cases fetched with
  | error err =>
    cases h
    exact hlog
  | ok idx =>
    obtain ⟨_, _, h⟩ := bind_eq_ok.mp h
    obtain ⟨_, _, h⟩ := bind_eq_ok.mp h
    cases h
    exact hlog

theorem not_noTrace_of_logged {record : WalRecord}
    (h : e'.wal.bytes = e.wal.bytes ++ record.frame) : ¬ NoTrace e e' := by
  intro htrace
  have hlen := congrArg length (h.symm.trans htrace.log)
  rw [length_append, WalRecord.length_frame, WalRecord.encodedLen] at hlen
  omega

/-- A refused page write leaves no trace exactly when the page has the wrong
length. -/
theorem rejected_noTrace_iff {err : StorageError} (h : e.writePage b page = .ok (e', .error err)) :
    NoTrace e e' ↔ page.length ≠ pageSize := by
  constructor
  · intro htrace hsize
    exact not_noTrace_of_logged (writePage_logged hsize h) htrace
  · intro hsize
    rw [writePage, dif_neg hsize] at h
    cases h
    exact noTrace_refl e

/-- An empty page is refused by its length. -/
theorem rejected_noTrace_iff_empty :
    ∃ e' err, (⟨⟨InMemoryBlockDevice.new 1, 1, [], []⟩, Wal.new⟩ :
        StorageEngine InMemoryBlockDevice).writePage 0 [] = .ok (e', .error err) ∧
      (NoTrace ⟨⟨InMemoryBlockDevice.new 1, 1, [], []⟩, Wal.new⟩ e' ↔
        ([] : Bytes).length ≠ pageSize) := by
  have h : (⟨⟨InMemoryBlockDevice.new 1, 1, [], []⟩, Wal.new⟩ :
      StorageEngine InMemoryBlockDevice).writePage 0 [] =
        .ok (⟨⟨InMemoryBlockDevice.new 1, 1, [], []⟩, Wal.new⟩, .error (.shortWrite 0 pageSize)) :=
    rfl
  exact ⟨_, _, h, rejected_noTrace_iff h⟩

/-- A write to block 5 of a device of one block is refused and logged. -/
theorem rejected_leaves_trace :
    let e : StorageEngine InMemoryBlockDevice := ⟨⟨InMemoryBlockDevice.new 1, 1, [], []⟩, Wal.new⟩
    ∃ e' err, e.writePage 5 Page.zeroed.bytes = .ok (e', .error err) ∧ ¬NoTrace e e' := by
  have hsize : Page.zeroed.bytes.length = pageSize := Page.zeroed.size
  have hrange : ¬ InRange (InMemoryBlockDevice.new 1) 5 := by
    show ¬ (5 : UInt64) < 1
    decide
  obtain ⟨err, hpin⟩ := BufferPool.pinBlock_empty_refused (d := InMemoryBlockDevice.new 1)
    Nat.one_pos hrange
  have hfetch := BufferPool.fetchMut_refused_iff.mpr hpin
  obtain ⟨lsn, wal, happend⟩ : ∃ lsn wal, Wal.new.append .pageWrite 5 Page.zeroed.bytes =
      .ok (lsn, wal) := by
    simp [Wal.append, WalRecord.encode_replicate, checkedSucc, Wal.new]
  have hwrite : (⟨⟨InMemoryBlockDevice.new 1, 1, [], []⟩, Wal.new⟩ :
      StorageEngine InMemoryBlockDevice).writePage 5 Page.zeroed.bytes =
        .ok (⟨⟨InMemoryBlockDevice.new 1, 1, [⟨blankId, Page.zeroed, .free, false⟩], []⟩, wal⟩,
          .error err) := by
    simp only [writePage, dif_pos hsize, happend, hfetch, ok_bind]
  exact ⟨_, err, hwrite, not_noTrace_of_logged (writePage_logged hsize hwrite)⟩

end StorageEngine

namespace BufferPool

variable {D : Type} [BoundedDevice D] {pool pool' : BufferPool D} {b : BlockId} {p : Bytes}
  {count : UInt64}

/-- The device has the bytes `p` at block `b`, and so has every frame that carries
the block. -/
structure Holds (b : BlockId) (p : Bytes) (pool : BufferPool D) : Prop where
  device : content pool.device b = p
  frames : ∀ f ∈ pool.frames, f.blockId = b → f.page.bytes = p

/-- Neither eviction nor flushing changes a block that is held. -/
theorem Effect.holds (h : Effect pool pool') (hb : b ≠ blankId) (hp : Holds b p pool) :
    Holds b p pool' := by
  cases h with
  | @restate l r x y hfs hid hpage =>
    have hframes := hp.frames
    rw [hfs] at hframes
    refine ⟨hp.device, fun f hf hfb => ?_⟩
    rcases mem_append.mp hf with hf | hf
    · exact hframes f (mem_append_left _ hf) hfb
    · rcases mem_cons.mp hf with rfl | hf
      · rw [hpage]
        exact hframes x (by simp) (hid.symm.trans hfb)
      · exact hframes f (mem_append_right _ (mem_cons_of_mem _ hf)) hfb
  | reorder _ => exact ⟨hp.device, hp.frames⟩
  | @writeBack f device hf _ _ hcontent =>
    refine ⟨?_, hp.frames⟩
    rw [hcontent]
    split
    · next hid => exact hp.frames f hf hid.symm
    · exact hp.device
  | sync _ hcontent => exact ⟨(hcontent b).trans hp.device, hp.frames⟩
  | @grow g hid =>
    refine ⟨hp.device, fun f hf hfb => ?_⟩
    rcases mem_append.mp hf with hf | hf
    · exact hp.frames f hf hfb
    · rw [mem_singleton.mp hf, hid] at hfb
      exact absurd hfb.symm hb
  | @load l r x g hfs _ _ hpage =>
    have hframes := hp.frames
    rw [hfs] at hframes
    refine ⟨hp.device, fun f hf hfb => ?_⟩
    rcases mem_append.mp hf with hf | hf
    · exact hframes f (mem_append_left _ hf) hfb
    · rcases mem_cons.mp hf with rfl | hf
      · rw [hpage, hfb]
        exact hp.device
      · exact hframes f (mem_append_right _ (mem_cons_of_mem _ hf)) hfb

theorem Holds.effects (hp : Holds b p pool) (h : Effects pool pool') (hb : b ≠ blankId) :
    Holds b p pool' :=
  h.preserve (fun _ _ hp h => h.holds hb hp) hp

/-- What must be so before a recovery for block `b` to be served as `p` after it: a
frame that carries the block has these bytes and a pin to spare, and if none does
there is a frame to load the block into. -/
structure Coherent (pool : BufferPool D) (b : BlockId) (p : Bytes) : Prop where
  size : p.length = pageSize
  resident : ∀ f ∈ pool.frames, f.blockId = b → f.page.bytes = p ∧ f.pins + 1 < 2 ^ 32
  absent : b ∉ pool.blocks → CanLoad pool

theorem coherent_congr {d : D} (hcount : blockCount d = blockCount pool.device) :
    Coherent { pool with device := d } b p ↔ Coherent pool b p := by
  have hcan : CanLoad { pool with device := d } ↔ CanLoad pool := by
    simp only [CanLoad, InRange, hcount]
  constructor
  · exact fun h => ⟨h.size, h.resident, fun hnew => hcan.mp (h.absent hnew)⟩
  · exact fun h => ⟨h.size, h.resident, fun hnew => hcan.mpr (h.absent hnew)⟩

theorem Sound.eq_of_blockId (hs : Sound count pool) (hb : b ≠ blankId) {l r : List Frame}
    {f g : Frame} (hfs : pool.frames = l ++ f :: r) (hf : f.blockId = b) (hg : g ∈ pool.frames)
    (hgb : g.blockId = b) : g = f := by
  have hdistinct := hs.distinct
  rw [blocks_cut hfs, pairwise_append, pairwise_cons] at hdistinct
  obtain ⟨_, ⟨hr, _⟩, hl⟩ := hdistinct
  rw [hfs] at hg
  rcases mem_append.mp hg with hg | hg
  · have hblank := hl g.blockId (mem_map_of_mem hg) f.blockId mem_cons_self
      (hgb.trans hf.symm)
    exact absurd (hgb.symm.trans hblank) hb
  · rcases mem_cons.mp hg with rfl | hg
    · rfl
    · have hblank := hr g.blockId (mem_map_of_mem hg) (hf.trans hgb.symm)
      exact absurd (hf.symm.trans hblank) hb

theorem Coherent.fetch (h : Coherent pool b p) (hs : Sound count pool) (hp : Holds b p pool)
    (hb : InRange pool.device b) :
    ∃ pool' page, pool.fetch b = .ok (pool', .ok page) ∧ page.bytes = p ∧ Effects pool pool' := by
  obtain ⟨pool₁, l, f, r, hpin, hfs, hid⟩ : ∃ pool₁ l f r,
      pool.pinBlock b = .ok (pool₁, .ok l.length) ∧ pool₁.frames = l ++ f :: r ∧
        f.blockId = b := by
    rcases hs.pinBlock_cases b with ⟨l, f, r, hfs, hid, _, hpin⟩ |
      ⟨hnew, ⟨hno, _⟩ | ⟨_, _, pool₁, l, f, r, hpin, hfs, hid, _⟩⟩
    · have hpins := (h.resident f (by simp [hfs]) hid).2
      rcases hpin with ⟨_, hpin⟩ | ⟨hlimit, _⟩
      · exact ⟨_, l, _, r, hpin, rfl, hid⟩
      · exact absurd hpins hlimit
    · exact absurd ⟨hb, h.absent hnew⟩ hno
    · exact ⟨pool₁, l, f, r, hpin, hfs, hid⟩
  have hfs' : (pool₁.touch l.length).frames = l ++ f :: r := hfs
  have hfetch : pool.fetch b = .ok (pool₁.touch l.length, .ok f.page) := by
    simp only [BufferPool.fetch, hpin, ok_bind]
    rw [index_cut hfs', ok_bind]
  obtain ⟨heffects, _⟩ := hs.pinBlock_effects hpin
  have hholds := hp.effects heffects (ne_blankId hb)
  exact ⟨_, f.page, hfetch, hholds.frames f (by simp [hfs]) hid, hs.fetch_effects hfetch⟩

/-- A block that is fetched as `p` was held as `p` by its frame or could be loaded. -/
theorem coherent_of_fetch (hs : Sound count pool) (hb : InRange pool.device b) {page : Page}
    (h : pool.fetch b = .ok (pool', .ok page)) : Coherent pool b page.bytes := by
  refine ⟨page.size, ?_, ?_⟩
  · intro g hg hgb
    rcases hs.pinBlock_cases b with ⟨l, f, r, hfs, hid, _, hpin⟩ | ⟨hnew, _⟩
    · obtain rfl := hs.eq_of_blockId (ne_blankId hb) hfs hid hg hgb
      rcases hpin with ⟨hpins, hpin⟩ | ⟨_, hpin⟩
      · refine ⟨?_, hpins⟩
        simp only [BufferPool.fetch, hpin, ok_bind] at h
        rw [index_cut (x := { g with state := .pinned (g.pins + 1) }) rfl, ok_bind] at h
        cases h
        rfl
      · simp [BufferPool.fetch, hpin] at h
    · exact absurd (hgb ▸ mem_map_of_mem hg) hnew
  · intro hnew
    rcases hs.pinBlock_cases b with ⟨l, f, r, hfs, hid, _⟩ |
      ⟨_, ⟨_, p, err, hpin, _⟩ | ⟨_, hcan, _⟩⟩
    · rw [blocks_cut hfs, hid] at hnew
      simp at hnew
    · simp [BufferPool.fetch, hpin] at h
    · exact hcan

end BufferPool

/-! ### Replay -/

section Replay

variable {D : Type} [ReliableDevice D]

theorem blockCount_applyRecord (s : D × Nat) (record : WalRecord) :
    blockCount (StorageEngine.applyRecord s record).1 = blockCount s.1 := by
  unfold StorageEngine.applyRecord
  split
  · next hsize =>
    by_cases hrange : InRange s.1 record.blockId
    · obtain ⟨d', hwrite, hcount, _⟩ := ReliableDevice.write_ok hrange hsize.2
      rw [hwrite]
      exact hcount
    · obtain ⟨err, hwrite⟩ : ∃ err, writeBlock s.1 record.blockId record.payload =
          (s.1, .error err) := ReliableDevice.write_err hrange
      rw [hwrite]
  · rfl

theorem blockCount_foldl (records : List WalRecord) (s : D × Nat) :
    blockCount (records.foldl StorageEngine.applyRecord s).1 = blockCount s.1 := by
  induction records generalizing s with
  | nil => rfl
  | cons record records ih => rw [foldl_cons, ih, blockCount_applyRecord]

theorem content_applyRecord_other (s : D × Nat) {record : WalRecord} {b : BlockId}
    (h : ¬ (record.kind = .pageWrite ∧ record.blockId = b)) :
    content (StorageEngine.applyRecord s record).1 b = content s.1 b := by
  unfold StorageEngine.applyRecord
  split
  · next hsize =>
    by_cases hrange : InRange s.1 record.blockId
    · obtain ⟨d', hwrite, _, hcontent⟩ := ReliableDevice.write_ok hrange hsize.2
      rw [hwrite]
      refine (hcontent b).trans (if_neg ?_)
      rintro rfl
      exact h ⟨hsize.1, rfl⟩
    · obtain ⟨err, hwrite⟩ : ∃ err, writeBlock s.1 record.blockId record.payload =
          (s.1, .error err) := ReliableDevice.write_err hrange
      rw [hwrite]
  · rfl

theorem content_foldl_of_lastWrite {records : List WalRecord} {b : BlockId} {p : Bytes}
    {s : D × Nat}
    (hb : InRange s.1 b) (hlast : lastWrite records b = some p) (hsize : p.length = pageSize) :
    content (records.foldl StorageEngine.applyRecord s).1 b = p := by
  induction records using reverseRecOn with
  | nil => cases hlast
  | append_singleton records record ih =>
    rw [lastWrite_concat] at hlast
    rw [foldl_append, foldl_cons, foldl_nil]
    by_cases hwrite : record.kind = .pageWrite ∧ record.blockId = b
    · rw [if_pos hwrite] at hlast
      cases hlast
      obtain ⟨hkind, rfl⟩ := hwrite
      have hrange : InRange (records.foldl StorageEngine.applyRecord s).1 record.blockId := by
        rwa [InRange, blockCount_foldl]
      rw [(content_applyRecord _ fun _ => hsize).2 _ hrange, if_pos ⟨hkind, rfl⟩]
    · rw [if_neg hwrite] at hlast
      rw [content_applyRecord_other _ hwrite]
      exact ih hlast

end Replay

namespace StorageEngine

open BufferPool (Sound Holds Coherent CanLoad Effects)

variable {D : Type} [BoundedDevice D] {d : D} {e e' e₀ : StorageEngine D} {b : BlockId} {p : Bytes}
  {count : UInt64} {log : Bytes} {records : List WalRecord}

def replayed (log : Bytes) : Result Empty (List WalRecord) := do
  let wal ← Wal.fromBytes log
  let (records, _) ← wal.replay (fun rs record => rs ++ [record]) []
  .ok records

theorem foldl_concat {α : Type} (xs ys : List α) :
    xs.foldl (fun rs x => rs ++ [x]) ys = ys ++ xs := by
  induction xs generalizing ys with
  | nil => simp
  | cons x xs ih => simp [ih]

theorem recover_eq_ok {r : Except StorageError Nat} (h : e.recover log = .ok (e', r))
    (hrec : replayed log = .ok records) :
    e'.pool = { e.pool with device := (records.foldl applyRecord (e.pool.device, 0)).1 } := by
  obtain ⟨wal, hfrom, h⟩ := bind_eq_ok.mp h
  obtain ⟨wal', hfrom', hrec⟩ := bind_eq_ok.mp hrec
  rw [hfrom] at hfrom'
  cases hfrom'
  obtain ⟨found, stop, hscan⟩ := exists_scan wal.bytes 0
  rw [Wal.replay_of_scan hscan, ok_bind] at h hrec
  cases hrec
  cases h
  rw [foldl_concat, nil_append]

/-! ### States that calls can lead to -/

theorem sound_call {c : EngineCall} {r : Except StorageError Unit} (hs : Sound count e.pool)
    (h : e.call c = .ok (e', r)) : Sound count e'.pool := by
  cases c with
  | writePage b page =>
    by_cases hsize : page.length = pageSize
    · simp only [StorageEngine.call, writePage, dif_pos hsize] at h
      obtain ⟨⟨lsn, wal⟩, _, h⟩ := bind_eq_ok.mp h
      obtain ⟨⟨pool, fetched⟩, hfetch, h⟩ := bind_eq_ok.mp h
      have hs' := hs.effects (hs.fetchMut_effects hfetch)
      cases fetched with
      | error err =>
        cases h
        exact hs'
      | ok idx =>
        obtain ⟨pool₁, hset, h⟩ := bind_eq_ok.mp h
        obtain ⟨pool₂, hunpin, h⟩ := bind_eq_ok.mp h
        cases h
        exact (hs'.setPage hset).effects (BufferPool.unpin_effects hunpin)
    · simp only [StorageEngine.call, writePage, dif_neg hsize] at h
      cases h
      exact hs
  | readPage b =>
    simp only [StorageEngine.call] at h
    obtain ⟨⟨e₁, page⟩, hread, h⟩ := bind_eq_ok.mp h
    obtain ⟨⟨pool, r'⟩, hfetch, hread⟩ := bind_eq_ok.mp hread
    cases hread
    cases h
    exact hs.effects (hs.fetch_effects hfetch)
  | commit =>
    obtain ⟨⟨lsn, wal⟩, _, h⟩ := bind_eq_ok.mp h
    obtain ⟨⟨pool, flushed⟩, hflush, h⟩ := bind_eq_ok.mp h
    cases h
    exact hs.effects (BufferPool.flushAll_effects hflush)

theorem sound_recover {r : Except StorageError Nat} (hs : Sound count e.pool)
    (h : e.recover log = .ok (e', r)) : Sound count e'.pool := by
  obtain ⟨wal, _, h⟩ := bind_eq_ok.mp h
  obtain ⟨⟨⟨device, applied⟩, n⟩, hreplay, h⟩ := bind_eq_ok.mp h
  obtain ⟨found, stop, hscan⟩ := exists_scan wal.bytes 0
  rw [Wal.replay_of_scan hscan] at hreplay
  cases h
  have hcount := blockCount_foldl found (e.pool.device, 0)
  simp only [Except.ok.injEq, Prod.mk.injEq] at hreplay
  rw [hreplay.1] at hcount
  exact ⟨hcount.trans hs.device, hs.ids, hs.distinct, hs.lru⟩

theorem sound_op {o : EngineOp} (hs : Sound count e.pool) (h : e.op o = .ok e') :
    Sound count e'.pool := by
  cases o with
  | call c =>
    obtain ⟨⟨e₁, r⟩, hcall, h⟩ := bind_eq_ok.mp h
    cases h
    exact sound_call hs hcall
  | recover log =>
    obtain ⟨⟨e₁, r⟩, hrecover, h⟩ := bind_eq_ok.mp h
    cases h
    exact sound_recover hs hrecover

theorem sound_ops {capacity : Nat} {before : List EngineOp}
    (hnew : StorageEngine.new d capacity = .ok e₀) (hrun : e₀.ops before = .ok e) :
    Sound (blockCount d) e.pool := by
  obtain rfl := new_eq_ok hnew
  exact steps_preserve (P := fun e : StorageEngine D => Sound (blockCount d) e.pool)
    (fun _ _ _ hs h => sound_op hs h) (BufferPool.sound_empty d capacity) hrun

theorem commit_effects {r : Except StorageError Unit} (h : e.commit = .ok (e', r)) :
    Effects e.pool e'.pool := by
  obtain ⟨⟨lsn, wal⟩, _, h⟩ := bind_eq_ok.mp h
  obtain ⟨⟨pool, flushed⟩, hflush, h⟩ := bind_eq_ok.mp h
  cases h
  exact BufferPool.flushAll_effects hflush

/-! ### Blocks after a recovery -/

/-- Block `b` reads as `p`, and a commit, before that or after it, leaves it as `p` on
the device. -/
structure Served (e : StorageEngine D) (b : BlockId) (p : Bytes) : Prop where
  read : ∃ e₁ page, e.readPage b = .ok (e₁, .ok page) ∧ page.bytes = p ∧
    ∀ e₂ r, e₁.commit = .ok (e₂, r) → content e₂.pool.device b = p
  commit : ∀ e₁ r, e.commit = .ok (e₁, r) → content e₁.pool.device b = p

theorem served_of_coherent (hs : Sound count e.pool) (hb : InRange e.pool.device b)
    (hcontent : content e.pool.device b = p) (h : Coherent e.pool b p) : Served e b p := by
  have hholds : Holds b p e.pool := ⟨hcontent, fun f hf hfb => (h.resident f hf hfb).1⟩
  have hne := BufferPool.ne_blankId hb
  obtain ⟨pool', page, hfetch, hpage, heffects⟩ := h.fetch hs hholds hb
  refine ⟨⟨{ e with pool := pool' }, page, by simp [readPage, hfetch], hpage, ?_⟩, ?_⟩
  · intro e₂ r hcommit
    exact ((hholds.effects heffects hne).effects (commit_effects hcommit) hne).device
  · intro e₁ r hcommit
    exact (hholds.effects (commit_effects hcommit) hne).device

theorem coherent_of_served (hs : Sound count e.pool) (hb : InRange e.pool.device b)
    (h : Served e b p) : Coherent e.pool b p := by
  obtain ⟨e₁, page, hread, rfl, _⟩ := h.read
  obtain ⟨⟨pool', r⟩, hfetch, hread⟩ := bind_eq_ok.mp hread
  cases hread
  exact BufferPool.coherent_of_fetch hs hb hfetch

/-- After a recovery a block reads as its last image in the log and keeps it over a
commit if and only if the pool was coherent with that image before. -/
theorem recover_coherent_iff {capacity applied : Nat} {before : List EngineOp}
    (hnew : StorageEngine.new d capacity = .ok e₀) (hrun : e₀.ops before = .ok e)
    (hrec : replayed log = .ok records) (hrecover : e.recover log = .ok (e', .ok applied))
    (hb : InRange d b) (hlast : lastWrite records b = some p) :
    Served e' b p ↔ Coherent e.pool b p := by
  have hs := sound_ops hnew hrun
  have hs' := sound_recover hs hrecover
  have hb₀ : InRange e.pool.device b := by rwa [InRange, hs.device]
  have hb' : InRange e'.pool.device b := by rwa [InRange, hs'.device]
  have hpool := recover_eq_ok hrecover hrec
  have hcongr : Coherent e'.pool b p ↔ Coherent e.pool b p := by
    rw [hpool]
    exact BufferPool.coherent_congr (blockCount_foldl records _)
  rw [← hcongr]
  constructor
  · exact coherent_of_served hs' hb'
  · intro h
    refine served_of_coherent hs' hb' ?_ h
    rw [hpool]
    exact content_foldl_of_lastWrite hb₀ hlast h.size

section Resident

variable {record : WalRecord}

theorem scan_frame (h : record.Small) : Scan record.frame 0 [record] record.frame.length := by
  have hlen : 0 < record.frame.length := by
    rw [WalRecord.length_frame, WalRecord.encodedLen]
    omega
  have hdecode := WalRecord.decode_frame h []
  rw [append_nil, ← WalRecord.length_frame] at hdecode
  have hstop : Scan record.frame (0 + record.frame.length) [] (0 + record.frame.length) :=
    .stop fun hlt => absurd hlt (by omega)
  have hscan := Scan.next hlen hlen hdecode hstop
  rwa [zero_add] at hscan

theorem fromBytes_frame (h : record.Small) (hlsn : record.lsn.toNat + 1 < 2 ^ 64) :
    Wal.fromBytes record.frame = .ok ⟨record.frame, record.lsn + 1⟩ := by
  have hnext : (checkedSucc record.lsn : Result Empty UInt64) = .ok (record.lsn + 1) := if_pos hlsn
  rw [Wal.fromBytes_of_scan (scan_frame h), getLast?_singleton]
  simp only [hnext, take_length]
  rfl

theorem recover_frame (h : record.Small) (hlsn : record.lsn.toNat + 1 < 2 ^ 64)
    (e : StorageEngine D) : replayed record.frame = .ok [record] ∧
      ∃ e' applied, e.recover record.frame = .ok (e', .ok applied) := by
  have hfrom := fromBytes_frame h hlsn
  have hscan : Scan (⟨record.frame, record.lsn + 1⟩ : Wal).bytes 0 [record] record.frame.length :=
    scan_frame h
  constructor
  · simp only [replayed, hfrom, Wal.replay_of_scan hscan, ok_bind]
    rfl
  · simp only [recover, hfrom, Wal.replay_of_scan hscan, ok_bind]
    exact ⟨_, _, rfl⟩

/-- The image of block 0 that the log holds. -/
abbrev onesRecord : WalRecord := ⟨0, .pageWrite, 0, onesPage⟩

theorem small_onesRecord : onesRecord.Small := by
  show onesPage.length < 2 ^ 32 - 64
  rw [length_onesPage]
  decide

theorem lastWrite_onesRecord : lastWrite [onesRecord] 0 = some onesPage := by
  simp [lastWrite]

theorem new_oneBlock : StorageEngine.new oneBlock 1 = .ok ⟨⟨oneBlock, 1, [], []⟩, Wal.new⟩ := rfl

/-- Recovery into an empty pool. -/
theorem recover_coherent_iff_empty :
    ∃ e' applied, (⟨⟨oneBlock, 1, [], []⟩, Wal.new⟩ :
        StorageEngine InMemoryBlockDevice).recover onesRecord.frame = .ok (e', .ok applied) ∧
      Served e' 0 onesPage := by
  obtain ⟨hrec, e', applied, hrecover⟩ := recover_frame small_onesRecord (by decide)
    (⟨⟨oneBlock, 1, [], []⟩, Wal.new⟩ : StorageEngine InMemoryBlockDevice)
  have hrun : (⟨⟨oneBlock, 1, [], []⟩, Wal.new⟩ : StorageEngine InMemoryBlockDevice).ops [] =
      .ok ⟨⟨oneBlock, 1, [], []⟩, Wal.new⟩ := rfl
  refine ⟨e', applied, hrecover, (recover_coherent_iff new_oneBlock hrun hrec hrecover
    oneBlock_inRange lastWrite_onesRecord).mpr ⟨length_onesPage, ?_, ?_⟩⟩
  · intro f hf
    cases hf
  · exact fun _ => Or.inr (Or.inl Nat.one_pos)

/-- A block that has been read before stays as it was read. -/
theorem not_recover_coherent :
    ∃ e e' applied, (⟨⟨oneBlock, 1, [], []⟩, Wal.new⟩ : StorageEngine InMemoryBlockDevice).ops
        [.call (.readPage 0)] = .ok e ∧
      e.recover onesRecord.frame = .ok (e', .ok applied) ∧
      lastWrite [onesRecord] 0 = some onesPage ∧ ¬Served e' 0 onesPage := by
  rcases (BufferPool.inv_empty oneBlock 1).fetch_cases oneBlock_inRange with
    ⟨_, hlim⟩ | ⟨_, _, hfull, _⟩ | ⟨pool, idx, page, hfetch, hpin, _⟩
  · simp [pinCount] at hlim
  · exact absurd hfull (by decide)
  · obtain ⟨l, f, r, hfs, _, hid, _⟩ := hpin.frame
    have hf : f ∈ pool.frames := by simp [hfs]
    have hpage : f.page.bytes = content oneBlock 0 := by
      rw [(hpin.inv.cached.frame f hf).page, hid]
    set e : StorageEngine InMemoryBlockDevice := ⟨pool, Wal.new⟩ with he
    have hrun : (⟨⟨oneBlock, 1, [], []⟩, Wal.new⟩ : StorageEngine InMemoryBlockDevice).ops
        [.call (.readPage 0)] = .ok e := by
      simp [ops, steps, op, StorageEngine.call, readPage, hfetch, he]
    obtain ⟨hrec, e', applied, hrecover⟩ := recover_frame small_onesRecord (by decide) e
    refine ⟨e, e', applied, hrun, hrecover, lastWrite_onesRecord, fun hserved => ?_⟩
    have hs' := sound_recover (sound_ops new_oneBlock hrun) hrecover
    have hcoherent := coherent_of_served hs' (by rw [InRange, hs'.device]; exact oneBlock_inRange)
      hserved
    rw [recover_eq_ok hrecover hrec] at hcoherent
    exact onesPage_ne ((hcoherent.resident f hf hid).1.symm.trans hpage)

end Resident

end StorageEngine

end Oikos.Archon
