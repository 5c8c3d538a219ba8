/-
Recovery of the storage engine.  Replaying what survives of the log writes every
complete page image to the device, those after the last commit marker included;
so a block comes back as of that marker exactly if its later images change
nothing.
-/
import Oikos.Archon.Storage
import Oikos.Archon.WalRecovery
import Mathlib.Data.List.DropRight

namespace Oikos.Archon

open List

open WalRecord (encodedLen)

variable {D : Type}

/-! ### What a run logs -/

def EngineCall.logged : EngineCall → List Append
  | .writePage b page => if page.length = pageSize then [⟨.pageWrite, b, page⟩] else []
  | .readPage _ => []
  | .commit => [⟨.commit, 0, []⟩]

theorem EngineCall.size_of_mem_logged {c : EngineCall} {a : Append} (h : a ∈ c.logged) :
    a.kind = .pageWrite ∧ a.payload.length = pageSize ∨ a.kind = .commit ∧ a.payload = [] := by
  cases c with
  | writePage b page =>
    by_cases hsize : page.length = pageSize
    · obtain rfl : a = _ := by simpa [EngineCall.logged, hsize] using h
      exact Or.inl ⟨rfl, hsize⟩
    · simp [EngineCall.logged, hsize] at h
  | readPage b => simp [EngineCall.logged] at h
  | commit =>
    obtain rfl : a = _ := by simpa [EngineCall.logged] using h
    exact Or.inr ⟨rfl, rfl⟩

/-- The records of a run that are complete within the first `n` bytes of its log. -/
def surviving (cs : List EngineCall) (n : Nat) : List WalRecord :=
  durable (cs.flatMap EngineCall.logged) n

theorem fits_logged {cs : List EngineCall} : ∀ a ∈ cs.flatMap EngineCall.logged, a.Fits := by
  intro a ha
  obtain ⟨c, _, ha⟩ := mem_flatMap.mp ha
  rcases EngineCall.size_of_mem_logged ha with ⟨_, hsize⟩ | ⟨_, hnil⟩
  · simp [Append.Fits, hsize, pageSize]
  · simp [Append.Fits, hnil]

theorem size_of_mem_surviving {cs : List EngineCall} {n : Nat} {record : WalRecord}
    (h : record ∈ surviving cs n) (hkind : record.kind = .pageWrite) :
    record.payload.length = pageSize := by
  rw [surviving, durable_eq_appended] at h
  obtain ⟨i, hi, rfl⟩ := mem_mapIdx.mp h
  obtain ⟨c, _, ha⟩ := mem_flatMap.mp (mem_of_mem_take (getElem_mem hi))
  rcases EngineCall.size_of_mem_logged ha with ⟨_, hsize⟩ | ⟨hcommit, _⟩
  · exact hsize
  · exact absurd (hcommit.symm.trans hkind) (by decide)

namespace StorageEngine

section Log

variable [BlockDevice D] {e e' : StorageEngine D}

theorem isLog_call {c : EngineCall} {as : List Append} {r : Except StorageError Unit}
    (h : e.wal.IsLog as) (hcall : e.call c = .ok (e', r)) : e'.wal.IsLog (as ++ c.logged) := by
  cases c with
  | writePage b page =>
    by_cases hsize : page.length = pageSize
    · simp only [StorageEngine.call, writePage, dif_pos hsize, bind_eq_ok] at hcall
      obtain ⟨⟨lsn, wal⟩, hwal, ⟨pool, fetched⟩, _, hcall⟩ := hcall
      have happend : e.wal.appendCall ⟨.pageWrite, b, page⟩ = .ok wal := by
        simp [Wal.appendCall, hwal]
      have hlog := h.append happend
      have hwal' : e'.wal = wal := by
        cases fetched with
        | error err =>
          obtain ⟨rfl, _⟩ : _ = e' ∧ _ = r := by simpa using hcall
          rfl
        | ok idx =>
          simp only [bind_eq_ok] at hcall
          obtain ⟨pool₁, _, pool₂, _, hres⟩ := hcall
          obtain ⟨rfl, _⟩ : _ = e' ∧ _ = r := by simpa using hres
          rfl
      simpa [EngineCall.logged, hsize, hwal'] using hlog
    · obtain ⟨rfl, _⟩ : e = e' ∧ _ = r := by
        simpa [StorageEngine.call, writePage, hsize] using hcall
      simpa [EngineCall.logged, hsize] using h
  | readPage b =>
    simp only [StorageEngine.call, readPage, bind_eq_ok] at hcall
    obtain ⟨⟨e₁, page⟩, ⟨⟨pool, page'⟩, _, hread⟩, hres⟩ := hcall
    obtain ⟨rfl, _⟩ : _ = e₁ ∧ _ = page := by simpa using hread
    obtain ⟨rfl, _⟩ : _ = e' ∧ _ = r := by simpa using hres
    simpa [EngineCall.logged] using h
  | commit =>
    simp only [StorageEngine.call, commit, bind_eq_ok] at hcall
    obtain ⟨⟨lsn, wal⟩, hwal, ⟨pool, flushed⟩, _, hres⟩ := hcall
    obtain ⟨rfl, _⟩ : _ = e' ∧ _ = r := by simpa using hres
    have happend : e.wal.appendCall ⟨.commit, 0, []⟩ = .ok wal := by
      simp [Wal.appendCall, hwal]
    exact h.append happend

theorem isLog_calls {cs : List EngineCall} {as : List Append}
    {rs : List (Except StorageError Unit)} (h : e.wal.IsLog as)
    (hrun : e.calls cs = .ok (e', rs)) :
    e'.wal.IsLog (as ++ cs.flatMap EngineCall.logged) := by
  induction cs generalizing e as rs with
  | nil =>
    obtain ⟨rfl, _⟩ : e = e' ∧ [] = rs := by simpa [StorageEngine.calls] using hrun
    simpa using h
  | cons c cs ih =>
    simp only [StorageEngine.calls, bind_eq_ok] at hrun
    obtain ⟨⟨e₁, r⟩, hcall, ⟨e₂, rs'⟩, hrest, hres⟩ := hrun
    obtain ⟨rfl, _⟩ : e₂ = e' ∧ r :: rs' = rs := by simpa using hres
    have hlog := ih (isLog_call h hcall) hrest
    simpa using hlog

end Log

end StorageEngine

/-! ### Images of blocks -/

def lastWrite (records : List WalRecord) (b : BlockId) : Option Bytes :=
  records.foldl
    (fun last r => if r.kind = .pageWrite ∧ r.blockId = b then some r.payload else last) none

/-- A block after the page images of the records have been written over `init`. -/
def image (init : BlockId → Bytes) (records : List WalRecord) (b : BlockId) : Bytes :=
  (lastWrite records b).getD (init b)

def committedPart (records : List WalRecord) : List WalRecord :=
  records.rdropWhile fun r => decide (r.kind ≠ .commit)

def trailingPart (records : List WalRecord) : List WalRecord :=
  records.rtakeWhile fun r => decide (r.kind ≠ .commit)

theorem lastWrite_concat (records : List WalRecord) (record : WalRecord) (b : BlockId) :
    lastWrite (records ++ [record]) b =
      if record.kind = .pageWrite ∧ record.blockId = b then some record.payload
      else lastWrite records b := by
  simp [lastWrite]

theorem lastWrite_append (records more : List WalRecord) (b : BlockId) :
    lastWrite (records ++ more) b = (lastWrite more b).or (lastWrite records b) := by
  induction more using reverseRecOn with
  | nil => simp [lastWrite]
  | append_singleton more record ih =>
    rw [← append_assoc, lastWrite_concat, lastWrite_concat, ih]
    split <;> rfl

theorem image_concat (init : BlockId → Bytes) (records : List WalRecord) (record : WalRecord)
    (b : BlockId) :
    image init (records ++ [record]) b =
      if record.kind = .pageWrite ∧ record.blockId = b then record.payload
      else image init records b := by
  rw [image, lastWrite_concat]
  split <;> rfl

theorem image_append_eq_iff (init : BlockId → Bytes) (records more : List WalRecord) (b : BlockId) :
    image init (records ++ more) b = image init records b ↔
      ∀ page, lastWrite more b = some page → page = image init records b := by
  rw [image, lastWrite_append]
  cases hlast : lastWrite more b with
  | none => simp [image]
  | some page => simp

theorem committedPart_append_trailingPart (records : List WalRecord) :
    committedPart records ++ trailingPart records = records :=
  rdropWhile_append_rtakeWhile

/-! ### Replay into the device -/

section Replay

variable [ReliableDevice D]

theorem content_applyRecord (s : D × Nat) {record : WalRecord}
    (hsize : record.kind = .pageWrite → record.payload.length = pageSize) :
    blockCount (StorageEngine.applyRecord s record).1 = blockCount s.1 ∧
      ∀ b, InRange s.1 b → content (StorageEngine.applyRecord s record).1 b =
        if record.kind = .pageWrite ∧
        record.blockId = b then record.payload else content s.1 b := by
  unfold StorageEngine.applyRecord
  by_cases hkind : record.kind = .pageWrite
  · rw [if_pos ⟨hkind, hsize hkind⟩]
    by_cases hrange : InRange s.1 record.blockId
    · obtain ⟨d', hwrite, hcount, hcontent⟩ := ReliableDevice.write_ok hrange (hsize hkind)
      rw [hwrite]
      refine ⟨hcount, fun b _ => ?_⟩
      rw [hcontent b]
      simp only [hkind, true_and, eq_comm]
    · obtain ⟨err, hwrite⟩ : ∃ err, writeBlock s.1 record.blockId record.payload =
          (s.1, .error err) := ReliableDevice.write_err hrange
      rw [hwrite]
      refine ⟨rfl, fun b hb => ?_⟩
      rw [if_neg]
      rintro ⟨_, rfl⟩
      exact hrange hb
  · simp [hkind]

theorem content_replay (d : D) (k : Nat) {records : List WalRecord}
    (hsize : ∀ r ∈ records, r.kind = .pageWrite → r.payload.length = pageSize) :
    blockCount (records.foldl StorageEngine.applyRecord (d, k)).1 = blockCount d ∧
      ∀ b, InRange d b → content (records.foldl StorageEngine.applyRecord (d, k)).1 b =
        image (content d) records b := by
  induction records using reverseRecOn with
  | nil => exact ⟨rfl, fun _ _ => rfl⟩
  | append_singleton records record ih =>
    obtain ⟨hcount, hcontent⟩ := ih fun r hr => hsize r (mem_append_left _ hr)
    obtain ⟨hcount', hcontent'⟩ := content_applyRecord
      (records.foldl StorageEngine.applyRecord (d, k)) (hsize record (by simp))
    rw [foldl_append, foldl_cons, foldl_nil]
    refine ⟨hcount'.trans hcount, fun b hb => ?_⟩
    rw [hcontent' b (by rwa [InRange, hcount]), hcontent b hb, image_concat]

namespace StorageEngine

variable {d : D} {e e' fresh : StorageEngine D}

theorem recover_spec {capacity capacity' : Nat} {cs : List EngineCall}
    {rs : List (Except StorageError Unit)} (hnew : StorageEngine.new d capacity = .ok e)
    (hrun : e.calls cs = .ok (e', rs)) (hfresh : StorageEngine.new d capacity' = .ok fresh)
    (n : Nat) :
    ∃ r applied, fresh.recover (e'.wal.bytes.take n) = .ok (r, .ok applied) ∧
      ∀ b, InRange d b → content r.pool.device b = image (content d) (surviving cs n) b := by
  have hlog : e'.wal.IsLog (cs.flatMap EngineCall.logged) := by
    have hempty : e.wal.IsLog [] := by
      rw [new_eq_ok hnew]
      exact Wal.isLog_new
    simpa using isLog_calls hempty hrun
  obtain ⟨wal, hfrom, hreplay, _⟩ := hlog.recoversTruncations fits_logged n
  refine ⟨_, _, by simp only [recover, hfrom, hreplay, ok_bind]; rfl, ?_⟩
  intro b hb
  rw [new_eq_ok hfresh]
  exact (content_replay d 0 fun r hr => size_of_mem_surviving hr).2 b hb

/-- Recovery leaves every block as of the last surviving commit marker if and
only if the last image of each block after that marker repeats what was
committed. -/
theorem recover_committed_iff {capacity capacity' : Nat} {cs : List EngineCall}
    {rs : List (Except StorageError Unit)} (hnew : StorageEngine.new d capacity = .ok e)
    (hrun : e.calls cs = .ok (e', rs)) (hfresh : StorageEngine.new d capacity' = .ok fresh)
    (n : Nat) :
    ∃ r applied, fresh.recover (e'.wal.bytes.take n) = .ok (r, .ok applied) ∧
      ((∀ b, InRange d b →
          content r.pool.device b = image (content d) (committedPart (surviving cs n)) b) ↔
        ∀ b, InRange d b → ∀ page, lastWrite (trailingPart (surviving cs n)) b = some page →
          page = image (content d) (committedPart (surviving cs n)) b) := by
  obtain ⟨r, applied, hrecover, hcontent⟩ := recover_spec hnew hrun hfresh n
  refine ⟨r, applied, hrecover, ?_⟩
  refine forall₂_congr fun b hb => ?_
  rw [hcontent b hb, ← image_append_eq_iff, committedPart_append_trailingPart]

theorem calls_writePage_new (d : D) {capacity : Nat} {b : BlockId} (hcap : 0 < capacity)
    (hb : InRange d b) {page : Bytes} (hsize : page.length = pageSize) :
    ∃ e' rs, StorageEngine.calls ⟨⟨d, capacity, [], []⟩, Wal.new⟩ [.writePage b page] =
      .ok (e', rs) := by
  obtain ⟨⟨lsn, wal⟩, hwal⟩ : ∃ w, Wal.new.append .pageWrite b page = .ok w := by
    simp [Wal.append, WalRecord.encode_replicate, checkedSucc, Wal.new]
  rcases (BufferPool.inv_empty d capacity).fetchMut_cases hb with
    ⟨_, hlim⟩ | ⟨_, _, hfull, _⟩ | ⟨pool, l, f, tl, hf, hpin, hfs, rfl, hintent, _⟩
  · simp [pinCount] at hlim
  · exact absurd hfull hcap.ne
  · obtain ⟨pool', hun, _⟩ := (hpin.inv.setPage hfs hintent ⟨page, hsize⟩).unpin_spec f.blockId
    exact ⟨_, _, by
      simp only [StorageEngine.calls, StorageEngine.call, writePage, dif_pos hsize, hwal, ok_bind,
        hf, BufferPool.setPage, BufferPool.index_cut hfs, BufferPool.setFrame_cut hfs, hun]
      rfl⟩

section Uncommitted

abbrev oneBlock : InMemoryBlockDevice := InMemoryBlockDevice.new 1

def onesPage : Bytes := List.replicate pageSize 1

theorem oneBlock_inRange : InRange oneBlock 0 := by
  show (0 : UInt64) < 1
  decide

theorem length_onesPage : onesPage.length = pageSize :=
  length_replicate

theorem onesPage_ne : onesPage ≠ content oneBlock 0 := by
  have hzero : content oneBlock 0 = replicate pageSize 0 := by
    show ((replicate (1 * pageSize) (0 : UInt8)).drop 0).take pageSize = _
    simp
  rw [hzero, onesPage]
  intro heq
  have hone : (1 : UInt8) = 0 := replicate_right_injective (by decide) heq
  exact absurd hone (by decide)

theorem surviving_writePage {page : Bytes} (hsize : page.length = pageSize) :
    surviving [.writePage 0 page] 5000 = [⟨0, .pageWrite, 0, page⟩] := by
  have hlen : (⟨0, .pageWrite, 0, page⟩ : WalRecord).encodedLen ≤ 5000 := by
    simp [encodedLen, headerLen, hsize, pageSize]
  have hlogged : [EngineCall.writePage 0 page].flatMap EngineCall.logged =
      [⟨.pageWrite, 0, page⟩] := by
    simp [EngineCall.logged, hsize]
  rw [surviving, hlogged]
  exact (complete_cons 0 _ [] 5000).trans (by simpa [complete, layout] using hlen)

/-- A crash before the commit of a write. -/
theorem recover_committed_iff_uncommitted :
    ∃ e e' rs, StorageEngine.new oneBlock 1 = .ok e ∧
      e.calls [.writePage 0 onesPage] = .ok (e', rs) ∧
      ∃ r applied, e.recover (e'.wal.bytes.take 5000) = .ok (r, .ok applied) ∧
        ((∀ b, InRange oneBlock b → content r.pool.device b = image (content oneBlock)
            (committedPart (surviving [.writePage 0 onesPage] 5000)) b) ↔
          ∀ b, InRange oneBlock b → ∀ page,
            lastWrite (trailingPart (surviving [.writePage 0 onesPage] 5000)) b = some page →
            page = image (content oneBlock)
              (committedPart (surviving [.writePage 0 onesPage] 5000)) b) := by
  have hnew : StorageEngine.new oneBlock 1 = .ok ⟨⟨oneBlock, 1, [], []⟩, Wal.new⟩ := rfl
  obtain ⟨e', rs, hrun⟩ := calls_writePage_new oneBlock Nat.one_pos oneBlock_inRange
    length_onesPage
  exact ⟨_, e', rs, hnew, hrun, recover_committed_iff hnew hrun hnew 5000⟩

/-- The page is written and the engine crashes before any commit; recovery brings
the page back all the same. -/
theorem recovers_uncommitted_page :
    ∃ e e' rs, StorageEngine.new oneBlock 1 = .ok e ∧
      e.calls [.writePage 0 onesPage] = .ok (e', rs) ∧
      ∃ r applied, e.recover (e'.wal.bytes.take 5000) = .ok (r, .ok applied) ∧
        InRange oneBlock 0 ∧ content r.pool.device 0 ≠ image (content oneBlock)
          (committedPart (surviving [.writePage 0 onesPage] 5000)) 0 := by
  have hnew : StorageEngine.new oneBlock 1 = .ok ⟨⟨oneBlock, 1, [], []⟩, Wal.new⟩ := rfl
  obtain ⟨e', rs, hrun⟩ := calls_writePage_new oneBlock Nat.one_pos oneBlock_inRange
    length_onesPage
  obtain ⟨r, applied, hrecover, hcontent⟩ := recover_spec hnew hrun hnew 5000
  refine ⟨_, e', rs, hnew, hrun, r, applied, hrecover, oneBlock_inRange, ?_⟩
  rw [hcontent 0 oneBlock_inRange, surviving_writePage length_onesPage]
  have hcommitted : committedPart [⟨0, .pageWrite, 0, onesPage⟩] = [] := by
    simp [committedPart]
  have hafter : image (content oneBlock) [⟨0, .pageWrite, 0, onesPage⟩] 0 = onesPage := by
    simp [image, lastWrite]
  rw [hcommitted, hafter]
  exact onesPage_ne

end Uncommitted

end StorageEngine

end Replay

end Oikos.Archon
