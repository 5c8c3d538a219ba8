/-
The buffer pool is transparent: what it returns for a block is what was last
written to the block through it, whatever was evicted and loaded meanwhile.
-/
import Oikos.Archon.PageOps

namespace Oikos.Archon

/-- A call on the pool; the page returned by `fetch_mut` may be modified. -/
inductive PoolCall where
  | fetch (b : BlockId)
  | fetchMut (b : BlockId) (modify : Page → Page)
  | unpin (b : BlockId)
  | flushAll

inductive PoolReply where
  | page (r : Except StorageError Page)
  | unpinned
  | flushed (r : Except StorageError Unit)

def PoolCall.block : PoolCall → Option BlockId
  | .fetch b => some b
  | .fetchMut b _ => some b
  | .unpin b => some b
  | .flushAll => none

/-- A pool together with the bytes last written to each block through it. -/
structure PoolRun (D : Type) where
  pool : BufferPool D
  latest : BlockId → Bytes

namespace PoolRun

variable {D : Type}

def call [BlockDevice D] (s : PoolRun D) : PoolCall → Result Empty (PoolReply × PoolRun D)
  | .fetch b => do
    let (pool, r) ← s.pool.fetch b
    .ok (.page r, { s with pool := pool })
  | .fetchMut b modify => do
    let (pool, r) ← s.pool.fetchMut b
    match r with
    | .error e => .ok (.page (.error e), { s with pool := pool })
    | .ok idx =>
      let f ← index pool.frames idx
      let pool ← pool.setPage idx (modify f.page)
      .ok (.page (.ok f.page),
        ⟨pool, fun c => if c = b then (modify f.page).bytes else s.latest c⟩)
  | .unpin b => do
    let pool ← s.pool.unpin b
    .ok (.unpinned, { s with pool := pool })
  | .flushAll => do
    let (pool, r) ← s.pool.flushAll
    .ok (.flushed r, { s with pool := pool })

def step [BlockDevice D] (s : PoolRun D) (c : PoolCall) : Result Empty (PoolRun D) := do
  let (_, s) ← s.call c
  .ok s

variable [ReliableDevice D] {s s' : PoolRun D} {c : PoolCall} {d : D}

/-- What a call may do: panic because a pin count is at its limit, or answer with
the latest bytes, keep pinned frames, and on `flush_all` bring the device up to
date. -/
theorem call_cases (h : s.pool.Inv s.latest)
    (hc : ∀ b, c.block = some b → InRange s.pool.device b) :
    (s.call c = .error .panic ∧ ∃ b, c.block = some b ∧ 2 ^ 32 ≤ pinCount s.pool.frames b + 1) ∨
    ∃ reply s', s.call c = .ok (reply, s') ∧ s'.pool.Inv s'.latest ∧
      blockCount s'.pool.device = blockCount s.pool.device ∧
      (∀ b page, c.block = some b → reply = .page (.ok page) → page.bytes = s.latest b) ∧
      Keeps s.pool.frames s'.pool.frames ∧
      (c = .flushAll → reply = .flushed (.ok ()) ∧
        ∀ b, InRange s'.pool.device b → content s'.pool.device b = s'.latest b) := by
  cases c with
  | fetch b =>
    rcases h.fetch_cases (hc b rfl) with ⟨hp, hlim⟩ | ⟨hp, _⟩ | ⟨pool, idx, page, hp, hpin, hpage⟩
    · exact Or.inl ⟨by simp [call, hp], b, rfl, hlim⟩
    · refine Or.inr ⟨.page (.error .allFramesPinned), s, by simp [call, hp], h, rfl, ?_,
        keeps_refl h.cached, ?_⟩
      · rintro _ _ _ ⟨⟩
      · rintro ⟨⟩
    · refine Or.inr ⟨.page (.ok page), { s with pool := pool }, by simp [call, hp], hpin.inv,
        hpin.blockCount, ?_, hpin.keeps, ?_⟩
      · rintro b' page' ⟨⟩ ⟨⟩
        exact hpage
      · rintro ⟨⟩
  | fetchMut b modify =>
    rcases h.fetchMut_cases (hc b rfl) with
      ⟨hp, hlim⟩ | ⟨hp, _⟩ | ⟨pool, l, f, r, hp, hpin, hfs, rfl, hintent, hstate⟩
    · exact Or.inl ⟨by simp [call, hp], b, rfl, hlim⟩
    · refine Or.inr ⟨.page (.error .allFramesPinned), s, by simp [call, hp], h, rfl, ?_,
        keeps_refl h.cached, ?_⟩
      · rintro _ _ _ ⟨⟩
      · rintro ⟨⟩
    · have hinv := hpin.inv.setPage hfs hintent (modify f.page)
      refine Or.inr ⟨.page (.ok f.page), ⟨{ pool with
          frames := l ++ { f with page := modify f.page } :: r },
          fun c => if c = f.blockId then (modify f.page).bytes else s.latest c⟩, ?_, hinv,
        hpin.blockCount, ?_, ?_, ?_⟩
      · simp only [call, hp, ok_bind, BufferPool.setPage, BufferPool.index_cut hfs,
          BufferPool.setFrame_cut hfs]
      · rintro b' page' ⟨⟩ ⟨⟩
        exact (hpin.inv.cached.frame f (by simp [hfs])).page
      · intro i x hx hxpin
        obtain ⟨y, hy, hyid, hyfree⟩ := hpin.keeps i x hx hxpin
        rw [hfs] at hy
        by_cases hi : i = l.length
        · subst hi
          obtain rfl : f = y := by simpa using hy
          exact ⟨{ f with page := modify f.page }, by simp, hyid, hyfree⟩
        · exact ⟨y, by rw [← hy]; exact getElem?_swap hi, hyid, hyfree⟩
      · rintro ⟨⟩
  | unpin b =>
    obtain ⟨pool, hp, hinv, hkeep, _, hdev, _⟩ := h.unpin_spec b
    refine Or.inr ⟨.unpinned, { s with pool := pool }, by simp [call, hp], hinv, by rw [hdev],
      ?_, hkeep, ?_⟩
    · rintro _ _ _ ⟨⟩
    · rintro ⟨⟩
  | flushAll =>
    obtain ⟨pool, hp, hinv, hdev, hkeep, _, hcount, _⟩ := h.flushAll_spec
    refine Or.inr ⟨.flushed (.ok ()), { s with pool := pool }, by simp [call, hp], hinv, hcount,
      ?_, hkeep, fun _ => ⟨rfl, hdev⟩⟩
    rintro _ _ ⟨⟩

theorem inv_of_steps {calls : List PoolCall} (h : s.pool.Inv s.latest)
    (hcount : blockCount s.pool.device = blockCount d)
    (hrange : ∀ c ∈ calls, ∀ b, c.block = some b → InRange d b)
    (hrun : steps step s calls = .ok s') :
    s'.pool.Inv s'.latest ∧ blockCount s'.pool.device = blockCount d := by
  induction calls generalizing s with
  | nil =>
    obtain rfl : s = s' := by simpa [steps] using hrun
    exact ⟨h, hcount⟩
  | cons c calls ih =>
    have hc : ∀ b, c.block = some b → InRange s.pool.device b := fun b hb => by
      have := hrange c List.mem_cons_self b hb
      rwa [InRange, hcount]
    rcases call_cases h hc with ⟨hcall, _⟩ | ⟨reply, s₁, hcall, h₁, hcount₁, _⟩
    · simp [steps, step, hcall] at hrun
    · exact ih h₁ (hcount₁.trans hcount)
        (fun x hx => hrange x (List.mem_cons_of_mem c hx))
        (by simpa [steps, step, hcall] using hrun)

/-- After any run of calls no block is in two frames, and the next call either
panics on a pin count at its limit or does what it should: a page returned for a
block holds the bytes last written to it, frames that are pinned keep their
blocks, and after `flush_all` the device has the latest bytes of every block. -/
theorem pool_transparent {pool : BufferPool D} {capacity : Nat} {calls : List PoolCall}
    (hnew : BufferPool.new d capacity = .ok pool)
    (hrange : ∀ c ∈ calls, ∀ b, c.block = some b → InRange d b)
    (hrun : steps step ⟨pool, content d⟩ calls = .ok s) :
    (∀ (i j : Nat) (f f' : Frame), s.pool.frames[i]? = some f → s.pool.frames[j]? = some f' →
      f.state ≠ .free → f'.state ≠ .free → f.blockId = f'.blockId → i = j) ∧
    ∀ c : PoolCall, (∀ b, c.block = some b → InRange d b) →
      (s.call c = .error .panic ∧
        ∃ b, c.block = some b ∧ 2 ^ 32 ≤ pinCount s.pool.frames b + 1) ∨
      ∃ reply s', s.call c = .ok (reply, s') ∧
        (∀ b page, c.block = some b → reply = .page (.ok page) → page.bytes = s.latest b) ∧
        Keeps s.pool.frames s'.pool.frames ∧
        (c = .flushAll → reply = .flushed (.ok ()) ∧
          ∀ b, InRange d b → content s'.pool.device b = s'.latest b) := by
  obtain rfl := BufferPool.new_eq_ok hnew
  obtain ⟨hinv, hcount⟩ := inv_of_steps (d := d) (BufferPool.inv_empty d capacity) rfl hrange hrun
  refine ⟨?_, ?_⟩
  · intro i j f f' hf hf' _ _ heq
    have hi := (List.getElem?_eq_some_iff.mp hf).1
    have hj := (List.getElem?_eq_some_iff.mp hf').1
    have hmap : (s.pool.frames.map Frame.blockId)[i]? =
        (s.pool.frames.map Frame.blockId)[j]? := by
      simp [hf, hf', heq]
    exact (List.getElem?_inj (by simpa using hi) hinv.cached.distinct).mp hmap
  · intro c hc
    rcases call_cases hinv (c := c) (fun b hb => by
      have := hc b hb
      rwa [InRange, hcount]) with hpanic | ⟨reply, s', hcall, _, hcount', hpage, hkeep, hflush⟩
    · exact Or.inl hpanic
    · refine Or.inr ⟨reply, s', hcall, hpage, hkeep, fun hfl => ⟨(hflush hfl).1, ?_⟩⟩
      intro b hb
      refine (hflush hfl).2 b ?_
      rwa [InRange, hcount'.trans hcount]

/-- A block written through a pool of one frame over a device in memory is read
back by the next call. -/
theorem pool_transparent_write :
    ∃ pool s, BufferPool.new (InMemoryBlockDevice.new 4) 1 = .ok pool ∧
      steps step ⟨pool, content (InMemoryBlockDevice.new 4)⟩
        [.fetchMut 2 fun _ => Page.zeroed] = .ok s ∧
      ∀ reply s', s.call (.fetch 2) = .ok (reply, s') →
        ∀ page, reply = .page (.ok page) → page.bytes = s.latest 2 := by
  have hnew : BufferPool.new (InMemoryBlockDevice.new 4) 1 =
      .ok ⟨InMemoryBlockDevice.new 4, 1, [], []⟩ := rfl
  have hrange : InRange (InMemoryBlockDevice.new 4) 2 := by
    show (2 : UInt64) < 4
    decide
  have hinv := BufferPool.inv_empty (InMemoryBlockDevice.new 4) 1
  obtain ⟨s, hrun⟩ : ∃ s, steps step
      ⟨⟨InMemoryBlockDevice.new 4, 1, [], []⟩, content (InMemoryBlockDevice.new 4)⟩
      [.fetchMut 2 fun _ => Page.zeroed] = .ok s := by
    rcases call_cases (s := ⟨⟨InMemoryBlockDevice.new 4, 1, [], []⟩, _⟩)
      (c := .fetchMut 2 fun _ => Page.zeroed) hinv (by rintro b ⟨⟩; exact hrange) with
      ⟨_, _, _, hlim⟩ | ⟨reply, s, hcall, _⟩
    · simp [pinCount] at hlim
    · exact ⟨s, by simp [steps, step, hcall]⟩
  refine ⟨_, s, hnew, hrun, ?_⟩
  intro reply s' hcall page hreply
  have hcalls : ∀ c ∈ [PoolCall.fetchMut 2 fun _ => Page.zeroed], ∀ b, c.block = some b →
      InRange (InMemoryBlockDevice.new 4) b := by
    intro c hc b hb
    obtain rfl := List.mem_singleton.mp hc
    obtain rfl : 2 = b := Option.some.inj hb
    exact hrange
  rcases (pool_transparent hnew hcalls hrun).2 (.fetch 2) (by rintro b ⟨⟩; exact hrange) with
    ⟨hpanic, _⟩ | ⟨reply', s'', hcall', hpage, _⟩
  · rw [hpanic] at hcall
    cases hcall
  · obtain ⟨rfl, rfl⟩ : reply' = reply ∧ s'' = s' := by
      have heq := hcall'.symm.trans hcall
      simpa using heq
    exact hpage 2 page rfl hreply

end PoolRun

end Oikos.Archon
