/-
What the frames of a buffer pool owe to the blocks they cache.  `Cached` relates
frames and device to the bytes last written to each block; it does not depend on
the order of the frames.
-/
import Oikos.Archon.Page

namespace Oikos.Archon

open List

variable {D : Type} [ReliableDevice D] {d d' : D} {latest latest' : BlockId → Bytes}
  {f f' : Frame} {fs fs' : List Frame} {b : BlockId}

structure FrameOk (d : D) (latest : BlockId → Bytes) (f : Frame) : Prop where
  inRange : InRange d f.blockId
  page : f.page.bytes = latest f.blockId
  written : f.dirtyIntent = false → content d f.blockId = f.page.bytes
  not_free : f.state ≠ .free
  clean : f.state = .clean → f.dirtyIntent = false
  pinned : ∀ n, f.state = .pinned n → 0 < n

/-- The frames cache the latest bytes over the device. -/
structure Cached (d : D) (latest : BlockId → Bytes) (fs : List Frame) : Prop where
  frame : ∀ f ∈ fs, FrameOk d latest f
  distinct : (fs.map Frame.blockId).Nodup
  rest : ∀ b, InRange d b → b ∉ fs.map Frame.blockId → content d b = latest b

theorem Cached.perm (h : Cached d latest fs) (hp : fs.Perm fs') : Cached d latest fs' where
  frame f hf := h.frame f (hp.mem_iff.mpr hf)
  distinct := (hp.map _).nodup_iff.mp h.distinct
  rest b hb hnot := h.rest b hb fun hmem => hnot ((hp.map _).mem_iff.mp hmem)

theorem Cached.drop (h : Cached d latest (f :: fs)) (hf : content d f.blockId = f.page.bytes) :
    Cached d latest fs where
  frame x hx := h.frame x (mem_cons_of_mem f hx)
  distinct := (nodup_cons.mp h.distinct).2
  rest b hb hnot := by
    by_cases hfb : b = f.blockId
    · rw [hfb, hf, (h.frame f mem_cons_self).page]
    · exact h.rest b hb (by simpa [hfb] using hnot)

theorem Cached.load (h : Cached d latest fs) (hb : InRange d b)
    (hnew : b ∉ fs.map Frame.blockId) {page : Page} (hpage : page.bytes = content d b) :
    Cached d latest (⟨b, page, .pinned 1, false⟩ :: fs) where
  frame := by
    intro x hx
    rcases mem_cons.mp hx with rfl | hx
    · exact ⟨hb, hpage.trans (h.rest b hb hnew), fun _ => hpage.symm, by simp, by simp,
        by rintro n ⟨⟩; exact Nat.one_pos⟩
    · exact h.frame x hx
  distinct := nodup_cons.mpr ⟨hnew, h.distinct⟩
  rest c hc hnot := h.rest c hc fun hmem => hnot (mem_cons_of_mem _ hmem)

theorem Cached.replace (h : Cached d latest (f :: fs)) (hid : f'.blockId = f.blockId)
    (hlatest : ∀ b, b ≠ f.blockId → latest' b = latest b) (hf' : FrameOk d latest' f') :
    Cached d latest' (f' :: fs) where
  frame := by
    intro x hx
    rcases mem_cons.mp hx with rfl | hx
    · exact hf'
    · have hok := h.frame x (mem_cons_of_mem f hx)
      have hne : x.blockId ≠ f.blockId := fun heq =>
        (nodup_cons.mp h.distinct).1 (heq ▸ mem_map_of_mem hx)
      exact { hok with page := hok.page.trans (hlatest _ hne).symm }
  distinct := by
    rw [map_cons, hid]
    exact h.distinct
  rest b hb hnot := by
    rw [map_cons, hid] at hnot
    rw [h.rest b hb hnot, hlatest b fun heq => hnot (heq ▸ mem_cons_self)]

theorem Cached.writeBack (h : Cached d latest (f :: fs))
    (hcount : blockCount d' = blockCount d)
    (hd' : ∀ b, content d' b = if b = f.blockId then f.page.bytes else content d b) :
    Cached d' latest (f :: fs) where
  frame := by
    intro x hx
    have hok := h.frame x hx
    refine { hok with
      inRange := by
        have := hok.inRange
        rwa [InRange, ← hcount] at this
      written := fun hintent => ?_ }
    rw [hd']
    split
    · next heq => rw [(h.frame f mem_cons_self).page, hok.page, heq]
    · exact hok.written hintent
  distinct := h.distinct
  rest b hb hnot := by
    have hne : b ≠ f.blockId := by
      rintro rfl
      exact hnot mem_cons_self
    rw [hd', if_neg hne]
    exact h.rest b (by rwa [InRange, hcount] at hb) hnot

/-- The frames do not care which device holds the bytes. -/
theorem Cached.congr (h : Cached d latest fs) (hcount : blockCount d' = blockCount d)
    (hcontent : ∀ b, content d' b = content d b) : Cached d' latest fs where
  frame f hf := {
    h.frame f hf with
    inRange := by
      have := (h.frame f hf).inRange
      rwa [InRange, ← hcount] at this
    written := fun hintent => (hcontent _).trans ((h.frame f hf).written hintent) }
  distinct := h.distinct
  rest b hb hnot := (hcontent b).trans (h.rest b (by rwa [InRange, hcount] at hb) hnot)

theorem Cached.content_eq (h : Cached d latest fs) (hclean : ∀ f ∈ fs, f.dirtyIntent = false)
    (hb : InRange d b) : content d b = latest b := by
  by_cases hmem : b ∈ fs.map Frame.blockId
  · obtain ⟨f, hf, rfl⟩ := mem_map.mp hmem
    rw [(h.frame f hf).written (hclean f hf), (h.frame f hf).page]
  · exact h.rest b hb hmem

/-! ### Pins -/

def Frame.pins (f : Frame) : Nat :=
  match f.state with
  | .pinned n => n
  | _ => 0

def pinCount (fs : List Frame) (b : BlockId) : Nat :=
  (fs.map fun f => if f.blockId = b then f.pins else 0).sum

theorem pinCount_cut (l r : List Frame) (f : Frame) (b : BlockId) :
    pinCount (l ++ f :: r) b = (if f.blockId = b then f.pins else 0) + pinCount (l ++ r) b := by
  simp only [pinCount, map_append, map_cons, sum_append, sum_cons]
  omega

theorem pinCount_eq_zero (h : b ∉ fs.map Frame.blockId) : pinCount fs b = 0 := by
  induction fs with
  | nil => rfl
  | cons f fs ih =>
    rw [map_cons, mem_cons, not_or] at h
    rw [← nil_append (f :: fs), pinCount_cut, if_neg (Ne.symm h.1), nil_append,
      ih h.2]

theorem FrameOk.pins_pos_iff (h : FrameOk d latest f) :
    0 < f.pins ↔ f.state.isPinned = true := by
  unfold Frame.pins PageState.isPinned
  cases hs : f.state with
  | pinned n => simpa using h.pinned n hs
  | _ => simp

def Keeps (fs fs' : List Frame) : Prop :=
  ∀ (i : Nat) (f : Frame), fs[i]? = some f → f.state.isPinned = true →
    ∃ f' : Frame, fs'[i]? = some f' ∧ f'.blockId = f.blockId ∧ f'.state ≠ .free

theorem keeps_refl (h : Cached d latest fs) : Keeps fs fs := by
  intro i f hf _
  exact ⟨f, hf, rfl, (h.frame f (mem_of_getElem? hf)).not_free⟩

theorem getElem?_swap {l r : List Frame} {x y : Frame} {i : Nat} (h : i ≠ l.length) :
    (l ++ y :: r)[i]? = (l ++ x :: r)[i]? := by
  have hset : l ++ y :: r = (l ++ x :: r).set l.length y := by simp
  rw [hset, getElem?_set_ne (Ne.symm h)]

theorem keeps_swap {l r : List Frame} {x y : Frame} (h : Cached d latest (l ++ y :: r))
    (hxy : x.state.isPinned = true → y.blockId = x.blockId) :
    Keeps (l ++ x :: r) (l ++ y :: r) := by
  intro i f hf hpin
  by_cases hi : i = l.length
  · subst hi
    obtain rfl : x = f := by simpa using hf
    exact ⟨y, by simp, hxy hpin, (h.frame y (by simp)).not_free⟩
  · rw [← getElem?_swap (y := y) hi] at hf
    exact ⟨f, hf, rfl, (h.frame f (mem_of_getElem? hf)).not_free⟩

end Oikos.Archon
