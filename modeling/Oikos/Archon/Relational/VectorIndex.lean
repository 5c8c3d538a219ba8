/-
The IVFFlat index of `tpt-archon-relational`: vectors in clusters around
centroids, found by k-means on unit vectors.  An index knows that each centroid
has its list and that every row is in one of the lists.
-/
import Oikos.Archon.Relational.Executor
import Oikos.Lib.Bits
import Std.Data.TreeMap.Lemmas
import Mathlib.Tactic.Common

namespace Oikos.Archon.Relational

open List

open Std (TreeMap)

def minRowsForIndex : Nat := 1000

def defaultNprobe : Nat := 8

def kmeansIters : Nat := 4

/-- A square root by Newton steps from a first guess made on the bits, which are
those of a positive number or of the canonical NaN. -/
def sqrtF32 (x : Float32) : Float32 :=
  if x ≤ 0 then 0
  else
    let guess := Float32.ofBits ((0x5f3759df : UInt32) - (x.toBits >>> 1))
    let newton := fun (y : Float32) => y * (1.5 - 0.5 * x * y * y)
    x * newton (newton (newton (newton guess)))

def normalize (v : List F32) : List F32 :=
  let norm := sqrtF32 (dot v v)
  if norm == 0 then v else v.map fun x => F32.ofFloat (x.toFloat / norm)

/-- The better of two scored candidates; the later one on a tie. -/
def better (best : Option (Nat × Float32)) (p : Nat × Float32) : Option (Nat × Float32) :=
  match best with
  | none => some p
  | some b => if cmpFloat b.2 p.2 = .gt then some b else some p

def nearestCluster (centroids : List (List F32)) (unitV : List F32) : Nat :=
  (((centroids.mapIdx fun i c => (i, dot c unitV)).foldl better none).map Prod.fst).getD 0

/-- The largest number up to `hi` whose square is at most `n`, if `lo` is one. -/
def sqrtSearch (n lo hi : Nat) : Nat :=
  if lo < hi then
    let mid := lo + (hi - lo + 1) / 2
    if mid * mid ≤ n then sqrtSearch n mid hi else sqrtSearch n lo (mid - 1)
  else lo
termination_by hi - lo

def nlistFor (n : Nat) : Nat :=
  Nat.min (Nat.max (sqrtSearch n 0 n) 1) 256

def seedCentroids (unitVectors : List (List F32)) (nlist : Nat) : List (List F32) :=
  (List.range nlist).map fun i => unitVectors.getD (i * unitVectors.length / nlist) []

/-- Update the elements of a list that have a partner in another. -/
def zipInto {α β : Type} (f : α → β → α) : List α → List β → List α
  | a :: as, b :: bs => f a b :: zipInto f as bs
  | as, _ => as

def lloydPass (dim : Nat) (unitVectors : List (List F32)) (centroids : List (List F32)) :
    List (List F32) :=
  let start := centroids.map fun _ => (List.replicate dim (0 : Float32), 0)
  let sums := unitVectors.foldl
    (fun sums uv => sums.modify (nearestCluster centroids uv) fun s =>
      (zipInto (fun a x => a + x.toFloat) s.1 uv, s.2 + 1)) start
  List.zipWith
    (fun c (s : List Float32 × Nat) =>
      if s.2 > 0 then
        normalize (zipInto (fun _ sum => F32.ofFloat (sum / Float32.ofNat s.2)) c s.1)
      else c)
    centroids sums

theorem length_foldl_modify {α β : Type} (step : β → Nat × (α → α)) (bs : List β) (as : List α) :
    (bs.foldl (fun as b => as.modify (step b).1 (step b).2) as).length = as.length := by
  induction bs generalizing as with
  | nil => rfl
  | cons b bs ih => rw [foldl_cons, ih, length_modify]

theorem length_lloydPass (dim : Nat) (unitVectors centroids : List (List F32)) :
    (lloydPass dim unitVectors centroids).length = centroids.length := by
  rw [lloydPass, length_zipWith]
  have h := length_foldl_modify
    (fun uv : List F32 => (nearestCluster centroids uv, fun s : List Float32 × Nat =>
      (zipInto (fun a x => a + x.toFloat) s.1 uv, s.2 + 1))) unitVectors
    (centroids.map fun _ => (replicate dim (0 : Float32), 0))
  rw [h, length_map, Nat.min_self]

/-- `f` applied `n` times. -/
def iterate {α : Type} (f : α → α) : Nat → α → α
  | 0, x => x
  | n + 1, x => iterate f n (f x)

theorem length_iterate_lloydPass (dim n : Nat) (unitVectors centroids : List (List F32)) :
    (iterate (lloydPass dim unitVectors) n centroids).length = centroids.length := by
  induction n generalizing centroids with
  | zero => rfl
  | succ n ih => rw [iterate, ih, length_lloydPass]

theorem foldl_better_lt {n : Nat} {l : List (Nat × Float32)} (hl : ∀ p ∈ l, p.1 < n)
    (best : Option (Nat × Float32)) (hbest : ∀ p, best = some p → p.1 < n) :
    ∀ p, l.foldl better best = some p → p.1 < n := by
  induction l generalizing best with
  | nil => exact hbest
  | cons q l ih =>
    refine ih (fun p hp => hl p (mem_cons_of_mem q hp)) _ ?_
    have hq := hl q mem_cons_self
    intro p hp
    cases best with
    | none =>
      obtain rfl : q = p := by simpa [better] using hp
      exact hq
    | some b =>
      simp only [better] at hp
      split at hp
      · exact hbest p hp
      · obtain rfl : q = p := by simpa using hp
        exact hq

theorem nearestCluster_lt {centroids : List (List F32)} (h : 0 < centroids.length)
    (unitV : List F32) : nearestCluster centroids unitV < centroids.length := by
  have hl : ∀ p ∈ centroids.mapIdx (fun i c => (i, dot c unitV)), p.1 < centroids.length := by
    intro p hp
    obtain ⟨i, hi, rfl⟩ := mem_mapIdx.mp hp
    exact hi
  have hlt := foldl_better_lt hl none (by simp)
  unfold nearestCluster
  cases hfold : (centroids.mapIdx fun i c => (i, dot c unitV)).foldl better none with
  | none => simpa using h
  | some p => simpa using hlt p hfold

/-- An index: the centroids, the rows of each cluster, and the cluster of each
row. -/
structure IvfFlatIndex where
  dim : Nat
  centroids : List (List F32)
  lists : List (List (UInt64 × List F32))
  idToList : TreeMap UInt64 Nat
  nonempty : 0 < centroids.length
  size : lists.length = centroids.length
  assigned : ∀ (id : UInt64) (c : Nat), idToList[id]? = some c → c < lists.length

namespace IvfFlatIndex

def remove (ix : IvfFlatIndex) (id : UInt64) : IvfFlatIndex :=
  match ix.idToList[id]? with
  | none => ix
  | some c =>
    { ix with
      lists := ix.lists.modify c fun rows => rows.filter fun p => p.1 != id
      idToList := ix.idToList.erase id
      size := by rw [List.length_modify, ix.size]
      assigned := by
        intro id' c' h
        rw [List.length_modify]
        rw [Std.TreeMap.getElem?_erase] at h
        split at h
        · cases h
        · exact ix.assigned id' c' h }

def add (ix : IvfFlatIndex) (id : UInt64) (v unitV : List F32) : IvfFlatIndex :=
  let c := nearestCluster ix.centroids unitV
  { ix with
    lists := ix.lists.modify c fun rows => rows ++ [(id, v)]
    idToList := ix.idToList.insert id c
    size := by rw [List.length_modify, ix.size]
    assigned := by
      intro id' c' h
      rw [List.length_modify]
      rw [Std.TreeMap.getElem?_insert] at h
      split at h
      · obtain rfl : c = c' := by simpa using h
        rw [ix.size]
        exact nearestCluster_lt ix.nonempty unitV
      · exact ix.assigned id' c' h }

/-- Put a row into the index, in place of what it held for the row. -/
def insert (ix : IvfFlatIndex) (id : UInt64) (v : List F32) : IvfFlatIndex :=
  (ix.remove id).add id v (normalize v)

theorem nlistFor_pos (n : Nat) : 0 < nlistFor n := by
  unfold nlistFor
  exact Nat.lt_min.mpr ⟨lt_of_lt_of_le Nat.one_pos (Nat.le_max_right _ _), by decide⟩

def build (vectors : List (UInt64 × List F32)) : IvfFlatIndex :=
  let dim := (vectors.head?.map fun p => p.2.length).getD 0
  let nlist := nlistFor vectors.length
  let unitVectors := vectors.map fun p => normalize p.2
  let centroids := iterate (lloydPass dim unitVectors) kmeansIters (seedCentroids unitVectors nlist)
  have hlen : centroids.length = nlist := by
    simp [centroids, length_iterate_lloydPass, seedCentroids]
  let empty : IvfFlatIndex :=
    { dim := dim
      centroids := centroids
      lists := List.replicate nlist []
      idToList := ∅
      nonempty := by rw [hlen]; exact nlistFor_pos _
      size := by rw [hlen, List.length_replicate]
      assigned := by simp }
  (vectors.zip unitVectors).foldl (fun ix p => ix.add p.1.1 p.1.2 p.2) empty

/-- The ids of the approximately `k` nearest rows, from the `nprobe` clusters
closest in direction. -/
def search (ix : IvfFlatIndex) (query : List F32) (k nprobe : Nat) : List UInt64 :=
  let nprobe := Nat.min (Nat.max nprobe 1) ix.centroids.length
  let unitQuery := normalize query
  let ranked := (ix.centroids.mapIdx fun i c => (i, dot c unitQuery)).mergeSort
    fun a b => cmpFloat b.2 a.2 != .gt
  let scored := (ranked.take nprobe).flatMap fun p =>
    (ix.lists.getD p.1 []).map fun q => (q.1, dot q.2 query)
  let sorted := scored.mergeSort fun a b => cmpFloat b.2 a.2 != .gt
  (sorted.take k).map Prod.fst

end IvfFlatIndex

end Oikos.Archon.Relational
