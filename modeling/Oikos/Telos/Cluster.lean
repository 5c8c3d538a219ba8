/-
The pool of solver workers: one queue of tasks for each worker thread, and one
channel on which all of them send results to the caller of `verify_all`.
-/
import Mathlib.Algebra.BigOperators.Fin
import Mathlib.Algebra.BigOperators.Group.Finset.Piecewise
import Mathlib.Data.List.Forall2
import Mathlib.Data.Multiset.Filter
import Mathlib.Data.Multiset.OrderedMonoid
import Mathlib.Data.Multiset.Range
import Mathlib.Logic.Relation

namespace Oikos.Telos

open List

universe u v

variable {P : Type u} {R : Type v}

/-- What a worker has in hand: nothing, a task, or a result it has still to send. -/
inductive Hand (P : Type u) (R : Type v) where
  | empty
  | task (idx : Nat) (problem : P)
  | result (idx : Nat) (result : R)

structure Worker (P : Type u) (R : Type v) where
  taskRx : List (Nat × P)
  hand : Hand P R

structure SolverPool (num : Nat) (P : Type u) (R : Type v) where
  workers : Fin num → Worker P R
  resultRx : List (Nat × R)

def SolverPool.new (num : Nat) : SolverPool num P R :=
  ⟨fun _ => ⟨[], .empty⟩, []⟩

/-- Where the caller is in a call of `verify_all`. -/
inductive Caller (P : Type u) (R : Type v) where
  | between
  | sending (problems : List P) (next : Nat)
  | collecting (problems : List P) (results : List (Option R)) (received : Nat)
  | panicked

/-- A pool, the calls of `verify_all` that are still to be made on it, and what the
earlier ones returned. -/
structure Session (num : Nat) (P : Type u) (R : Type v) where
  pool : SolverPool num P R
  caller : Caller P R
  calls : List (List P)
  returned : List (List P × List R)

def Session.start (num : Nat) (calls : List (List P)) : Session num P R :=
  ⟨.new num, .between, calls, []⟩

variable {num : Nat}

def SolverPool.setWorker (pool : SolverPool num P R) (i : Fin num) (w : Worker P R) :
    SolverPool num P R :=
  { pool with workers := Function.update pool.workers i w }

/-- One step of a worker or of the caller; which result a worker finds for a problem is
what `Verifies` allows. -/
inductive Step (Verifies : P → R → Prop) : Session num P R → Session num P R → Prop
  | receive {s : Session num P R} {i : Fin num} {idx : Nat} {problem : P} {rest : List (Nat × P)}
      (h : s.pool.workers i = ⟨(idx, problem) :: rest, .empty⟩) :
      Step Verifies s { s with pool := s.pool.setWorker i ⟨rest, .task idx problem⟩ }
  | verify {s : Session num P R} {i : Fin num} {idx : Nat} {problem : P} {tasks : List (Nat × P)}
      {r : R} (h : s.pool.workers i = ⟨tasks, .task idx problem⟩) (hr : Verifies problem r) :
      Step Verifies s { s with pool := s.pool.setWorker i ⟨tasks, .result idx r⟩ }
  | send {s : Session num P R} {i : Fin num} {idx : Nat} {tasks : List (Nat × P)} {r : R}
      (h : s.pool.workers i = ⟨tasks, .result idx r⟩) :
      Step Verifies s { s with pool :=
        ⟨(s.pool.setWorker i ⟨tasks, .empty⟩).workers, s.pool.resultRx ++ [(idx, r)]⟩ }
  | callEmpty {s : Session num P R} {calls : List (List P)} (h : s.caller = .between)
      (hcalls : s.calls = [] :: calls) :
      Step Verifies s { s with calls := calls, returned := s.returned ++ [([], [])] }
  | call {s : Session num P R} {problems : List P} {calls : List (List P)}
      (h : s.caller = .between) (hcalls : s.calls = problems :: calls) (hne : problems ≠ []) :
      Step Verifies s { s with caller := .sending problems 0, calls := calls }
  | dispatch {s : Session num P R} {problems : List P} {next : Nat} {problem : P} {i : Fin num}
      (h : s.caller = .sending problems next) (hproblem : problems[next]? = some problem)
      (hi : i.val = next % num) :
      Step Verifies s { s with
        pool := s.pool.setWorker i
          ⟨(s.pool.workers i).taskRx ++ [(next, problem)], (s.pool.workers i).hand⟩,
        caller := .sending problems (next + 1) }
  | dispatched {s : Session num P R} {problems : List P}
      (h : s.caller = .sending problems problems.length) :
      Step Verifies s { s with
        caller := .collecting problems (List.replicate problems.length none) 0 }
  | collect {s : Session num P R} {problems : List P} {results : List (Option R)} {received : Nat}
      {idx : Nat} {r : R} {rest : List (Nat × R)}
      (h : s.caller = .collecting problems results received) (hlt : received < problems.length)
      (hrx : s.pool.resultRx = (idx, r) :: rest) :
      Step Verifies s { s with
        pool := { s.pool with resultRx := rest },
        caller :=
          if idx < results.length then
            .collecting problems (results.set idx (some r)) (received + 1)
          -- `results[idx]` is out of bounds
          else .panicked }
  | finish {s : Session num P R} {problems : List P} {results : List (Option R)} {received : Nat}
      (h : s.caller = .collecting problems results received) (hge : problems.length ≤ received) :
      Step Verifies s
        (match results.mapM id with
        | some rs => { s with caller := .between, returned := s.returned ++ [(problems, rs)] }
        -- `unwrap` of a result that is missing
        | none => { s with caller := .panicked })

/-! ### What is in flight -/

section InFlight

variable {ι M α : Type*} [Fintype ι] [DecidableEq ι] [AddCommMonoid M]

open Finset in
theorem sum_update_add (w : ι → α) (j : ι) (x : α) (f : α → M) :
    ∑ i, f (Function.update w j x i) + f (w j) = ∑ i, f (w i) + f x := by
  have hrest : ∑ i ∈ univ.erase j, f (Function.update w j x i) = ∑ i ∈ univ.erase j, f (w i) :=
    sum_congr rfl fun i hi => by simp [ne_of_mem_erase hi]
  rw [← add_sum_erase univ (fun i => f (Function.update w j x i)) (mem_univ j),
    ← add_sum_erase univ (fun i => f (w i)) (mem_univ j), hrest, Function.update_self]
  ac_rfl

end InFlight

def Hand.indices : Hand P R → Multiset Nat
  | .empty => 0
  | .task idx _ => {idx}
  | .result idx _ => {idx}

def Worker.indices (w : Worker P R) : Multiset Nat :=
  (w.taskRx.map Prod.fst : List Nat) + w.hand.indices

/-- The places of all problems that were sent and whose results were not collected. -/
def SolverPool.inFlight (pool : SolverPool num P R) : Multiset Nat :=
  ∑ i, (pool.workers i).indices + (pool.resultRx.map Prod.fst : List Nat)

theorem SolverPool.inFlight_setWorker (pool : SolverPool num P R) (i : Fin num) (w : Worker P R) :
    (pool.setWorker i w).inFlight + (pool.workers i).indices = pool.inFlight + w.indices := by
  have h := sum_update_add pool.workers i w Worker.indices
  simp only [inFlight, setWorker]
  rw [add_right_comm, h, add_right_comm]

theorem SolverPool.inFlight_new : (SolverPool.new num : SolverPool num P R).inFlight = 0 := by
  simp [inFlight, new, Worker.indices, Hand.indices]

/-- The places whose results are missing. -/
def outstanding (results : List (Option R)) : Multiset Nat :=
  (Multiset.range results.length).filter fun k => (results[k]?.join).isNone

variable {results : List (Option R)}

theorem mem_outstanding {k : Nat} : k ∈ outstanding results ↔ results[k]? = some none := by
  rw [outstanding, Multiset.mem_filter, Multiset.mem_range]
  constructor
  · rintro ⟨hlt, h⟩
    rw [getElem?_eq_getElem hlt] at h ⊢
    simpa using h
  · intro h
    exact ⟨(List.getElem?_eq_some_iff.mp h).1, by simp [h]⟩

theorem nodup_outstanding (results : List (Option R)) : (outstanding results).Nodup :=
  (Multiset.nodup_range _).filter _

theorem outstanding_replicate (n : Nat) :
    outstanding (replicate n (none : Option R)) = Multiset.range n := by
  rw [outstanding, length_replicate, Multiset.filter_eq_self]
  intro k hk
  simp [Multiset.mem_range.mp hk]

theorem outstanding_set {idx : Nat} {r : R} (h : idx ∈ outstanding results) :
    idx ::ₘ outstanding (results.set idx (some r)) = outstanding results := by
  have hnot : idx ∉ outstanding (results.set idx (some r)) := by
    rw [mem_outstanding, getElem?_set_self]
    · simp
    · exact (List.getElem?_eq_some_iff.mp (mem_outstanding.mp h)).1
  refine (Multiset.Nodup.ext (Multiset.nodup_cons.mpr ⟨hnot, nodup_outstanding _⟩)
    (nodup_outstanding _)).mpr fun k => ?_
  rw [Multiset.mem_cons]
  by_cases hk : k = idx
  · simp [hk, h]
  · simp [hk, mem_outstanding, getElem?_set_ne (Ne.symm hk)]

theorem mapM_of_outstanding (h : outstanding results = 0) :
    ∃ rs, results.mapM id = some rs ∧ results = rs.map some := by
  have hall : ∀ x ∈ results, x ≠ none := by
    rintro x hx rfl
    obtain ⟨k, hk⟩ := mem_iff_getElem?.mp hx
    exact Multiset.notMem_zero k (h ▸ mem_outstanding.mpr hk)
  clear h
  induction results with
  | nil => exact ⟨[], rfl, rfl⟩
  | cons x results ih =>
    obtain ⟨rs, hrs, heq⟩ := ih fun y hy => hall y (mem_cons_of_mem x hy)
    obtain ⟨r, rfl⟩ := Option.ne_none_iff_exists'.mp (hall x mem_cons_self)
    exact ⟨r :: rs, by simp [mapM_cons, hrs], by simp [heq]⟩

/-! ### The invariant -/

section Invariant

variable (Verifies : P → R → Prop)

def Hand.Right (problems : List P) : Hand P R → Prop
  | .empty => True
  | .task idx problem => problems[idx]? = some problem
  | .result idx r => ∃ problem, problems[idx]? = some problem ∧ Verifies problem r

/-- What is on its way belongs to the problems of the call. -/
structure SolverPool.Right (problems : List P) (pool : SolverPool num P R) : Prop where
  tasks : ∀ i, ∀ t ∈ (pool.workers i).taskRx, problems[t.1]? = some t.2
  hands : ∀ i, (pool.workers i).hand.Right Verifies problems
  results : ∀ t ∈ pool.resultRx, ∃ problem, problems[t.1]? = some problem ∧ Verifies problem t.2

/-- The problems of the call that is going on. -/
def Caller.problems : Caller P R → List P
  | .between | .panicked => []
  | .sending problems _ | .collecting problems _ _ => problems

/-- The call that is going on. -/
def Caller.current : Caller P R → List (List P)
  | .between | .panicked => []
  | .sending problems _ | .collecting problems _ _ => [problems]

/-- What must be in flight. -/
def Caller.expects : Caller P R → Multiset Nat
  | .between | .panicked => 0
  | .sending _ next => Multiset.range next
  | .collecting _ results _ => outstanding results

def Caller.Sound : Caller P R → Prop
  | .between => True
  | .sending problems next => next ≤ problems.length
  | .collecting problems results received =>
    results.length = problems.length ∧
      received + (outstanding results).card = problems.length ∧
        ∀ (k : Nat) (r : R), results[k]? = some (some r) →
          ∃ problem, problems[k]? = some problem ∧ Verifies problem r
  | .panicked => False

structure Session.Inv (calls : List (List P)) (s : Session num P R) : Prop where
  inFlight : s.pool.inFlight = s.caller.expects
  right : s.pool.Right Verifies s.caller.problems
  sound : s.caller.Sound Verifies
  returned : ∀ c ∈ s.returned, List.Forall₂ Verifies c.1 c.2
  order : s.returned.map Prod.fst ++ s.caller.current ++ s.calls = calls

variable {Verifies}

theorem SolverPool.eq_new {pool : SolverPool num P R} (h : pool.inFlight = 0) :
    pool = SolverPool.new num := by
  obtain ⟨hworkers, hrx⟩ := add_eq_zero.mp h
  have hworker : ∀ i, pool.workers i = ⟨[], .empty⟩ := by
    intro i
    have hi := Finset.sum_eq_zero_iff.mp hworkers i (Finset.mem_univ i)
    obtain ⟨htasks, hhand⟩ := add_eq_zero.mp hi
    have hnil : (pool.workers i).taskRx = [] := by simpa using htasks
    have hempty : (pool.workers i).hand = .empty := by
      cases hcase : (pool.workers i).hand <;> simp [hcase, Hand.indices] at hhand ⊢
    rw [← hnil, ← hempty]
  have hresults : pool.resultRx = [] := by simpa using hrx
  rw [SolverPool.new, ← hresults, ← funext hworker]

theorem SolverPool.right_of_inFlight {pool : SolverPool num P R} (h : pool.inFlight = 0)
    (problems : List P) : pool.Right Verifies problems := by
  rw [SolverPool.eq_new h]
  exact ⟨by simp [SolverPool.new], fun _ => trivial, by simp [SolverPool.new]⟩

theorem SolverPool.Right.setWorker {problems : List P} {pool : SolverPool num P R}
    (h : pool.Right Verifies problems) {i : Fin num} {w : Worker P R}
    (htasks : ∀ t ∈ w.taskRx, problems[t.1]? = some t.2)
    (hhand : w.hand.Right Verifies problems) :
    (pool.setWorker i w).Right Verifies problems := by
  refine ⟨fun j => ?_, fun j => ?_, h.results⟩
  · by_cases hj : j = i
    · simpa [SolverPool.setWorker, hj] using htasks
    · simpa [SolverPool.setWorker, hj] using h.tasks j
  · by_cases hj : j = i
    · simpa [SolverPool.setWorker, hj] using hhand
    · simpa [SolverPool.setWorker, hj] using h.hands j

theorem Session.inv_start (calls : List (List P)) :
    (Session.start num calls : Session num P R).Inv Verifies calls where
  inFlight := SolverPool.inFlight_new
  right := SolverPool.right_of_inFlight SolverPool.inFlight_new _
  sound := trivial
  returned := by simp [Session.start]
  order := by simp [Session.start, Caller.current]

variable {calls : List (List P)} {s t : Session num P R}

theorem Session.Inv.step (hs : s.Inv Verifies calls) (h : Step Verifies s t) :
    t.Inv Verifies calls := by
  cases h with
  | @receive i idx problem rest hw =>
    have htask : s.caller.problems[idx]? = some problem :=
      hs.right.tasks i (idx, problem) (by simp [hw])
    have hflight := s.pool.inFlight_setWorker i ⟨rest, .task idx problem⟩
    refine ⟨?_, hs.right.setWorker (fun t ht => hs.right.tasks i t ?_) htask, hs.sound,
      hs.returned, hs.order⟩
    · rw [hw] at hflight
      have hsame : (⟨(idx, problem) :: rest, .empty⟩ : Worker P R).indices =
          (⟨rest, .task idx problem⟩ : Worker P R).indices := by
        simp [Worker.indices, Hand.indices, ← Multiset.cons_coe, add_comm]
      rw [hsame] at hflight
      exact (add_right_cancel hflight).trans hs.inFlight
    · simp [hw, ht]
  | @verify i idx problem tasks r hw hr =>
    have htask := hs.right.hands i
    rw [hw] at htask
    have hflight := s.pool.inFlight_setWorker i ⟨tasks, .result idx r⟩
    refine ⟨?_, hs.right.setWorker (fun t ht => hs.right.tasks i t ?_) ⟨problem, htask, hr⟩,
      hs.sound, hs.returned, hs.order⟩
    · rw [hw] at hflight
      exact (add_right_cancel hflight).trans hs.inFlight
    · simpa [hw] using ht
  | @send i idx tasks r hw =>
    have hresult := hs.right.hands i
    rw [hw] at hresult
    have hflight := s.pool.inFlight_setWorker i ⟨tasks, .empty⟩
    have hright : (s.pool.setWorker i ⟨tasks, .empty⟩).Right Verifies s.caller.problems :=
      hs.right.setWorker (fun t ht => hs.right.tasks i t (by simpa [hw] using ht)) trivial
    refine ⟨?_, ⟨hright.tasks, hright.hands, ?_⟩, hs.sound, hs.returned, hs.order⟩
    · rw [hw] at hflight
      refine Eq.trans ?_ hs.inFlight
      refine add_right_cancel (b := (⟨tasks, .empty⟩ : Worker P R).indices) ?_
      rw [SolverPool.inFlight, map_append, ← Multiset.coe_add, ← add_assoc]
      change (s.pool.setWorker i ⟨tasks, .empty⟩).inFlight + {idx} + _ = _
      rw [add_assoc, ← hflight]
      simp [Worker.indices, Hand.indices, add_comm]
    · intro t ht
      rcases mem_append.mp ht with ht | ht
      · exact hs.right.results t ht
      · rw [mem_singleton.mp ht]
        exact hresult
  | callEmpty h hcalls =>
    refine ⟨hs.inFlight, hs.right, hs.sound, fun c hc => ?_, ?_⟩
    · rcases mem_append.mp hc with hc | hc
      · exact hs.returned c hc
      · rw [mem_singleton.mp hc]
        exact .nil
    · rw [← hs.order, hcalls]
      simp [h, Caller.current]
  | call h hcalls hne =>
    have hzero : s.pool.inFlight = 0 := by rw [hs.inFlight, h, Caller.expects]
    refine ⟨hzero, SolverPool.right_of_inFlight hzero _, Nat.zero_le _, hs.returned, ?_⟩
    rw [← hs.order, hcalls]
    simp [h, Caller.current]
  | @dispatch problems next problem i h hproblem hi =>
    have hlt : next < problems.length := (List.getElem?_eq_some_iff.mp hproblem).1
    have hright := hs.right
    rw [h] at hright
    refine ⟨?_, hright.setWorker (fun t ht => ?_) (hright.hands i), hlt, hs.returned, ?_⟩
    · refine add_right_cancel (b := (s.pool.workers i).indices) ?_
      rw [SolverPool.inFlight_setWorker, hs.inFlight, h]
      simp [Caller.expects, Worker.indices, Multiset.range_succ, ← Multiset.singleton_add,
        ← Multiset.coe_add, add_assoc, add_comm, add_left_comm]
    · rcases mem_append.mp ht with ht | ht
      · exact hright.tasks i t ht
      · rw [mem_singleton.mp ht]
        exact hproblem
    · rw [← hs.order, h]
      rfl
  | @dispatched problems h =>
    have hflight := hs.inFlight
    have hright := hs.right
    rw [h] at hflight hright
    refine ⟨?_, hright, ⟨length_replicate, ?_, ?_⟩, hs.returned, ?_⟩
    · rw [hflight, Caller.expects, Caller.expects, outstanding_replicate]
    · simp [outstanding_replicate]
    · intro k r hk
      have := (List.getElem?_eq_some_iff.mp hk).2
      simp at this
    · rw [← hs.order, h]
      rfl
  | @collect problems results received idx r rest h hlt hrx =>
    have hflight := hs.inFlight
    have hright := hs.right
    have hsound := hs.sound
    rw [h] at hflight hright hsound
    obtain ⟨hlen, hcount, hresults⟩ := hsound
    -- a result that arrives is one of those that are missing
    have hcons : idx ::ₘ SolverPool.inFlight ⟨s.pool.workers, rest⟩ = outstanding results := by
      refine Eq.trans ?_ hflight
      rw [SolverPool.inFlight, SolverPool.inFlight, hrx]
      simp [← Multiset.cons_coe]
    have hidx : idx ∈ outstanding results := hcons ▸ Multiset.mem_cons_self _ _
    have hbound : idx < results.length := (List.getElem?_eq_some_iff.mp (mem_outstanding.mp hidx)).1
    have hset := outstanding_set (r := r) hidx
    rw [if_pos hbound]
    refine ⟨?_, ⟨hright.tasks, hright.hands, fun t ht => ?_⟩, ⟨by simpa using hlen, ?_, ?_⟩,
      hs.returned, ?_⟩
    · exact (Multiset.cons_inj_right idx).mp (hcons.trans hset.symm)
    · exact hright.results t (hrx ▸ mem_cons_of_mem _ ht)
    · rw [← hset, Multiset.card_cons] at hcount
      omega
    · intro k r' hk
      by_cases hkidx : k = idx
      · subst hkidx
        rw [getElem?_set_self hbound] at hk
        obtain rfl : r = r' := by simpa using hk
        exact hright.results (k, r) (hrx ▸ mem_cons_self)
      · rw [getElem?_set_ne (Ne.symm hkidx)] at hk
        exact hresults k r' hk
    · rw [← hs.order, h]
      rfl
  | @finish problems results received h hge =>
    have hflight := hs.inFlight
    have hsound := hs.sound
    rw [h] at hflight hsound
    obtain ⟨hlen, hcount, hresults⟩ := hsound
    have hnone : outstanding results = 0 := Multiset.card_eq_zero.mp (by omega)
    obtain ⟨rs, hmapM, hrs⟩ := mapM_of_outstanding hnone
    have hzero : s.pool.inFlight = 0 := hflight.trans hnone
    rw [hmapM]
    refine ⟨hzero, SolverPool.right_of_inFlight hzero _, trivial, fun c hc => ?_, ?_⟩
    · rcases mem_append.mp hc with hc | hc
      · exact hs.returned c hc
      · rw [mem_singleton.mp hc]
        subst hrs
        refine forall₂_iff_get.mpr ⟨by simpa using hlen.symm, fun k hk hk' => ?_⟩
        obtain ⟨problem, hproblem, hv⟩ := hresults k rs[k] (by simp)
        rw [getElem?_eq_getElem hk] at hproblem
        simpa [Option.some.inj hproblem] using hv
    · rw [← hs.order, h]
      simp [Caller.current]

theorem Session.Inv.steps (hs : s.Inv Verifies calls)
    (h : Relation.ReflTransGen (Step Verifies) s t) : t.Inv Verifies calls := by
  induction h with
  | refl => exact hs
  | tail _ hstep ih => exact ih.step hstep

/-! ### Termination and progress -/

def Hand.work : Hand P R → Nat
  | .empty => 0
  | .task _ _ => 3
  | .result _ _ => 2

def Worker.work (w : Worker P R) : Nat :=
  4 * w.taskRx.length + w.hand.work

def SolverPool.work (pool : SolverPool num P R) : Nat :=
  ∑ i, (pool.workers i).work + pool.resultRx.length

def Caller.work : Caller P R → Nat
  | .between | .panicked => 0
  | .sending problems next => 5 * (problems.length - next) + 2
  | .collecting _ _ _ => 1

/-- A bound on the number of steps that are left. -/
def Session.work (s : Session num P R) : Nat :=
  s.pool.work + s.caller.work + (s.calls.map fun problems => 5 * problems.length + 3).sum

theorem SolverPool.work_setWorker (pool : SolverPool num P R) (i : Fin num) (w : Worker P R) :
    (pool.setWorker i w).work + (pool.workers i).work = pool.work + w.work := by
  have h := sum_update_add pool.workers i w Worker.work
  simp only [work, setWorker]
  omega

theorem Step.work_lt (h : Step Verifies s t) : t.work < s.work := by
  cases h with
  | @receive i idx problem rest hw =>
    have hwork := s.pool.work_setWorker i ⟨rest, .task idx problem⟩
    rw [hw] at hwork
    simp only [Worker.work, Hand.work, length_cons] at hwork
    simp only [Session.work]
    omega
  | @verify i idx problem tasks r hw hr =>
    have hwork := s.pool.work_setWorker i ⟨tasks, .result idx r⟩
    rw [hw] at hwork
    simp only [Worker.work, Hand.work] at hwork
    simp only [Session.work]
    omega
  | @send i idx tasks r hw =>
    have hwork := s.pool.work_setWorker i ⟨tasks, .empty⟩
    rw [hw] at hwork
    simp only [Worker.work, Hand.work] at hwork
    have hpush : SolverPool.work ⟨(s.pool.setWorker i ⟨tasks, .empty⟩).workers,
        s.pool.resultRx ++ [(idx, r)]⟩ = (s.pool.setWorker i ⟨tasks, .empty⟩).work + 1 := by
      simp [SolverPool.work, SolverPool.setWorker, add_assoc]
    simp only [Session.work, hpush]
    omega
  | callEmpty h hcalls => simp [Session.work, hcalls]
  | @call problems calls h hcalls hne =>
    simp only [Session.work, h, hcalls, Caller.work, map_cons, sum_cons]
    omega
  | @dispatch problems next problem i h hproblem hi =>
    have hlt : next < problems.length := (List.getElem?_eq_some_iff.mp hproblem).1
    have hwork := s.pool.work_setWorker i
      ⟨(s.pool.workers i).taskRx ++ [(next, problem)], (s.pool.workers i).hand⟩
    simp only [Worker.work, length_append, length_singleton] at hwork
    simp only [Session.work, h, Caller.work]
    omega
  | dispatched h => simp [Session.work, h, Caller.work]
  | collect h hlt hrx =>
    simp only [Session.work, SolverPool.work, h, hrx, length_cons]
    split <;> simp only [Caller.work] <;> omega
  | finish h hge =>
    split <;> simp [Session.work, h, Caller.work]

theorem exists_step_of_worker (htotal : ∀ problem, ∃ r, Verifies problem r) {i : Fin num}
    (h : (s.pool.workers i).indices ≠ 0) : ∃ t, Step Verifies s t := by
  rcases hw : s.pool.workers i with ⟨tasks, hand⟩
  cases hand with
  | task idx problem =>
    obtain ⟨r, hr⟩ := htotal problem
    exact ⟨_, .verify hw hr⟩
  | result idx r => exact ⟨_, .send hw⟩
  | empty =>
    cases tasks with
    | nil => simp [hw, Worker.indices, Hand.indices] at h
    | cons task rest => exact ⟨_, .receive hw⟩

theorem Session.Inv.progress (hs : s.Inv Verifies calls) (hnum : 0 < num)
    (htotal : ∀ problem, ∃ r, Verifies problem r) :
    (∃ t, Step Verifies s t) ∨ s.returned.map Prod.fst = calls := by
  cases hcaller : s.caller with
  | panicked => exact (hcaller ▸ hs.sound : (Caller.panicked : Caller P R).Sound Verifies).elim
  | between =>
    cases hcalls : s.calls with
    | nil =>
      have horder := hs.order
      rw [hcaller, hcalls] at horder
      exact Or.inr (by simpa [Caller.current] using horder)
    | cons problems rest =>
      cases problems with
      | nil => exact Or.inl ⟨_, .callEmpty hcaller hcalls⟩
      | cons problem problems => exact Or.inl ⟨_, .call hcaller hcalls (cons_ne_nil _ _)⟩
  | sending problems next =>
    have hle := hs.sound
    rw [hcaller] at hle
    change next ≤ problems.length at hle
    by_cases hlt : next < problems.length
    · exact Or.inl ⟨_, .dispatch (i := ⟨next % num, Nat.mod_lt next hnum⟩) hcaller
        (getElem?_eq_getElem hlt) rfl⟩
    · obtain rfl : next = problems.length := by omega
      exact Or.inl ⟨_, .dispatched hcaller⟩
  | collecting problems results received =>
    have hsound := hs.sound
    have hflight := hs.inFlight
    rw [hcaller] at hsound hflight
    obtain ⟨hlen, hcount, _⟩ := hsound
    by_cases hlt : received < problems.length
    · cases hrx : s.pool.resultRx with
      | cons t rest => exact Or.inl ⟨_, .collect hcaller hlt hrx⟩
      | nil =>
        -- a missing result is still with one of the workers
        have hne : s.pool.inFlight ≠ 0 := by
          intro hzero
          have hnone : outstanding results = 0 := hflight.symm.trans hzero
          simp only [hnone, Multiset.card_zero] at hcount
          omega
        have hsum : ∑ i, (s.pool.workers i).indices ≠ 0 := by
          intro hzero
          simp [SolverPool.inFlight, hzero, hrx] at hne
        obtain ⟨i, _, hi⟩ := Finset.exists_ne_zero_of_sum_ne_zero hsum
        exact Or.inl (exists_step_of_worker htotal hi)
    · exact Or.inl ⟨_, .finish hcaller (by omega)⟩

end Invariant

theorem eq_map_of_forall₂ {Verifies : P → R → Prop} {verify : P → R}
    (hverify : ∀ problem r, Verifies problem r → r = verify problem) {problems : List P}
    {results : List R} (h : List.Forall₂ Verifies problems results) :
    results = problems.map verify := by
  induction h with
  | nil => rfl
  | cons hr _ ih => rw [map_cons, hverify _ _ hr, ih]

/-- Every schedule of any calls on a pool comes to an end, no thread is stuck before all
calls have returned, and a call returns what the worker finds for its problems in their
order. Between two calls the pool is as good as new. -/
theorem verifyAll_transparent (Verifies : P → R → Prop)
    (htotal : ∀ problem, ∃ r, Verifies problem r) (hnum : 0 < num) (calls : List (List P)) :
    WellFounded (fun t s : Session num P R => Step Verifies s t) ∧
      ∀ s : Session num P R, Relation.ReflTransGen (Step Verifies) (.start num calls) s →
        ((∃ t, Step Verifies s t) ∨ s.returned.map Prod.fst = calls) ∧
          s.returned.map Prod.fst <+: calls ∧
            (∀ c ∈ s.returned, List.Forall₂ Verifies c.1 c.2) ∧
              (∀ verify : P → R, (∀ problem r, Verifies problem r → r = verify problem) →
                ∀ c ∈ s.returned, c.2 = c.1.map verify) ∧
                s.caller ≠ .panicked ∧ (s.caller = .between → s.pool = .new num) := by
  refine ⟨Subrelation.wf (fun h => h.work_lt) (measure Session.work).wf, fun s hrun => ?_⟩
  have hs := (Session.inv_start calls).steps hrun
  refine ⟨hs.progress hnum htotal, ?_, hs.returned,
    fun verify hverify c hc => eq_map_of_forall₂ hverify (hs.returned c hc), fun h => ?_,
    fun h => SolverPool.eq_new (hs.inFlight.trans (by rw [h, Caller.expects]))⟩
  · rw [← hs.order, append_assoc]
    exact prefix_append _ _
  · have hsound := hs.sound
    rw [h] at hsound
    exact hsound

/-- Two workers that add one. -/
theorem verifyAll_two_workers :
    WellFounded (fun t s : Session 2 Nat Nat => Step (fun n r => r = n + 1) s t) ∧
      ∀ s : Session 2 Nat Nat,
        Relation.ReflTransGen (Step fun n r => r = n + 1) (.start 2 [[1, 2, 3], [], [4]]) s →
          (¬∃ t, Step (fun n r => r = n + 1) s t) →
            s.returned = [([1, 2, 3], [2, 3, 4]), ([], []), ([4], [5])] := by
  have hboth : WellFounded (fun t s : Session 2 Nat Nat => Step (fun n r => r = n + 1) s t) ∧ _ :=
    verifyAll_transparent (fun n r => r = n + 1) (fun n => ⟨n + 1, rfl⟩) (by decide)
      [[1, 2, 3], [], [4]]
  obtain ⟨hwf, hall⟩ := hboth
  refine ⟨hwf, fun s hrun hstuck => ?_⟩
  obtain ⟨hprogress, _, _, hresults, _⟩ := hall s hrun
  have hfst := hprogress.resolve_left hstuck
  have hsnd : s.returned.map Prod.snd = (s.returned.map Prod.fst).map (map (· + 1)) := by
    rw [map_map]
    exact map_congr_left fun c hc => hresults (· + 1) (fun _ _ h => h) c hc
  rw [hfst] at hsnd
  exact zip_of_prod hfst hsnd

end Oikos.Telos
