/-
The cooperative scheduler of `tpt-archon-kernel`: a queue of tasks, each polled in its
turn until it is ready.
-/
import Mathlib.Data.List.Forall2
import Oikos.Lib.Bits

namespace Oikos.Archon

open List

inductive Poll where
  | pending
  | ready
deriving Repr, DecidableEq

structure Entry (T : Type) where
  id : UInt64
  task : T

structure Scheduler (T : Type) where
  queue : List (Entry T)
  nextId : UInt64

/-- A call on the scheduler. -/
inductive SchedulerCall (T : Type) where
  | spawn (task : T)
  | tick

def SchedulerCall.isTick {T : Type} : SchedulerCall T → Bool
  | .spawn _ => false
  | .tick => true

namespace Scheduler

variable {T : Type}

def new : Scheduler T :=
  ⟨[], 0⟩

def spawn (s : Scheduler T) (task : T) : Result Empty (UInt64 × Scheduler T) := do
  let nextId ← checkedSucc s.nextId
  .ok (s.nextId, ⟨s.queue ++ [⟨s.nextId, task⟩], nextId⟩)

variable (poll : T → Poll × T)

def tick (s : Scheduler T) : Option ((UInt64 × Poll) × Scheduler T) :=
  match s.queue with
  | [] => none
  | entry :: queue =>
    let (result, task) := poll entry.task
    some ((entry.id, result),
      { s with queue := if result = .pending then queue ++ [{ entry with task }] else queue })

/-- The number of ticks and the scheduler after them, if the loop ends in time. -/
def runToCompletion (fuel : Nat) (s : Scheduler T) : Option (Nat × Scheduler T) :=
  match fuel with
  | 0 => none
  | fuel + 1 =>
    match s.tick poll with
    | none => some (0, s)
    | some (_, s') => (runToCompletion fuel s').map fun (ticks, s'') => (ticks + 1, s'')

def step (s : Scheduler T) : SchedulerCall T → Result Empty (Scheduler T)
  | .spawn task => do
    let (_, s') ← s.spawn task
    .ok s'
  | .tick =>
    match s.tick poll with
    | none => .ok s
    | some (_, s') => .ok s'

/-! ### Completion -/

/-- The task is ready at its `n`-th poll. -/
inductive ReadyAt : T → Nat → Prop
  | ready {task : T} (h : (poll task).1 = .ready) : ReadyAt task 1
  | pending {task : T} {n : Nat} (h : (poll task).1 = .pending) (hrest : ReadyAt (poll task).2 n) :
      ReadyAt task (n + 1)

variable {poll} {s s' : Scheduler T} {ticks : Nat}

/-- The polls that the tasks of a queue need. -/
abbrev Needs (poll : T → Poll × T) (queue : List (Entry T)) (polls : List Nat) : Prop :=
  List.Forall₂ (fun (entry : Entry T) n => ReadyAt poll entry.task n) queue polls

variable {entry : Entry T}

theorem needs_concat {queue : List (Entry T)} {polls : List Nat} :
    Needs poll (queue ++ [entry]) polls ↔
      ∃ before n, polls = before ++ [n] ∧ Needs poll queue before ∧ ReadyAt poll entry.task n := by
  constructor
  · intro h
    induction queue generalizing polls with
    | nil =>
      obtain ⟨n, rest, hn, hrest, rfl⟩ := forall₂_cons_left_iff.mp h
      cases hrest
      exact ⟨[], n, rfl, .nil, hn⟩
    | cons first queue ih =>
      obtain ⟨m, rest, hm, hrest, rfl⟩ := forall₂_cons_left_iff.mp h
      obtain ⟨before, n, rfl, hbefore, hn⟩ := ih hrest
      exact ⟨m :: before, n, rfl, .cons hm hbefore, hn⟩
  · rintro ⟨before, n, rfl, hbefore, hn⟩
    exact rel_append hbefore (.cons hn .nil)

theorem runToCompletion_of_tick {fuel : Nat} {result : UInt64 × Poll} {s₁ : Scheduler T}
    (htick : s.tick poll = some (result, s₁))
    (hrun : s₁.runToCompletion poll fuel = some (ticks, s')) :
    s.runToCompletion poll (fuel + 1) = some (ticks + 1, s') := by
  rw [runToCompletion, htick]
  exact Option.map_eq_some_iff.mpr ⟨_, hrun, rfl⟩

/-- The loop ends exactly where every task is ready at some poll, and then it took as many
ticks as the tasks took polls. -/
theorem runToCompletion_iff :
    (∃ fuel, s.runToCompletion poll fuel = some (ticks, s')) ↔
      s' = ⟨[], s.nextId⟩ ∧ ∃ polls, Needs poll s.queue polls ∧ polls.sum = ticks := by
  constructor
  · rintro ⟨fuel, hrun⟩
    induction fuel generalizing s ticks with
    | zero => cases hrun
    | succ fuel ih =>
      obtain ⟨queue, nextId⟩ := s
      cases queue with
      | nil =>
        cases hrun
        exact ⟨rfl, [], .nil, rfl⟩
      | cons entry queue =>
        obtain ⟨⟨n, _⟩, hrest, heq⟩ := Option.map_eq_some_iff.mp hrun
        cases heq
        obtain ⟨rfl, polls, hpolls, rfl⟩ := ih hrest
        refine ⟨rfl, ?_⟩
        cases hpoll : (poll entry.task).1 with
        | ready =>
          rw [if_neg (by simp [hpoll])] at hpolls
          exact ⟨1 :: polls, .cons (.ready hpoll) hpolls, by simp [add_comm]⟩
        | pending =>
          rw [if_pos hpoll] at hpolls
          obtain ⟨before, m, rfl, hbefore, hm⟩ := needs_concat.mp hpolls
          exact ⟨(m + 1) :: before, .cons (.pending hpoll hm) hbefore, by simp; omega⟩
  · rintro ⟨rfl, polls, hpolls, rfl⟩
    obtain ⟨total, htotal⟩ : ∃ total, polls.sum = total := ⟨_, rfl⟩
    rw [htotal]
    induction total generalizing s polls with
    | zero =>
      obtain ⟨queue, nextId⟩ := s
      cases hpolls with
      | nil => exact ⟨1, rfl⟩
      | cons hn => cases hn <;> simp at htotal
    | succ total ih =>
      obtain ⟨queue, nextId⟩ := s
      cases hpolls with
      | nil => cases htotal
      | @cons entry n queue polls hn hrest =>
        cases hn with
        | ready hpoll =>
          have hsum : polls.sum = total := by simp at htotal; omega
          obtain ⟨fuel, hrun⟩ := @ih ⟨queue, nextId⟩ polls hrest hsum
          have htick : tick poll ⟨entry :: queue, nextId⟩ =
              some ((entry.id, .ready), ⟨queue, nextId⟩) := by simp [tick, hpoll]
          exact ⟨fuel + 1, runToCompletion_of_tick htick hrun⟩
        | @pending _ m hpoll hm =>
          have hsum : (polls ++ [m]).sum = total := by simp at htotal ⊢; omega
          obtain ⟨fuel, hrun⟩ := @ih ⟨queue ++ [⟨entry.id, (poll entry.task).2⟩], nextId⟩ _
            (needs_concat.mpr ⟨polls, m, rfl, hrest, hm⟩) hsum
          have htick : tick poll ⟨entry :: queue, nextId⟩ = some ((entry.id, .pending),
              ⟨queue ++ [⟨entry.id, (poll entry.task).2⟩], nextId⟩) := by simp [tick, hpoll]
          exact ⟨fuel + 1, runToCompletion_of_tick htick hrun⟩

/-! ### Turns -/

/-- Identifiers are not used again, and no two tasks share one. -/
structure Inv (s : Scheduler T) : Prop where
  below : ∀ entry ∈ s.queue, entry.id < s.nextId
  nodup : (s.queue.map Entry.id).Nodup

theorem inv_new : (new : Scheduler T).Inv :=
  ⟨nofun, nodup_nil⟩

theorem spawn_eq_ok {task : T} {id : UInt64} (h : s.spawn task = .ok (id, s')) :
    id = s.nextId ∧ s.nextId < s'.nextId ∧ s'.queue = s.queue ++ [⟨s.nextId, task⟩] := by
  obtain ⟨nextId, hnext, heq⟩ := bind_eq_ok.mp h
  cases heq
  have hlt : nextId.toNat = s.nextId.toNat + 1 := checkedSucc_eq_ok hnext
  exact ⟨rfl, UInt64.lt_iff_toNat_lt.mpr (hlt ▸ Nat.lt_succ_self _), rfl⟩

theorem getElem?_append_of_eq_some {l : List (Entry T)} {i : Nat}
    (h : l[i]? = some entry) (l' : List (Entry T)) : (l ++ l')[i]? = some entry := by
  obtain ⟨hlt, -⟩ := List.getElem?_eq_some_iff.mp h
  rw [getElem?_append_left hlt, h]

/-- The first task is polled, and waits behind the others if it is not ready. -/
theorem tick_eq {queue : List (Entry T)} (h : s.queue = entry :: queue) :
    ∃ s', s.tick poll = some ((entry.id, (poll entry.task).1), s') ∧ s'.nextId = s.nextId ∧
      ∃ rest : List (Entry T), s'.queue = queue ++ rest ∧
        (rest.map Entry.id).Sublist [entry.id] := by
  rw [tick, h]
  refine ⟨_, rfl, rfl, ?_⟩
  dsimp only
  split
  · exact ⟨_, rfl, Sublist.refl _⟩
  · exact ⟨[], (append_nil _).symm, nil_sublist _⟩

theorem Inv.step (h : s.Inv) {call : SchedulerCall T} (hstep : s.step poll call = .ok s') :
    s'.Inv := by
  cases call with
  | spawn task =>
    obtain ⟨⟨id, s₁⟩, hspawn, heq⟩ := bind_eq_ok.mp hstep
    cases heq
    obtain ⟨-, hlt, hqueue⟩ := spawn_eq_ok hspawn
    refine ⟨fun entry hentry => ?_, ?_⟩
    · rw [hqueue, mem_append, mem_singleton] at hentry
      rcases hentry with hentry | rfl
      · exact UInt64.lt_trans (h.below entry hentry) hlt
      · exact hlt
    · rw [hqueue, map_append, nodup_append]
      refine ⟨h.nodup, by simp, fun a ha b hb => ?_⟩
      obtain ⟨entry, hentry, rfl⟩ := mem_map.mp ha
      obtain rfl := mem_singleton.mp hb
      exact UInt64.ne_of_lt (h.below entry hentry)
  | tick =>
    cases hqueue : s.queue with
    | nil =>
      rw [Scheduler.step, tick, hqueue] at hstep
      cases hstep
      exact h
    | cons entry queue =>
      obtain ⟨s₁, htick, hnext, rest, hrest, hsub⟩ := tick_eq hqueue
      rw [Scheduler.step, htick] at hstep
      cases hstep
      have hnodup := hqueue ▸ h.nodup
      have hids : ∀ e ∈ s'.queue, e.id ∈ s.queue.map Entry.id := fun e he => by
        rw [hqueue, map_cons, mem_cons]
        rcases mem_append.mp (hrest ▸ he) with he | he
        · exact .inr (mem_map_of_mem he)
        · exact .inl (mem_singleton.mp (hsub.subset (mem_map_of_mem he)))
      refine ⟨fun e he => ?_, ?_⟩
      · obtain ⟨old, hold, heq⟩ := mem_map.mp (hids e he)
        exact heq ▸ hnext ▸ h.below old hold
      · rw [hrest, map_append]
        refine (hsub.append_left _).nodup ?_
        exact (perm_append_singleton _ _).nodup_iff.mpr hnodup

/-- With `i` tasks before it a task waits for `i` ticks, whatever is spawned in between: the
next tick polls it as it was, and no other task has its identifier. -/
theorem polled_in_turn {calls calls' : List (SchedulerCall T)} {i : Nat}
    (hrun : steps (step poll) new calls = .ok s) (hentry : s.queue[i]? = some entry)
    (hrun' : steps (step poll) s calls' = .ok s')
    (hticks : calls'.countP SchedulerCall.isTick = i) :
    (∃ s'', s'.tick poll = some ((entry.id, (poll entry.task).1), s'')) ∧
      (s'.queue.map Entry.id).Nodup := by
  have hinv : s.Inv := steps_preserve (fun _ _ _ h hstep => h.step hstep) inv_new hrun
  refine ⟨?_, (steps_preserve (fun _ _ _ h hstep => Inv.step h hstep) hinv hrun').nodup⟩
  clear hinv hrun
  induction calls' generalizing s i with
  | nil =>
    cases hrun'
    subst hticks
    obtain ⟨queue, hqueue⟩ : ∃ queue, s'.queue = entry :: queue := head?_eq_some_iff.mp
      (head?_eq_getElem?.trans hentry)
    obtain ⟨s'', htick, -⟩ := tick_eq hqueue
    exact ⟨s'', htick⟩
  | cons call calls ih =>
    cases hstep : s.step poll call with
    | error e => simp [steps, hstep] at hrun'
    | ok s₁ =>
      simp only [steps, hstep] at hrun'
      cases call with
      | spawn task =>
        obtain ⟨⟨id, _⟩, hspawn, heq⟩ := bind_eq_ok.mp hstep
        cases heq
        obtain ⟨-, -, hqueue⟩ := spawn_eq_ok hspawn
        refine ih ?_ hrun' hticks
        rw [hqueue]
        exact getElem?_append_of_eq_some hentry _
      | tick =>
        cases hqueue : s.queue with
        | nil => simp [hqueue] at hentry
        | cons first queue =>
          obtain ⟨_, htick, -, rest, hrest, -⟩ := tick_eq hqueue
          rw [step, htick] at hstep
          cases hstep
          obtain rfl : calls.countP SchedulerCall.isTick + 1 = i := by
            rw [← hticks, countP_cons_of_pos rfl]
          rw [hqueue, getElem?_cons_succ] at hentry
          refine ih ?_ hrun' rfl
          rw [hrest]
          exact getElem?_append_of_eq_some hentry _

/-- Ready after as many polls as are left. -/
def countdown (remaining : Nat) : Poll × Nat :=
  if remaining = 0 then (.ready, 0) else (.pending, remaining - 1)

/-- Once the first task is back at the end, the second one is polled. -/
theorem second_polled_in_turn :
    let s' : Scheduler Nat := ⟨[⟨1, 1⟩, ⟨2, 0⟩, ⟨0, 1⟩], 3⟩
    (∃ s'', s'.tick countdown = some ((1, .pending), s'')) ∧ (s'.queue.map Entry.id).Nodup :=
  have hrun : steps (step countdown) new [.spawn 2, .spawn 1] = .ok ⟨[⟨0, 2⟩, ⟨1, 1⟩], 2⟩ := rfl
  have hrun' : steps (step countdown) ⟨[⟨0, 2⟩, ⟨1, 1⟩], 2⟩ [.spawn 0, .tick] =
    .ok ⟨[⟨1, 1⟩, ⟨2, 0⟩, ⟨0, 1⟩], 3⟩ := rfl
  polled_in_turn (i := 1) hrun rfl hrun' rfl

end Scheduler

end Oikos.Archon
