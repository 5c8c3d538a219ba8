/-
The audit log: handling an event reads the head of the hash chain and then
appends a row, in two calls to the store.  Handlers of different events may take
their steps in any order.
-/
import Oikos.Lib.GoText
import Oikos.Lib.Partial
import Mathlib.Logic.Function.Basic

namespace Oikos.Identity

open List

/-- An event of the bus, with the JSON of its payload if that can be marshalled. -/
structure Event where
  type : String
  payload : Option String
deriving Repr, DecidableEq

structure AuditEvent where
  seq : Nat
  eventType : String
  payload : String
  hash : String
  prevHash : String
deriving Repr, DecidableEq

namespace AuditLog

/-- What the handler of an event has done. -/
inductive Phase where
  | published
  | fetched (prevHash : String)
  | appended
deriving Repr, DecidableEq

/-- The table, in the order of `seq`, and the handlers. -/
structure State where
  rows : List AuditEvent
  phase : Nat → Phase

inductive Action where
  | getAuditHead (k : Nat)
  | appendAuditEvent (k : Nat)
deriving Repr, DecidableEq

def start : State :=
  ⟨[], fun _ => .published⟩

def getAuditHead (rows : List AuditEvent) : Option AuditEvent :=
  rows.getLast?

def headHash (rows : List AuditEvent) : String :=
  match getAuditHead rows with
  | some head => head.hash
  | none => ""

section Store

variable (sha256 : List UInt8 → List UInt8)

def appendAuditEvent (rows : List AuditEvent) (eventType payload prevHash : String) :
    List AuditEvent :=
  let raw := jsonObject [("event_type", eventType), ("payload", payload), ("prev_hash", prevHash)]
  let sum := sha256 (bytesOf prevHash ++ bytesOf raw)
  rows ++ [⟨((getAuditHead rows).elim 0 AuditEvent.seq) + 1, eventType, payload,
    hexEncode sum, prevHash⟩]

/-- The next call of the handler of event `k`. -/
def step (events : List Event) (s : State) : Action → Option State
  | .getAuditHead k =>
    match events[k]?, s.phase k with
    | some _, .published =>
      some { s with phase := Function.update s.phase k (.fetched (headHash s.rows)) }
    | _, _ => none
  | .appendAuditEvent k =>
    match events[k]?, s.phase k with
    | some event, .fetched prevHash =>
      some ⟨appendAuditEvent sha256 s.rows event.type (event.payload.getD "\x7b\x7d") prevHash,
        Function.update s.phase k .appended⟩
    | _, _ => none

end Store

def Unbroken (rows : List AuditEvent) : Prop :=
  ∀ r ∈ rows, ((∀ q ∈ rows, r.seq ≤ q.seq) → r.prevHash = "") ∧
    ∀ q ∈ rows, q.seq < r.seq → (∀ p ∈ rows, p.seq < r.seq → p.seq ≤ q.seq) → r.prevHash = q.hash

/-- Rows numbered from `n` on, the first of which carries `prev`. -/
def ChainFrom : Nat → String → List AuditEvent → Prop
  | _, _, [] => True
  | n, prev, r :: rows => r.seq = n + 1 ∧ r.prevHash = prev ∧ ChainFrom (n + 1) r.hash rows

section Chains

variable {n : Nat} {prev : String} {rows : List AuditEvent}

theorem ChainFrom.row (h : ChainFrom n prev rows) {i : Nat} {r : AuditEvent}
    (hr : rows[i]? = some r) :
    r.seq = n + i + 1 ∧ (i = 0 → r.prevHash = prev) ∧
      ∀ j q, j + 1 = i → rows[j]? = some q → r.prevHash = q.hash := by
  induction rows generalizing n prev i with
  | nil => simp at hr
  | cons first rows ih =>
    obtain ⟨hseq, hprev, hrest⟩ := h
    cases i with
    | zero =>
      cases hr
      exact ⟨hseq, fun _ => hprev, nofun⟩
    | succ i =>
      obtain ⟨hseq', hfirst, hnext⟩ := ih hrest hr
      refine ⟨by omega, nofun, fun j q hj hq => ?_⟩
      cases j with
      | zero =>
        cases hq
        exact hfirst (by omega)
      | succ j => exact hnext j q (by omega) hq

theorem ChainFrom.unbroken (h : ChainFrom 0 "" rows) : Unbroken rows := by
  intro r hr
  obtain ⟨i, hi⟩ := getElem?_of_mem hr
  obtain ⟨hseq, hfirst, hnext⟩ := h.row hi
  constructor
  · intro hleast
    cases i with
    | zero => exact hfirst rfl
    | succ i =>
      have hlt : i < rows.length := by
        have := (List.getElem?_eq_some_iff.mp hi).1
        omega
      have hbefore := (h.row (getElem?_eq_getElem hlt)).1
      have := hleast _ (getElem_mem hlt)
      omega
  · intro q hq hlt hmax
    obtain ⟨j, hj⟩ := getElem?_of_mem hq
    have hseq' := (h.row hj).1
    obtain ⟨p, hp⟩ : ∃ p, rows[i - 1]? = some p := by
      have := (List.getElem?_eq_some_iff.mp hi).1
      exact ⟨_, getElem?_eq_getElem (by omega)⟩
    have hseqp := (h.row hp).1
    have := hmax p (mem_of_getElem? hp) (by omega)
    exact hnext j q (by omega) hj

theorem ChainFrom.append {r : AuditEvent} (h : ChainFrom n prev rows)
    (hseq : r.seq = rows.getLast?.elim n AuditEvent.seq + 1)
    (hprev : r.prevHash = rows.getLast?.elim prev AuditEvent.hash) :
    ChainFrom n prev (rows ++ [r]) := by
  induction rows generalizing n prev with
  | nil => exact ⟨hseq, hprev, trivial⟩
  | cons first rows ih =>
    obtain ⟨hfirst, hfirst', hrest⟩ := h
    refine ⟨hfirst, hfirst', ih hrest ?_ ?_⟩
    · cases rows with
      | nil => rw [hseq]; exact congrArg (· + 1) hfirst
      | cons second rows => exact hseq
    · cases rows with
      | nil => exact hprev
      | cons second rows => exact hprev

end Chains

section Runs

def Action.isAppend : Action → Bool
  | .getAuditHead _ => false
  | .appendAuditEvent _ => true

/-- Between the two calls for an event no other row is appended. -/
def Undisturbed : List Action → Prop
  | [] => True
  | .getAuditHead k :: rest =>
    (.appendAuditEvent k ∈ rest → rest.find? Action.isAppend = some (.appendAuditEvent k)) ∧
      Undisturbed rest
  | .appendAuditEvent _ :: rest => Undisturbed rest

variable {sha256 : List UInt8 → List UInt8} {events : List Event} {s s' : State}
  {rest : List Action}

structure State.Inv (s : State) (rest : List Action) : Prop where
  chain : ChainFrom 0 "" s.rows
  fetched : ∀ k prev, s.phase k = .fetched prev → .appendAuditEvent k ∈ rest →
    rest.find? Action.isAppend = some (.appendAuditEvent k) ∧ prev = headHash s.rows

theorem headHash_eq (rows : List AuditEvent) :
    headHash rows = rows.getLast?.elim "" AuditEvent.hash := by
  rw [headHash, getAuditHead]
  cases rows.getLast? <;> rfl

theorem step_getAuditHead {k : Nat} (h : step sha256 events s (.getAuditHead k) = some s') :
    s'.rows = s.rows ∧ s'.phase = Function.update s.phase k (.fetched (headHash s.rows)) := by
  rw [step] at h
  split at h
  · cases h
    exact ⟨rfl, rfl⟩
  · cases h

theorem step_appendAuditEvent {k : Nat} (h : step sha256 events s (.appendAuditEvent k) = some s') :
    ∃ prev eventType payload, s.phase k = .fetched prev ∧
      s'.rows = appendAuditEvent sha256 s.rows eventType payload prev ∧
        s'.phase = Function.update s.phase k .appended := by
  rw [step] at h
  split at h
  · next event prev _ hphase =>
    cases h
    exact ⟨prev, _, _, hphase, rfl, rfl⟩
  · cases h

theorem State.Inv.getAuditHead {k : Nat} (hs : s.Inv (.getAuditHead k :: rest))
    (hrest : Undisturbed (.getAuditHead k :: rest))
    (h : step sha256 events s (.getAuditHead k) = some s') : s'.Inv rest := by
  obtain ⟨hrows, hphase⟩ := step_getAuditHead h
  refine ⟨hrows ▸ hs.chain, fun j prev hj hmem => ?_⟩
  rw [hphase] at hj
  rw [hrows]
  by_cases hjk : j = k
  · subst hjk
    rw [Function.update_self] at hj
    cases hj
    exact ⟨hrest.1 hmem, rfl⟩
  · rw [Function.update_of_ne hjk] at hj
    exact hs.fetched j prev hj (mem_cons_of_mem _ hmem)

theorem State.Inv.appendAuditEvent {k : Nat} (hs : s.Inv (.appendAuditEvent k :: rest))
    (h : step sha256 events s (.appendAuditEvent k) = some s') : s'.Inv rest := by
  obtain ⟨prev, eventType, payload, hfetched, hrows, hphase⟩ := step_appendAuditEvent h
  obtain ⟨_, hprev⟩ := hs.fetched k prev hfetched mem_cons_self
  refine ⟨hrows ▸ hs.chain.append rfl (hprev.trans (headHash_eq s.rows)), fun j prev' hj hmem => ?_⟩
  rw [hphase] at hj
  by_cases hjk : j = k
  · subst hjk
    rw [Function.update_self] at hj
    cases hj
  · -- the next row to be appended is that of event `k`
    rw [Function.update_of_ne hjk] at hj
    have hnext := (hs.fetched j prev' hj (mem_cons_of_mem _ hmem)).1
    cases hnext
    exact absurd rfl hjk

theorem State.Inv.run {schedule : List Action} (hs : s.Inv schedule) (hund : Undisturbed schedule)
    (hrun : perform (step sha256 events) s schedule = some s') : Unbroken s'.rows := by
  induction schedule generalizing s with
  | nil =>
    cases hrun
    exact hs.chain.unbroken
  | cons a rest ih =>
    obtain ⟨t, hstep, hrest⟩ := perform_cons_eq_some.mp hrun
    cases a with
    | getAuditHead k => exact ih (hs.getAuditHead hund hstep) hund.2 hrest
    | appendAuditEvent k => exact ih (hs.appendAuditEvent hstep) hund hrest

end Runs

/-- The log is one chain after every run in which handlers do not overlap. -/
theorem unbroken_of_undisturbed {sha256 : List UInt8 → List UInt8} {events : List Event}
    {schedule : List Action} (hund : Undisturbed schedule) {s : State}
    (hrun : perform (step sha256 events) start schedule = some s) : Unbroken s.rows := by
  have hstart : start.Inv schedule := by
    constructor
    · exact trivial
    · intro k prev h
      cases h
  exact hstart.run hund hrun

/-- The second task logs its event before the first one begins. -/
theorem unbroken_two_events : ∃ s, perform (step (fun bytes => bytes.take 32)
    [⟨"consent.granted", some "\x7b\x7d"⟩, ⟨"consent.revoked", none⟩]) start
      [.getAuditHead 1, .appendAuditEvent 1, .getAuditHead 0, .appendAuditEvent 0] = some s ∧
        Unbroken s.rows := by
  have hund : Undisturbed
      [.getAuditHead 1, .appendAuditEvent 1, .getAuditHead 0, .appendAuditEvent 0] :=
    ⟨fun _ => rfl, fun _ => rfl, trivial⟩
  obtain ⟨s, hs⟩ : ∃ s, perform (step (fun bytes => bytes.take 32)
      [⟨"consent.granted", some "\x7b\x7d"⟩, ⟨"consent.revoked", none⟩]) start
        [.getAuditHead 1, .appendAuditEvent 1, .getAuditHead 0, .appendAuditEvent 0] = some s :=
    ⟨_, rfl⟩
  exact ⟨s, hs, unbroken_of_undisturbed hund hs⟩

theorem fork_of_overlap {sha256 : List UInt8 → List UInt8} (hsha : ∀ bytes, sha256 bytes ≠ []) :
    ∃ s, perform (step sha256 [⟨"consent.granted", some "{}"⟩, ⟨"consent.revoked", none⟩]) start
      [.getAuditHead 0, .getAuditHead 1, .appendAuditEvent 0, .appendAuditEvent 1] = some s ∧
        ¬Unbroken s.rows := by
  refine ⟨_, rfl, fun h => ?_⟩
  -- the second row should carry the hash of the first
  have hprev : "" = hexEncode (sha256 _) :=
    (h _ (mem_cons_of_mem _ (mem_singleton_self _))).2 _ mem_cons_self
      (Nat.lt_succ_self 1) (fun p _ hp => Nat.le_of_lt_succ hp)
  exact hexEncode_ne_empty (hsha _) hprev.symm

/-- The table that the two handlers leave is not one chain. -/
theorem overlapping_handlers_fork : ∃ s,
    perform (step (fun bytes => (bytes ++ replicate 32 0).take 32)
        [⟨"consent.granted", some "\x7b\x7d"⟩, ⟨"consent.revoked", none⟩]) start
      [.getAuditHead 0, .getAuditHead 1, .appendAuditEvent 0, .appendAuditEvent 1] = some s ∧
        ¬Unbroken s.rows := by
  apply fork_of_overlap
  intro bytes hnil
  have hlen := congrArg length hnil
  simp at hlen

end AuditLog

end Oikos.Identity
