/-
The streaming payments of `koinon-escrow`: an amount that is paid out second by
second while the stream is active, and the calls that pause and resume it.

Runs of all operations of a streaming payment: when what has been earned is
never taken back.
-/
import Oikos.Lib.Bits
import Oikos.Lib.Stopwatch
import Oikos.Koinon.Dag
import Oikos.Lib.Partial

namespace Oikos.Koinon

abbrev StreamId := UInt64

inductive StreamState where
  | active
  | paused
  | stopped
  | completed
deriving Repr, DecidableEq

inductive StreamToken where
  | oikos
  | koin
deriving Repr, DecidableEq

structure StreamConfig where
  ratePerSecond : UInt64
  durationSeconds : UInt64
  token : StreamToken
deriving DecidableEq

structure StreamingPayment where
  id : StreamId
  sender : AccountId
  receiver : AccountId
  totalAmount : BitVec 128
  streamedAmount : BitVec 128
  config : StreamConfig
  state : StreamState
  startTime : UInt64
  pauseTime : Option UInt64
deriving DecidableEq

namespace StreamingPayment

def new (id : StreamId) (sender receiver : AccountId) (totalAmount : BitVec 128)
    (config : StreamConfig) (currentTime : UInt64) : StreamingPayment :=
  ⟨id, sender, receiver, totalAmount, 0, config, .active, currentTime, none⟩

/-- What is due for the time from the start up to `t`, up to the total. -/
def due (p : StreamingPayment) (t : UInt64) : BitVec 128 :=
  let elapsed := saturatingSub64 t p.startTime
  let streamed := asU128 elapsed * asU128 p.config.ratePerSecond
  if streamed ≤ p.totalAmount then streamed else p.totalAmount

def streamedSoFar (p : StreamingPayment) (currentTime : UInt64) : BitVec 128 :=
  match p.state with
  | .active => p.due currentTime
  | .paused => (p.pauseTime.map p.due).getD p.streamedAmount
  | .stopped | .completed => p.streamedAmount

def updateStreamed (p : StreamingPayment) (currentTime : UInt64) : StreamingPayment :=
  if p.state = .active then { p with streamedAmount := p.streamedSoFar currentTime } else p

def canComplete (p : StreamingPayment) (currentTime : UInt64) : Bool :=
  p.state == .active && decide (p.totalAmount ≤ p.streamedSoFar currentTime)

def tryComplete (p : StreamingPayment) (currentTime : UInt64) : Bool × StreamingPayment :=
  if p.canComplete currentTime then
    (true, { p with streamedAmount := p.totalAmount, state := .completed })
  else (false, p)

def pause (p : StreamingPayment) (currentTime : UInt64) : StreamingPayment :=
  if p.state = .active then
    { p with
      streamedAmount := p.streamedSoFar currentTime
      state := .paused
      pauseTime := some currentTime }
  else p

def resume (p : StreamingPayment) (currentTime : UInt64) : Option StreamingPayment :=
  if p.state = .paused then
    if p.config.ratePerSecond = 0 then none
    else
      let preStreamed := p.streamedAmount / asU128 p.config.ratePerSecond
      some { p with
        startTime := saturatingSub64 currentTime (asU64 preStreamed)
        pauseTime := none
        state := .active }
  else some p

def canStop (p : StreamingPayment) : Bool :=
  p.state == .active || p.state == .paused

def stop (p : StreamingPayment) : StreamingPayment :=
  if p.canStop then { p with state := .stopped } else p

/-! ### Calls -/

/-- A call, with the time at which it is made. -/
inductive Call where
  | updateStreamed (t : UInt64)
  | pause (t : UInt64)
  | resume (t : UInt64)

def Call.time : Call → UInt64
  | .updateStreamed t | .pause t | .resume t => t

def call (p : StreamingPayment) : Call → Option StreamingPayment
  | .updateStreamed t => some (p.updateStreamed t)
  | .pause t => some (p.pause t)
  | .resume t => p.resume t

def run : StreamingPayment → List Call → Option StreamingPayment
  | p, [] => some p
  | p, c :: calls => (p.call c).bind (run · calls)

/-- The times of the calls do not decrease. -/
def InOrder : UInt64 → List Call → Prop
  | _, [] => True
  | now, c :: calls => now.toNat ≤ c.time.toNat ∧ InOrder c.time calls

def lastTime (now : UInt64) (calls : List Call) : UInt64 :=
  calls.foldl (fun _ c => c.time) now

def watch (w : Stopwatch) (calls : List Call) : Stopwatch :=
  calls.foldl (fun w c =>
    match c with
    | .updateStreamed _ => w
    | .pause t => w.pause t.toNat
    | .resume t => w.resume t.toNat) w

/-! ### What is billed -/

variable {p p' : StreamingPayment} {w : Stopwatch} {now t : UInt64}

def total (p : StreamingPayment) : Nat :=
  p.totalAmount.toNat

def rate (p : StreamingPayment) : Nat :=
  p.config.ratePerSecond.toNat

theorem toNat_due : (p.due t).toNat = min p.total (p.rate * (t.toNat - p.startTime.toNat)) := by
  have hmul := toNat_asU128_mul (saturatingSub64 t p.startTime) p.config.ratePerSecond
  rw [toNat_saturatingSub64] at hmul
  rw [total, rate, mul_comm, ← hmul]
  unfold due
  dsimp only
  split
  · next hle =>
    rw [BitVec.le_def] at hle
    omega
  · next hlt =>
    rw [BitVec.le_def] at hlt
    omega

/-- Two running times for which the same amount is due. -/
def Agree (p : StreamingPayment) (x y : Nat) : Prop :=
  x = y ∨ p.total ≤ p.rate * x ∧ p.total ≤ p.rate * y

theorem Agree.min_eq {x y : Nat} (h : p.Agree x y) :
    min p.total (p.rate * x) = min p.total (p.rate * y) := by
  rcases h with rfl | ⟨hx, hy⟩
  · rfl
  · rw [min_eq_left hx, min_eq_left hy]

inductive Tracks (p : StreamingPayment) (w : Stopwatch) (now : UInt64) : Prop
  | active (hstate : p.state = .active) (hrun : w.Running)
      (hagree : ∀ t : UInt64, now.toNat ≤ t.toNat →
        p.Agree (t.toNat - p.startTime.toNat) (w.elapsed t.toNat))
  | paused (pt : UInt64) (hstate : p.state = .paused) (hpause : p.pauseTime = some pt)
      (hrun : ¬ w.Running) (hpt : pt.toNat ≤ now.toNat) (hstreamed : p.streamedAmount = p.due pt)
      (hagree : p.Agree (pt.toNat - p.startTime.toNat) (w.elapsed now.toNat))

def Bills (p : StreamingPayment) (w : Stopwatch) (now : UInt64) : Prop :=
  ∀ t : UInt64, now.toNat ≤ t.toNat →
    (p.streamedSoFar t).toNat = min p.total (p.rate * w.elapsed t.toNat)

theorem Tracks.bills (h : Tracks p w now) : Bills p w now := by
  intro t ht
  cases h with
  | active hstate _ hagree =>
    simp only [streamedSoFar, hstate, toNat_due]
    exact (hagree t ht).min_eq
  | paused pt hstate hpause hrun _ _ hagree =>
    simp only [streamedSoFar, hstate, hpause, Option.map_some, Option.getD_some, toNat_due]
    rw [hagree.min_eq, Stopwatch.elapsed_of_not_running hrun]

/-- Time may pass without a call. -/
theorem Tracks.later (h : Tracks p w now) (ht : now.toNat ≤ t.toNat) : Tracks p w t := by
  cases h with
  | active hstate hrun hagree =>
    exact .active hstate hrun fun t' ht' => hagree t' (ht.trans ht')
  | paused pt hstate hpause hrun hpt hstreamed hagree =>
    refine .paused pt hstate hpause hrun (hpt.trans ht) hstreamed ?_
    rwa [Stopwatch.elapsed_of_not_running hrun]

theorem tracks_new {id : StreamId} {sender receiver : AccountId} {totalAmount : BitVec 128}
    {config : StreamConfig} :
    Tracks (new id sender receiver totalAmount config now) (.start now.toNat) now := by
  refine .active rfl Stopwatch.running_start fun t _ => ?_
  rw [Stopwatch.elapsed_start]
  exact Or.inl rfl

theorem Tracks.updateStreamed (h : Tracks p w now) (ht : now.toNat ≤ t.toNat) :
    Tracks (p.updateStreamed t) w t := by
  have hlater := h.later ht
  unfold StreamingPayment.updateStreamed
  split
  · next hactive =>
    cases hlater with
    | active hstate hrun hagree => exact .active hstate hrun hagree
    | paused pt hstate => simp [hactive] at hstate
  · exact hlater

theorem Tracks.pause (h : Tracks p w now) (ht : now.toNat ≤ t.toNat) :
    Tracks (p.pause t) (w.pause t.toNat) t := by
  have hlater := h.later ht
  unfold StreamingPayment.pause
  cases hlater with
  | active hstate hrun hagree =>
    rw [if_pos hstate]
    refine .paused t rfl rfl Stopwatch.not_running_pause le_rfl ?_ ?_
    · simp only [streamedSoFar, hstate]
      rfl
    · rw [Stopwatch.elapsed_pause]
      exact hagree t le_rfl
  | paused pt hstate hpause hrun hpt hstreamed hagree =>
    rw [if_neg (by simp [hstate]), Stopwatch.pause_of_not_running hrun]
    exact .paused pt hstate hpause hrun hpt hstreamed hagree

/-! ### Resuming -/

def LosesTime (p : StreamingPayment) : Prop :=
  p.state = .paused ∧ p.streamedAmount = p.totalAmount ∧ ¬ p.rate ∣ p.total

theorem toNat_preStreamed :
    (p.streamedAmount / asU128 p.config.ratePerSecond).toNat = p.streamedAmount.toNat / p.rate := by
  rw [BitVec.toNat_udiv, toNat_asU128, rate]

theorem paidTime_le {pt : UInt64} (hrate : 0 < p.rate) (hstreamed : p.streamedAmount = p.due pt) :
    p.streamedAmount.toNat / p.rate ≤ pt.toNat := by
  rw [hstreamed, toNat_due]
  calc min p.total (p.rate * (pt.toNat - p.startTime.toNat)) / p.rate
      ≤ p.rate * (pt.toNat - p.startTime.toNat) / p.rate :=
        Nat.div_le_div_right (min_le_right _ _)
    _ = pt.toNat - p.startTime.toNat := Nat.mul_div_cancel_left _ hrate
    _ ≤ pt.toNat := Nat.sub_le _ _

theorem resume_paused {pt : UInt64} (hrate : 0 < p.rate) (hstate : p.state = .paused)
    (hstreamed : p.streamedAmount = p.due pt) (hpt : pt.toNat ≤ t.toNat) :
    ∃ start : UInt64, start.toNat + p.streamedAmount.toNat / p.rate = t.toNat ∧
      p.resume t = some { p with startTime := start, pauseTime := none, state := .active } := by
  have hle := paidTime_le hrate hstreamed
  have hne : p.config.ratePerSecond ≠ 0 := by
    intro h
    rw [rate, h] at hrate
    cases hrate
  have h64 : (p.streamedAmount / asU128 p.config.ratePerSecond).toNat < 2 ^ 64 := by
    rw [toNat_preStreamed]
    exact hle.trans_lt pt.toNat_lt
  refine ⟨_, ?_, by rw [resume, if_pos hstate, if_neg hne]⟩
  rw [toNat_saturatingSub64, toNat_asU64 h64, toNat_preStreamed]
  omega

/-- Running on from the paid time is running on from the time on the stopwatch,
unless some of it was rounded off. -/
theorem Agree.paid {x y d : Nat} (hrate : 0 < p.rate) (h : p.Agree x y)
    (hdvd : p.total < p.rate * x → p.rate ∣ p.total) :
    p.Agree (min p.total (p.rate * x) / p.rate + d) (y + d) := by
  have hgrow : ∀ z, p.rate * z ≤ p.rate * (z + d) := fun z =>
    Nat.mul_le_mul_left _ (Nat.le_add_right z d)
  by_cases hcap : p.total < p.rate * x
  · have hy : p.total ≤ p.rate * y := by
      rcases h with rfl | ⟨-, hy⟩
      · exact hcap.le
      · exact hy
    rw [min_eq_left hcap.le]
    right
    constructor
    · calc p.total = p.rate * (p.total / p.rate) := (Nat.mul_div_cancel' (hdvd hcap)).symm
        _ ≤ p.rate * (p.total / p.rate + d) := hgrow _
    · exact hy.trans (hgrow y)
  · rw [min_eq_right (Nat.le_of_not_lt hcap), Nat.mul_div_cancel_left x hrate]
    rcases h with rfl | ⟨hx, hy⟩
    · exact Or.inl rfl
    · exact Or.inr ⟨hx.trans (hgrow x), hy.trans (hgrow y)⟩

theorem Tracks.resume (hrate : 0 < p.rate) (h : Tracks p w now) (ht : now.toNat ≤ t.toNat)
    (hkeeps : ¬ p.LosesTime) : ∃ p', p.resume t = some p' ∧ Tracks p' (w.resume t.toNat) t := by
  have hlater := h.later ht
  cases hlater with
  | active hstate hrun hagree =>
    refine ⟨p, by rw [StreamingPayment.resume, if_neg (by simp [hstate])], ?_⟩
    rw [Stopwatch.resume_of_running hrun]
    exact .active hstate hrun hagree
  | paused pt hstate hpause hrun hpt hstreamed hagree =>
    obtain ⟨start, hstart, heq⟩ := resume_paused hrate hstate hstreamed hpt
    refine ⟨_, heq, .active rfl Stopwatch.running_resume fun t' ht' => ?_⟩
    have hsub : t'.toNat - start.toNat =
        p.streamedAmount.toNat / p.rate + (t'.toNat - t.toNat) := by
      rw [← hstart]
      generalize p.streamedAmount.toNat / p.rate = paid at hstart
      omega
    rw [Stopwatch.elapsed_resume hrun]
    dsimp only
    rw [hsub, hstreamed, toNat_due]
    apply Agree.paid hrate hagree
    intro hcap
    by_contra hdvd
    refine hkeeps ⟨hstate, ?_, hdvd⟩
    rw [← BitVec.toNat_inj, hstreamed, toNat_due]
    exact min_eq_left hcap.le

/-- Where time is rounded off, less than the total is due right after the call. -/
theorem Tracks.not_bills_resume (hrate : 0 < p.rate) (h : Tracks p w now)
    (ht : now.toNat ≤ t.toNat) (hloses : p.LosesTime) (heq : p.resume t = some p') :
    ¬ Bills p' (w.resume t.toNat) t := by
  obtain ⟨hpaused, hfull, hdvd⟩ := hloses
  have hlater := h.later ht
  cases hlater with
  | active hstate => simp [hpaused] at hstate
  | paused pt hstate hpause hrun hpt hstreamed hagree =>
    obtain ⟨start, hstart, hresume⟩ := resume_paused hrate hstate hstreamed hpt
    rw [hresume] at heq
    cases heq
    intro hbills
    have hnow := hbills t le_rfl
    simp only [streamedSoFar, toNat_due] at hnow
    have htotal : p.streamedAmount.toNat = p.total := congrArg BitVec.toNat hfull
    have hsub : t.toNat - start.toNat = p.total / p.rate := by
      rw [← hstart, htotal, Nat.add_sub_cancel_left]
    -- the stopwatch has passed the time that the total takes
    have hx : p.total ≤ p.rate * (pt.toNat - p.startTime.toNat) := by
      rw [← htotal, hstreamed, toNat_due]
      exact min_le_right _ _
    have hy : p.total ≤ p.rate * w.elapsed t.toNat := by
      rcases hagree with hagree | ⟨-, hy⟩
      · rwa [← hagree]
      · exact hy
    have hlt : p.rate * (p.total / p.rate) < p.total := by
      apply lt_of_le_of_ne (Nat.mul_div_le _ _)
      intro heq
      exact hdvd ⟨_, heq.symm⟩
    rw [Stopwatch.elapsed_resume hrun, Nat.sub_self, add_zero, hsub] at hnow
    change min p.total (p.rate * (p.total / p.rate)) = min p.total (p.rate * _) at hnow
    omega

/-! ### Runs -/

def KeepsTime : StreamingPayment → List Call → Prop
  | _, [] => True
  | p, c :: calls =>
    (∀ t, c = .resume t → ¬ p.LosesTime) ∧ ∀ p', p.call c = some p' → KeepsTime p' calls

def BillsAfter (p : StreamingPayment) (w : Stopwatch) (now : UInt64) (calls : List Call) : Prop :=
  ∃ p', p.run calls = some p' ∧ Bills p' (watch w calls) (lastTime now calls)

theorem rate_call {c : Call} (h : p.call c = some p') : p'.rate = p.rate := by
  cases c with
  | updateStreamed t =>
    cases h
    unfold updateStreamed
    split <;> rfl
  | pause t =>
    cases h
    unfold pause
    split <;> rfl
  | resume t =>
    simp only [call, resume] at h
    split at h
    · split at h
      · cases h
      · cases h
        rfl
    · cases h
      rfl

theorem Tracks.call (hrate : 0 < p.rate) (h : Tracks p w now) {c : Call}
    (ht : now.toNat ≤ c.time.toNat) (hkeeps : ∀ t, c = .resume t → ¬ p.LosesTime) :
    ∃ p', p.call c = some p' ∧ Tracks p' (watch w [c]) c.time := by
  cases c with
  | updateStreamed t => exact ⟨_, rfl, h.updateStreamed ht⟩
  | pause t => exact ⟨_, rfl, h.pause ht⟩
  | resume t => exact h.resume hrate ht (hkeeps t rfl)

theorem Tracks.bills_iff (hrate : 0 < p.rate) (h : Tracks p w now) {calls : List Call}
    (horder : InOrder now calls) :
    (∀ before, before <+: calls → p.BillsAfter w now before) ↔ p.KeepsTime calls := by
  induction calls generalizing p w now with
  | nil =>
    constructor
    · intro _
      trivial
    · intro _ before hbefore
      rw [List.prefix_nil.mp hbefore]
      exact ⟨p, rfl, h.bills⟩
  | cons c calls ih =>
    constructor
    · intro hbills
      have hkeeps : ∀ t, c = .resume t → ¬ p.LosesTime := by
        rintro t rfl hloses
        obtain ⟨p', hrun, hafter⟩ := hbills [.resume t] (by simp)
        obtain ⟨q, hq, hq'⟩ := Option.bind_eq_some_iff.mp hrun
        cases hq'
        exact h.not_bills_resume hrate horder.1 hloses hq hafter
      refine ⟨hkeeps, fun p' hp' => ?_⟩
      obtain ⟨q, hq, htracks⟩ := h.call hrate horder.1 hkeeps
      obtain rfl : q = p' := Option.some.inj (hq.symm.trans hp')
      refine (ih (by rwa [rate_call hq]) htracks horder.2).mp fun before hbefore => ?_
      obtain ⟨r, hr, hafter⟩ := hbills (c :: before) (List.prefix_cons_inj c |>.mpr hbefore)
      rw [run, hq, Option.bind_some] at hr
      exact ⟨r, hr, hafter⟩
    · rintro ⟨hkeeps, hrest⟩ before hbefore
      obtain ⟨q, hq, htracks⟩ := h.call hrate horder.1 hkeeps
      rcases List.prefix_cons_iff.mp hbefore with rfl | ⟨early, rfl, hearly⟩
      · exact ⟨p, rfl, h.bills⟩
      · obtain ⟨r, hr, hafter⟩ :=
          (ih (by rwa [rate_call hq]) htracks horder.2).mpr (hrest q hq) early hearly
        exact ⟨r, by rw [run, hq, Option.bind_some, hr], hafter⟩

/-- A stream with a positive rate bills exactly its active time, after every
call of a run in order of time, if and only if no call of the run resumes it
where that rounds off time. -/
theorem active_time_billed_iff {id : StreamId} {sender receiver : AccountId}
    {totalAmount : BitVec 128} {config : StreamConfig} {created : UInt64} {calls : List Call}
    (hrate : 0 < config.ratePerSecond.toNat) (horder : InOrder created calls) :
    (∀ before, before <+: calls →
        (new id sender receiver totalAmount config created).BillsAfter (.start created.toNat)
          created before) ↔
      (new id sender receiver totalAmount config created).KeepsTime calls :=
  Tracks.bills_iff (p := new id sender receiver totalAmount config created) hrate tracks_new horder

/-- A stream of 25 at 10 a second, created at time 0. -/
def sampleStream : StreamingPayment :=
  new 1 100 200 25 ⟨10, 100, .koin⟩ 0

/-- Paused before the total is reached, the stream goes on where it stood. -/
theorem sampleStream_billed :
    sampleStream.BillsAfter (.start 0) 0 [.pause 2, .resume 50] := by
  refine (active_time_billed_iff (by decide) ?_).mpr ?_ _ (List.prefix_refl _)
  · exact ⟨by decide, by decide, trivial⟩
  · refine ⟨fun t h => (by cases h), fun p hp => ?_⟩
    cases hp
    refine ⟨fun t _ h => ?_, fun p hp => trivial⟩
    exact absurd h.2.1 (by decide)

/-- Paused after the total of 25 is reached and resumed, the stream owes 20. -/
theorem sampleStream_loses_time :
    InOrder 0 [.pause 3, .resume 50] ∧
      (sampleStream.run [.pause 3, .resume 50]).map (·.streamedSoFar 50) = some 20 ∧
      min sampleStream.total (sampleStream.rate *
        (watch (.start 0) [.pause 3, .resume 50]).elapsed 50) = 25 := by
  refine ⟨⟨by decide, by decide, trivial⟩, by decide, by decide⟩

end StreamingPayment

namespace StreamingPayment

/-! ### Operations -/

/-- An operation on a stream, with the time at which it takes place. -/
inductive Operation where
  | call (c : Call)
  | stop (t : UInt64)
  | tryComplete (t : UInt64)

def Operation.time : Operation → UInt64
  | .call c => c.time
  | .stop t | .tryComplete t => t

def operate (p : StreamingPayment) : Operation → Option StreamingPayment
  | .call c => p.call c
  | .stop _ => some p.stop
  | .tryComplete t => some (p.tryComplete t).2

/-- The times of the operations do not decrease. -/
def Ordered : UInt64 → List Operation → Prop
  | _, [] => True
  | now, o :: ops => now.toNat ≤ o.time.toNat ∧ Ordered o.time ops

/-- In the run of `ops` from `p` at `now`, the stream is in the state `q` at time
`t`, with the operations `rest` ahead. -/
inductive Observed : StreamingPayment → UInt64 → List Operation →
    StreamingPayment → UInt64 → List Operation → Prop
  | now {p : StreamingPayment} {now t : UInt64} {ops : List Operation}
      (ht : now.toNat ≤ t.toNat) (hahead : Ordered t ops) : Observed p now ops p t ops
  | later {p p' q : StreamingPayment} {now t : UInt64} {o : Operation}
      {ops rest : List Operation} (ho : p.operate o = some p')
      (hlater : Observed p' o.time ops q t rest) : Observed p now (o :: ops) q t rest

def NoOverflow (p : StreamingPayment) : Prop :=
  ∀ t : UInt64,
    (asU128 (saturatingSub64 t p.startTime) * asU128 p.config.ratePerSecond).toNat =
      (t.toNat - p.startTime.toNat) * p.config.ratePerSecond.toNat

/-- Nothing in the run of `ops` from `p` panics, no more than the total is ever
streamed, and what is earned at one time is earned at every later time. -/
structure Earns (p : StreamingPayment) (now : UInt64) (ops : List Operation) : Prop where
  performs : ∃ p', perform operate p ops = some p'
  exact : ∀ q t rest, Observed p now ops q t rest → q.NoOverflow
  bounded : ∀ q t rest, Observed p now ops q t rest → q.streamedAmount ≤ q.totalAmount
  keeps : ∀ q t rest, Observed p now ops q t rest → ∀ q' t' rest', Observed q t rest q' t' rest' →
    q.streamedSoFar t ≤ q'.streamedSoFar t'

def Careful (p : StreamingPayment) : Operation → Prop
  | .call (.resume _) => p.state = .paused → p.rate ≠ 0 ∧ p.rate ∣ p.streamedAmount.toNat
  | .stop t => p.state = .active →
      min p.total (p.rate * (t.toNat - p.startTime.toNat)) ≤ p.streamedAmount.toNat
  | _ => True

def CarefulRun (p : StreamingPayment) (ops : List Operation) : Prop :=
  Guarded operate Careful p ops

/-! ### One state -/

variable {p p' q q' : StreamingPayment} {now t t' : UInt64} {o : Operation}
  {ops rest rest' : List Operation}

theorem noOverflow (p : StreamingPayment) : p.NoOverflow := by
  intro t
  rw [toNat_asU128_mul, toNat_saturatingSub64]

theorem due_le_total : (p.due t).toNat ≤ p.total := by
  rw [toNat_due]
  exact min_le_left _ _

theorem due_mono (h : t.toNat ≤ t'.toNat) : (p.due t).toNat ≤ (p.due t').toNat := by
  rw [toNat_due, toNat_due]
  exact min_le_min_left _ (Nat.mul_le_mul_left _ (Nat.sub_le_sub_right h _))

/-- What every state of a run satisfies. -/
inductive Valid (p : StreamingPayment) (now : UInt64) : Prop
  | active (hstate : p.state = .active) (hle : p.streamedAmount.toNat ≤ p.total)
  | paused (pt : UInt64) (hstate : p.state = .paused) (hpause : p.pauseTime = some pt)
      (hpt : pt.toNat ≤ now.toNat) (hstreamed : p.streamedAmount = p.due pt)
  | ended (hactive : p.state ≠ .active) (hpaused : p.state ≠ .paused)
      (hle : p.streamedAmount.toNat ≤ p.total)

theorem Valid.bounded (h : Valid p now) : p.streamedAmount.toNat ≤ p.total := by
  cases h with
  | active _ hle => exact hle
  | paused pt _ _ _ hstreamed =>
    rw [hstreamed]
    exact due_le_total
  | ended _ _ hle => exact hle

theorem Valid.later (h : Valid p now) (ht : now.toNat ≤ t.toNat) : Valid p t := by
  cases h with
  | active hstate hle => exact .active hstate hle
  | paused pt hstate hpause hpt hstreamed =>
    exact .paused pt hstate hpause (hpt.trans ht) hstreamed
  | ended hactive hpaused hle => exact .ended hactive hpaused hle

theorem streamedSoFar_active (h : p.state = .active) : p.streamedSoFar t = p.due t := by
  simp only [streamedSoFar, h]

theorem streamedSoFar_ended (hactive : p.state ≠ .active) (hpaused : p.state ≠ .paused) :
    p.streamedSoFar t = p.streamedAmount := by
  cases hstate : p.state with
  | active => exact absurd hstate hactive
  | paused => exact absurd hstate hpaused
  | stopped => simp only [streamedSoFar, hstate]
  | completed => simp only [streamedSoFar, hstate]

theorem Valid.streamedSoFar_eq (h : Valid p now) (hactive : p.state ≠ .active) :
    p.streamedSoFar t = p.streamedAmount := by
  cases h with
  | active hstate => exact absurd hstate hactive
  | paused pt hstate hpause _ hstreamed =>
    simp only [streamedSoFar, hstate, hpause, Option.map_some, Option.getD_some, hstreamed]
  | ended _ hpaused => exact streamedSoFar_ended hactive hpaused

theorem Valid.mono (h : Valid p now) (ht : t.toNat ≤ t'.toNat) :
    (p.streamedSoFar t).toNat ≤ (p.streamedSoFar t').toNat := by
  by_cases hactive : p.state = .active
  · rw [streamedSoFar_active hactive, streamedSoFar_active hactive]
    exact due_mono ht
  · rw [h.streamedSoFar_eq hactive, h.streamedSoFar_eq hactive]

theorem valid_new {id : StreamId} {sender receiver : AccountId} {totalAmount : BitVec 128}
    {config : StreamConfig} {created : UInt64} :
    Valid (new id sender receiver totalAmount config created) now :=
  .active rfl (Nat.zero_le _)

/-! ### One operation -/

theorem Valid.same (h : Valid p now) (ht : now.toNat ≤ t.toNat) :
    Valid p t ∧ (p.streamedSoFar t).toNat ≤ (p.streamedSoFar t).toNat :=
  ⟨h.later ht, le_rfl⟩

theorem Valid.updateStreamed (h : Valid p now) (ht : now.toNat ≤ t.toNat) :
    Valid (p.updateStreamed t) t ∧
      (p.streamedSoFar t).toNat ≤ ((p.updateStreamed t).streamedSoFar t).toNat := by
  unfold StreamingPayment.updateStreamed
  split
  · next hactive =>
    refine ⟨.active hactive ?_, ?_⟩
    · rw [streamedSoFar_active hactive]
      exact due_le_total
    · rw [streamedSoFar_active hactive, streamedSoFar_active (by exact hactive)]
      exact le_rfl
  · exact h.same ht

theorem Valid.pause (h : Valid p now) (ht : now.toNat ≤ t.toNat) :
    Valid (p.pause t) t ∧
      (p.streamedSoFar t).toNat ≤ ((p.pause t).streamedSoFar t).toNat := by
  unfold StreamingPayment.pause
  split
  · next hactive =>
    refine ⟨.paused t rfl rfl le_rfl ?_, ?_⟩
    · rw [streamedSoFar_active hactive]
      rfl
    · rw [streamedSoFar_active hactive]
      exact le_rfl
  · exact h.same ht

theorem Valid.resume (h : Valid p now) (ht : now.toNat ≤ t.toNat) (hpaused : p.state = .paused)
    (hrate : p.rate ≠ 0) :
    ∃ p', p.resume t = some p' ∧ Valid p' t ∧
      (p.streamedSoFar t).toNat = p.streamedAmount.toNat ∧
      (p'.streamedSoFar t).toNat = p.rate * (p.streamedAmount.toNat / p.rate) := by
  have hbounded := h.bounded
  have hsofar : p.streamedSoFar t = p.streamedAmount := h.streamedSoFar_eq (by simp [hpaused])
  cases h with
  | active hstate => simp [hpaused] at hstate
  | paused pt hstate hpause hpt hstreamed =>
    obtain ⟨start, hstart, heq⟩ :=
      resume_paused (Nat.pos_of_ne_zero hrate) hstate hstreamed (hpt.trans ht)
    refine ⟨_, heq, .active rfl hbounded, congrArg BitVec.toNat hsofar, ?_⟩
    rw [streamedSoFar_active rfl, toNat_due]
    change min p.total (p.rate * (t.toNat - start.toNat)) = _
    rw [← hstart, Nat.add_sub_cancel_left]
    exact min_eq_right ((Nat.mul_div_le _ _).trans hbounded)
  | ended _ hstate => exact absurd hpaused hstate

theorem Valid.stop (h : Valid p now) :
    Valid p.stop t ∧ (p.stop.streamedSoFar t).toNat = if p.state = .active then
      p.streamedAmount.toNat else (p.streamedSoFar t).toNat := by
  have hbounded := h.bounded
  unfold StreamingPayment.stop
  split
  · refine ⟨.ended (by simp) (by simp) hbounded, ?_⟩
    rw [streamedSoFar_ended (by simp) (by simp)]
    split
    · rfl
    · next hactive => rw [h.streamedSoFar_eq hactive]
  · next hstop =>
    have hactive : p.state ≠ .active := fun hstate => hstop (by simp [canStop, hstate])
    have hpaused : p.state ≠ .paused := fun hstate => hstop (by simp [canStop, hstate])
    exact ⟨.ended hactive hpaused hbounded, by rw [if_neg hactive]⟩

theorem Valid.tryComplete (h : Valid p now) (ht : now.toNat ≤ t.toNat) :
    Valid (p.tryComplete t).2 t ∧
      (p.streamedSoFar t).toNat ≤ ((p.tryComplete t).2.streamedSoFar t).toNat := by
  unfold StreamingPayment.tryComplete
  split
  · next hcomplete =>
    have hactive : p.state = .active := by
      simp only [canComplete, Bool.and_eq_true, beq_iff_eq] at hcomplete
      exact hcomplete.1
    refine ⟨.ended (by simp) (by simp) le_rfl, ?_⟩
    rw [streamedSoFar_active hactive, streamedSoFar_ended (by simp) (by simp)]
    exact due_le_total
  · exact h.same ht

theorem Valid.operate (h : Valid p now) (ht : now.toNat ≤ o.time.toNat) (hcareful : p.Careful o) :
    ∃ p', p.operate o = some p' ∧ Valid p' o.time ∧
      (p.streamedSoFar o.time).toNat ≤ (p'.streamedSoFar o.time).toNat := by
  cases o with
  | call c =>
    cases c with
    | updateStreamed t => exact ⟨_, rfl, h.updateStreamed ht⟩
    | pause t => exact ⟨_, rfl, h.pause ht⟩
    | resume t =>
      by_cases hpaused : p.state = .paused
      · obtain ⟨hrate, hdvd⟩ := hcareful hpaused
        obtain ⟨p', heq, hvalid, hbefore, hafter⟩ := h.resume ht hpaused hrate
        refine ⟨p', heq, hvalid, ?_⟩
        rw [hbefore, hafter, Nat.mul_div_cancel' hdvd]
      · exact ⟨p, if_neg hpaused, h.same ht⟩
  | stop t =>
    obtain ⟨hvalid, hafter⟩ := @Valid.stop p now t h
    refine ⟨_, rfl, hvalid, ?_⟩
    change (p.streamedSoFar t).toNat ≤ (p.stop.streamedSoFar t).toNat
    rw [hafter]
    split
    · next hactive =>
      rw [streamedSoFar_active hactive, toNat_due]
      exact hcareful hactive
    · exact le_rfl
  | tryComplete t => exact ⟨_, rfl, h.tryComplete ht⟩

theorem Valid.takes_back (h : Valid p now) (ht : now.toNat ≤ o.time.toNat)
    (hcareful : ¬ p.Careful o) (ho : p.operate o = some p') :
    (p'.streamedSoFar o.time).toNat < (p.streamedSoFar o.time).toNat := by
  cases o with
  | call c =>
    cases c with
    | updateStreamed t => exact absurd trivial hcareful
    | pause t => exact absurd trivial hcareful
    | resume t =>
      obtain ⟨hpaused, hdvd⟩ := Classical.not_imp.mp hcareful
      have hrate : p.rate ≠ 0 := by
        intro hzero
        have hconfig : p.config.ratePerSecond = 0 := UInt64.toNat_inj.mp hzero
        change p.resume t = some p' at ho
        rw [StreamingPayment.resume, if_pos hpaused, if_pos hconfig] at ho
        cases ho
      obtain ⟨q, heq, _, hbefore, hafter⟩ := h.resume ht hpaused hrate
      obtain rfl := Option.some.inj (heq.symm.trans ho)
      rw [hbefore, hafter]
      apply lt_of_le_of_ne (Nat.mul_div_le _ _)
      intro hall
      exact hdvd ⟨hrate, _, hall.symm⟩
  | stop t =>
    obtain ⟨hactive, hlt⟩ := Classical.not_imp.mp hcareful
    cases ho
    change (p.stop.streamedSoFar t).toNat < (p.streamedSoFar t).toNat
    rw [(@Valid.stop p now t h).2, if_pos hactive, streamedSoFar_active hactive, toNat_due]
    exact Nat.lt_of_not_le hlt
  | tryComplete t => exact absurd trivial hcareful

/-! ### Runs -/

theorem Observed.le (h : Observed p now ops q t rest) (hordered : Ordered now ops) :
    now.toNat ≤ t.toNat := by
  induction h with
  | now ht _ => exact ht
  | later _ _ ih => exact hordered.1.trans (ih hordered.2)

theorem Observed.ahead (h : Observed p now ops q t rest) : Ordered t rest := by
  induction h with
  | now _ hahead => exact hahead
  | later _ _ ih => exact ih

theorem Observed.keeps (h : Observed p now ops q t rest) (hvalid : Valid p now)
    (hordered : Ordered now ops) (hcareful : CarefulRun p ops) :
    Valid q t ∧ CarefulRun q rest ∧ ∀ s : UInt64, s.toNat ≤ t.toNat → Ordered s ops →
      (p.streamedSoFar s).toNat ≤ (q.streamedSoFar t).toNat := by
  induction h with
  | now ht hahead => exact ⟨hvalid.later ht, hcareful, fun s hs _ => hvalid.mono hs⟩
  | later ho hlater ih =>
    obtain ⟨p', ho', hvalid', hkept⟩ := hvalid.operate hordered.1 hcareful.1
    obtain rfl := Option.some.inj (ho.symm.trans ho')
    obtain ⟨hq, hahead, hearned⟩ := ih hvalid' hordered.2 (hcareful.2 _ ho)
    refine ⟨hq, hahead, fun s hs hsops => ?_⟩
    exact ((hvalid.mono hsops.1).trans hkept).trans
      (hearned _ (hlater.le hordered.2) hordered.2)

theorem CarefulRun.performs (hvalid : Valid p now) (hordered : Ordered now ops)
    (hcareful : CarefulRun p ops) : ∃ p', perform operate p ops = some p' := by
  induction ops generalizing p now with
  | nil => exact ⟨p, rfl⟩
  | cons o ops ih =>
    obtain ⟨p', ho, hvalid', _⟩ := hvalid.operate hordered.1 hcareful.1
    obtain ⟨q, hq⟩ := ih hvalid' hordered.2 (hcareful.2 p' ho)
    exact ⟨q, perform_cons_eq_some.mpr ⟨p', ho, hq⟩⟩

theorem CarefulRun.earns (hvalid : Valid p now) (hordered : Ordered now ops)
    (hcareful : CarefulRun p ops) : Earns p now ops where
  performs := hcareful.performs hvalid hordered
  exact q _ _ _ := q.noOverflow
  bounded q t rest h := (h.keeps hvalid hordered hcareful).1.bounded
  keeps q t rest h q' t' rest' h' := by
    obtain ⟨hq, hahead, _⟩ := h.keeps hvalid hordered hcareful
    exact (h'.keeps hq h.ahead hahead).2.2 t (h'.le h.ahead) h.ahead

/-- A run that takes nothing back is careful in its first operation. -/
theorem Earns.careful (h : Earns p now (o :: ops)) (hvalid : Valid p now)
    (hordered : Ordered now (o :: ops)) : p.Careful o := by
  by_contra hcareful
  obtain ⟨_, hperform⟩ := h.performs
  obtain ⟨p', ho, _⟩ := perform_cons_eq_some.mp hperform
  have hlt := hvalid.takes_back hordered.1 hcareful ho
  have hkept := h.keeps p o.time (o :: ops) (.now hordered.1 ⟨le_rfl, hordered.2⟩) p' o.time ops
    (.later ho (.now le_rfl hordered.2))
  exact absurd (BitVec.le_def.mp hkept) (not_le.mpr hlt)

theorem Earns.tail (h : Earns p now (o :: ops)) (ho : p.operate o = some p') :
    Earns p' o.time ops where
  performs := by
    obtain ⟨q, hq⟩ := h.performs
    rw [perform, ho, Option.bind_some] at hq
    exact ⟨q, hq⟩
  exact q t rest hq := h.exact q t rest (.later ho hq)
  bounded q t rest hq := h.bounded q t rest (.later ho hq)
  keeps q t rest hq := h.keeps q t rest (.later ho hq)

theorem Earns.carefulRun (h : Earns p now ops) (hvalid : Valid p now) (hordered : Ordered now ops) :
    CarefulRun p ops := by
  induction ops generalizing p now with
  | nil => trivial
  | cons o ops ih =>
    have hcareful := h.careful hvalid hordered
    refine ⟨hcareful, fun p' ho => ?_⟩
    obtain ⟨q, hq, hvalid', _⟩ := hvalid.operate hordered.1 hcareful
    obtain rfl := Option.some.inj (hq.symm.trans ho)
    exact ih (h.tail ho) hvalid' hordered.2

/-- In a run in order of time, nothing panics and what is earned is never taken
back, if and only if all of its operations are careful ones. -/
theorem earns_iff_careful {id : StreamId} {sender receiver : AccountId} {totalAmount : BitVec 128}
    {config : StreamConfig} {created : UInt64} (hordered : Ordered now ops) :
    Earns (new id sender receiver totalAmount config created) now ops ↔
      CarefulRun (new id sender receiver totalAmount config created) ops :=
  ⟨fun h => h.carefulRun valid_new hordered, fun h => h.earns valid_new hordered⟩

/-- The stream is paused and resumed at a multiple of the rate, and completed. -/
theorem sampleStream_earns :
    Earns sampleStream 0 [.call (.pause 2), .call (.resume 50), .tryComplete 51] := by
  refine (earns_iff_careful (by simp [Ordered, Operation.time, Call.time])).mpr ?_
  refine ⟨trivial, ?_⟩
  rintro _ ⟨⟩
  refine ⟨fun _ => ⟨by decide, by decide⟩, ?_⟩
  rintro _ ⟨⟩
  exact ⟨trivial, fun _ _ => trivial⟩

/-- A stopped stream keeps only what was stored, one resumed at its total only a
multiple of the rate, and one without a rate cannot be resumed. -/
theorem earned_is_taken_back :
    ¬ Earns sampleStream 0 [.stop 2] ∧
      ¬ Earns sampleStream 0 [.call (.pause 3), .call (.resume 3)] ∧
      perform operate (new 1 100 200 25 ⟨0, 100, .koin⟩ 0)
        [.call (.pause 3), .call (.resume 3)] = none := by
  refine ⟨?_, ?_, rfl⟩
  · intro h
    have hkept := h.keeps _ 2 _ (.now (by decide) ⟨le_rfl, trivial⟩) _ 2 []
      (.later rfl (.now le_rfl trivial))
    exact absurd hkept (by decide)
  · intro h
    have hkept := h.keeps _ 3 [.call (.resume 3)]
      (.later rfl (.now le_rfl ⟨le_rfl, trivial⟩)) _ 3 [] (.later rfl (.now le_rfl trivial))
    exact absurd hkept (by decide)

end StreamingPayment

end Oikos.Koinon
