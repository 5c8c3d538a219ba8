/-
Crash recovery of the write-ahead log.  Whatever prefix of the log survives,
reading it back yields the records whose frames are complete, and the recovered
log is the log of exactly those records.
-/
import Oikos.Archon.Wal

namespace Oikos.Archon

open List

open WalRecord (frame encodedLen Small decode)

variable {S : Type} {wal wal' : Wal} {bytes : Bytes} {records : List WalRecord}

/-! ### Reading a log -/

/-- Reading `bytes` from `offset` on finds the intact records `records` and stops
at `stop`. -/
inductive Scan (bytes : Bytes) : Nat → List WalRecord → Nat → Prop
  | stop {offset : Nat} :
      (offset < bytes.length → ∃ e, decode (bytes.drop offset) = .error e) →
      Scan bytes offset [] offset
  | next {offset consumed stop : Nat} {record : WalRecord} {records : List WalRecord} :
      offset < bytes.length → 0 < consumed →
      decode (bytes.drop offset) = .ok (record, consumed) →
      Scan bytes (offset + consumed) records stop →
      Scan bytes offset (record :: records) stop

namespace Wal

theorem replayLoop_of_scan (f : S → WalRecord → S) {offset stop : Nat}
    (h : Scan wal.bytes offset records stop) {fuel count : Nat} {s : S}
    (hfuel : wal.bytes.length - offset < fuel) :
    loop (wal.replayTurn f) fuel (offset, count, s) =
      .ok (records.foldl f s, count + records.length) := by
  induction h generalizing fuel count s with
  | @stop offset hstop =>
    obtain ⟨fuel, rfl⟩ : ∃ n, fuel = n + 1 := ⟨fuel - 1, by omega⟩
    apply loop_succ_of_leave
    by_cases hlt : offset < wal.bytes.length
    · obtain ⟨e, he⟩ := hstop hlt
      simp [replayTurn, hlt, he]
    · simp [replayTurn, hlt]
  | @next offset consumed stop record records hlt hpos hdecode _ ih =>
    obtain ⟨fuel, rfl⟩ : ∃ n, fuel = n + 1 := ⟨fuel - 1, by omega⟩
    have hnext : Next (wal.replayTurn f) (offset, count, s)
        (offset + consumed, count + 1, f s record) := by
      simp [Next, replayTurn, hlt, hdecode]
    rw [loop_succ_of_next hnext, ih (by omega), foldl_cons, length_cons,
      Nat.add_right_comm, add_assoc]

/-- `replay` hands over the records found and counts them. -/
theorem replay_of_scan {stop : Nat} (h : Scan wal.bytes 0 records stop) (f : S → WalRecord → S)
    (s : S) : wal.replay f s = .ok (records.foldl f s, records.length) := by
  rw [replay, replayLoop_of_scan f h (by omega), zero_add]

theorem fromBytesLoop_of_scan {offset stop : Nat} (h : Scan bytes offset records stop)
    {fuel : Nat} {last : Option UInt64} (hfuel : bytes.length - offset < fuel) :
    loop (fromBytesTurn bytes) fuel (offset, last) =
      .ok (stop, (records.getLast?.map WalRecord.lsn).or last) := by
  induction h generalizing fuel last with
  | @stop offset hstop =>
    obtain ⟨fuel, rfl⟩ : ∃ n, fuel = n + 1 := ⟨fuel - 1, by omega⟩
    apply loop_succ_of_leave
    by_cases hlt : offset < bytes.length
    · obtain ⟨e, he⟩ := hstop hlt
      simp [fromBytesTurn, hlt, he]
    · simp [fromBytesTurn, hlt]
  | @next offset consumed stop record records hlt hpos hdecode _ ih =>
    obtain ⟨fuel, rfl⟩ : ∃ n, fuel = n + 1 := ⟨fuel - 1, by omega⟩
    have hnext : Next (fromBytesTurn bytes) (offset, last)
        (offset + consumed, some record.lsn) := by
      simp [Next, fromBytesTurn, hlt, hdecode]
    rw [loop_succ_of_next hnext, ih (by omega), getLast?_cons]
    cases records.getLast? <;> rfl

/-- `from_bytes` keeps the records found and continues their numbers. -/
theorem fromBytes_of_scan {stop : Nat} (h : Scan bytes 0 records stop) :
    fromBytes bytes = match records.getLast? with
      | none => .ok ⟨bytes.take stop, 0⟩
      | some record => (checkedSucc record.lsn).map fun next => ⟨bytes.take stop, next⟩ := by
  rw [fromBytes, fromBytesLoop_of_scan h (by omega)]
  cases records.getLast? with
  | none => rfl
  | some record =>
    simp only [ok_bind, Option.map_some, Option.some_or]
    cases checkedSucc record.lsn <;> rfl

end Wal

/-! ### Logs of appended records -/

/-- The arguments of `append`. -/
structure Append where
  kind : RecordKind
  blockId : UInt64
  payload : Bytes
deriving Repr, DecidableEq

def appended (calls : List Append) : List WalRecord :=
  calls.mapIdx fun i c => ⟨UInt64.ofNat i, c.kind, c.blockId, c.payload⟩

def Append.Fits (call : Append) : Prop :=
  call.payload.length < 2 ^ 32 - 64

@[simp] theorem length_appended (calls : List Append) : (appended calls).length = calls.length := by
  simp [appended]

theorem appended_concat (calls : List Append) (call : Append) :
    appended (calls ++ [call]) = appended calls ++
      [⟨UInt64.ofNat calls.length, call.kind, call.blockId, call.payload⟩] := by
  simp [appended, mapIdx_append]

theorem appended_take (calls : List Append) (n : Nat) :
    appended (calls.take n) = (appended calls).take n := by
  apply ext_getElem?
  intro i
  by_cases hi : i < n
  · simp [appended, hi]
  · simp [appended, hi]

theorem small_of_mem_appended {calls : List Append} (h : ∀ c ∈ calls, c.Fits)
    {record : WalRecord} (hr : record ∈ appended calls) : record.Small := by
  obtain ⟨i, hi, rfl⟩ := mem_mapIdx.mp hr
  exact h _ (getElem_mem hi)

namespace Wal

def appendCall (wal : Wal) (call : Append) : Result Empty Wal := do
  let (_, wal) ← wal.append call.kind call.blockId call.payload
  .ok wal

def appendAll : Wal → List Append → Result Empty Wal :=
  steps appendCall

structure IsLog (wal : Wal) (calls : List Append) : Prop where
  bytes : wal.bytes = (appended calls).flatMap frame
  nextLsn : wal.nextLsn.toNat = calls.length

theorem isLog_new : IsLog new [] :=
  ⟨rfl, rfl⟩

theorem IsLog.append {calls : List Append} (h : IsLog wal calls) {call : Append}
    (hcall : wal.appendCall call = .ok wal') : IsLog wal' (calls ++ [call]) := by
  simp only [appendCall, Wal.append, WalRecord.encode_replicate, bind_eq_ok] at hcall
  obtain ⟨⟨lsn, w⟩, ⟨next, hnext, hw⟩, hrest⟩ := hcall
  obtain ⟨rfl, rfl⟩ : lsn = wal.nextLsn ∧ w = _ := by simpa [eq_comm] using hw
  obtain rfl : _ = wal' := by simpa using hrest
  refine ⟨?_, ?_⟩
  · have hlsn : UInt64.ofNat calls.length = wal.nextLsn := by
      rw [← h.nextLsn, UInt64.ofNat_toNat]
    rw [appended_concat, flatMap_append, ← h.bytes, hlsn]
    simp [← WalRecord.length_frame]
  · rw [checkedSucc_eq_ok hnext, h.nextLsn, length_append, length_singleton]

theorem IsLog.appendAll {calls more : List Append} (h : IsLog wal calls)
    (hrun : wal.appendAll more = .ok wal') : IsLog wal' (calls ++ more) := by
  induction more generalizing wal calls with
  | nil =>
    obtain rfl : wal = wal' := by simpa [Wal.appendAll, steps] using hrun
    simpa using h
  | cons call more ih =>
    simp only [Wal.appendAll, steps] at hrun
    cases hcall : wal.appendCall call with
    | error e => simp [hcall] at hrun
    | ok w =>
      have hlog := ih (h.append hcall) (by simpa [Wal.appendAll, hcall] using hrun)
      simpa using hlog

end Wal

/-! ### Truncated logs -/

/-- The records of a log that starts at `offset`, each with the end of its frame. -/
def layout : Nat → List WalRecord → List (WalRecord × Nat)
  | _, [] => []
  | offset, record :: records =>
    (record, offset + record.encodedLen) :: layout (offset + record.encodedLen) records

/-- The records whose frames lie within the first `n` bytes. -/
def complete (offset : Nat) (records : List WalRecord) (n : Nat) : List WalRecord :=
  ((layout offset records).filter fun p => decide (p.2 ≤ n)).map Prod.fst

theorem lt_of_mem_layout {offset : Nat} {p : WalRecord × Nat} (h : p ∈ layout offset records) :
    offset < p.2 := by
  induction records generalizing offset with
  | nil => simp [layout] at h
  | cons record records ih =>
    have hpos : 0 < record.encodedLen := by
      simp only [encodedLen]
      omega
    rcases mem_cons.mp h with rfl | h
    · exact Nat.lt_add_of_pos_right hpos
    · have := ih h
      omega

theorem complete_cons (offset : Nat) (record : WalRecord) (records : List WalRecord) (n : Nat) :
    complete offset (record :: records) n =
      if offset + record.encodedLen ≤ n then
        record :: complete (offset + record.encodedLen) records n
      else [] := by
  by_cases hle : offset + record.encodedLen ≤ n
  · simp [complete, layout, hle]
  · have hnone : (layout (offset + record.encodedLen) records).filter
        (fun p => decide (p.2 ≤ n)) = [] := by
      rw [filter_eq_nil_iff]
      intro p hp
      have := lt_of_mem_layout hp
      simp only [decide_eq_true_eq]
      omega
    simp [complete, layout, hle, hnone]

theorem complete_eq_take (offset : Nat) (records : List WalRecord) (n : Nat) :
    complete offset records n = records.take (complete offset records n).length := by
  induction records generalizing offset with
  | nil => rfl
  | cons record records ih =>
    rw [complete_cons]
    split
    · rw [length_cons, take_succ_cons, ← ih]
    · rfl

theorem length_flatMap_cons (record : WalRecord) (records : List WalRecord) :
    ((record :: records).flatMap frame).length =
      record.encodedLen + (records.flatMap frame).length := by
  rw [flatMap_cons, length_append, WalRecord.length_frame]

theorem complete_eq_self {offset n : Nat} (h : offset + (records.flatMap frame).length ≤ n) :
    complete offset records n = records := by
  induction records generalizing offset with
  | nil => rfl
  | cons record records ih =>
    rw [length_flatMap_cons] at h
    rw [complete_cons, if_pos (by omega), ih (by omega)]

/-- Reading a truncated log finds the complete frames and stops after them. -/
theorem scan_take (hsmall : ∀ r ∈ records, Small r) (pre : Bytes) {n : Nat}
    (hn : pre.length ≤ n) :
    Scan ((pre ++ records.flatMap frame).take n) pre.length (complete pre.length records n)
        (pre.length + ((complete pre.length records n).flatMap frame).length) ∧
      pre.length + ((complete pre.length records n).flatMap frame).length ≤ n := by
  induction records generalizing pre with
  | nil =>
    refine ⟨.stop fun hlt => ?_, by simpa [complete, layout] using hn⟩
    simp only [flatMap_nil, append_nil, length_take] at hlt
    omega
  | cons record records ih =>
    have hsmallr := hsmall record mem_cons_self
    have hlen := record.length_frame
    have hpos : 0 < record.encodedLen := by
      simp only [encodedLen]
      omega
    have hdrop : ((pre ++ (record :: records).flatMap frame).take n).drop pre.length =
        (record.frame ++ records.flatMap frame).take (n - pre.length) := by
      rw [drop_take, drop_left, flatMap_cons]
    rw [complete_cons]
    split
    · next hle =>
      obtain ⟨hscan, hstop⟩ := ih (fun r hr => hsmall r (mem_cons_of_mem record hr))
        (pre ++ record.frame) (by simpa [hlen] using hle)
      simp only [length_append, hlen] at hscan hstop
      rw [length_flatMap_cons, ← add_assoc]
      refine ⟨.next ?_ hpos ?_ ?_, hstop⟩
      · simp only [length_take, length_append, length_flatMap_cons]
        omega
      · have htake : (record.frame ++ records.flatMap frame).take (n - pre.length) =
            record.frame ++ (records.flatMap frame).take (n - pre.length - record.encodedLen) := by
          rw [take_append, take_of_length_le (by omega), hlen]
        rw [hdrop, htake]
        exact WalRecord.decode_frame hsmallr _
      · simpa using hscan
    · next hle =>
      refine ⟨.stop fun _ => ⟨.malformed, ?_⟩, by simpa using hn⟩
      rw [hdrop, take_append_of_le_length (by omega)]
      exact WalRecord.decode_torn hsmallr (by omega)

/-- The appended records whose frames lie within the first `n` bytes of the log. -/
def durable (calls : List Append) (n : Nat) : List WalRecord :=
  complete 0 (appended calls) n

theorem durable_eq_appended (calls : List Append) (n : Nat) :
    durable calls n = appended (calls.take (durable calls n).length) := by
  rw [appended_take]
  exact complete_eq_take 0 (appended calls) n

namespace Wal

variable {calls : List Append}

theorem IsLog.replay (h : IsLog wal calls) (hfits : ∀ c ∈ calls, c.Fits)
    (f : S → WalRecord → S) (s : S) :
    wal.replay f s = .ok ((appended calls).foldl f s, calls.length) := by
  have hall : complete 0 (appended calls) wal.bytes.length = appended calls :=
    complete_eq_self (by rw [h.bytes, zero_add])
  obtain ⟨hscan, _⟩ := scan_take (fun _ => small_of_mem_appended hfits) [] (n := wal.bytes.length)
    (Nat.zero_le _)
  rw [length_nil, hall, nil_append, ← h.bytes, take_length] at hscan
  rw [replay_of_scan hscan, length_appended]

theorem IsLog.fromBytes (h : IsLog wal calls) (hfits : ∀ c ∈ calls, c.Fits) (n : Nat) :
    ∃ r, fromBytes (wal.bytes.take n) = .ok r ∧
      IsLog r (calls.take (durable calls n).length) := by
  obtain ⟨hscan, hstop⟩ := scan_take (fun _ => small_of_mem_appended hfits) []
    (Nat.zero_le n)
  set m := (durable calls n).length with hm
  have hdur : complete 0 (appended calls) n = appended (calls.take m) :=
    durable_eq_appended calls n
  have hle : m ≤ calls.length := by
    have hlen := congrArg length (durable_eq_appended calls n)
    simp only [length_appended, length_take] at hlen
    omega
  simp only [length_nil, nil_append, hdur, zero_add] at hscan hstop
  rw [← h.bytes] at hscan
  have hbytes : (wal.bytes.take n).take ((appended (calls.take m)).flatMap frame).length =
      (appended (calls.take m)).flatMap frame := by
    have hsplit : (appended calls).flatMap frame =
        (appended (calls.take m)).flatMap frame ++ ((appended calls).drop m).flatMap frame := by
      rw [appended_take, ← flatMap_append, take_append_drop]
    rw [take_take, Nat.min_eq_left hstop, h.bytes, hsplit, take_left]
  have hfrom := fromBytes_of_scan hscan
  rw [hbytes] at hfrom
  have hbound := wal.nextLsn.toNat_lt
  rw [h.nextLsn] at hbound
  have hlen : (calls.take m).length = m := length_take_of_le hle
  rcases eq_nil_or_concat (calls.take m) with hnil | ⟨l, c, hlast⟩
  · rw [hnil] at hfrom ⊢
    exact ⟨new, hfrom, isLog_new⟩
  · rw [concat_eq_append] at hlast
    rw [hlast] at hfrom hlen ⊢
    rw [length_append, length_singleton] at hlen
    have hnat : (UInt64.ofNat l.length).toNat = l.length :=
      UInt64.toNat_ofNat_of_lt' (by simp only [UInt64.size]; omega)
    obtain ⟨next, hnext⟩ : ∃ x, (checkedSucc (UInt64.ofNat l.length) : Result Empty UInt64) =
        .ok x := by
      refine ⟨_, if_pos ?_⟩
      rw [hnat]
      omega
    refine ⟨⟨(appended (l ++ [c])).flatMap frame, next⟩, ?_, rfl, ?_⟩
    · rw [hfrom, appended_concat, getLast?_concat]
      simp [hnext, Except.map]
    · rw [checkedSucc_eq_ok hnext, hnat, length_append, length_singleton]

def RecoversTruncations (calls : List Append) (log : Bytes) : Prop :=
  ∀ n, ∃ r, fromBytes (log.take n) = .ok r ∧
    (∀ (S : Type) (f : S → WalRecord → S) (s : S),
      r.replay f s = .ok ((durable calls n).foldl f s, (durable calls n).length)) ∧
    (durable calls n).map (fun record => record.lsn.toNat) = List.range (durable calls n).length ∧
    r.nextLsn.toNat = (durable calls n).length

theorem appended_lsns (h : calls.length < 2 ^ 64) :
    (appended calls).map (fun record => record.lsn.toNat) = range calls.length := by
  apply ext_getElem
  · simp
  · intro i hi hi'
    have hlt : i < 2 ^ 64 := by
      simp only [length_range] at hi'
      omega
    simp only [appended, getElem_map, getElem_range, getElem_mapIdx]
    exact Nat.mod_eq_of_lt hlt

theorem IsLog.recoversTruncations (h : IsLog wal calls)
    (hfits : ∀ c ∈ calls, c.Fits) : RecoversTruncations calls wal.bytes := by
  intro n
  obtain ⟨r, hfrom, hlog⟩ := h.fromBytes hfits n
  have hdur := durable_eq_appended calls n
  have hlen : (calls.take (durable calls n).length).length = (durable calls n).length := by
    have := congrArg length hdur
    rwa [length_appended, eq_comm] at this
  have hbound := r.nextLsn.toNat_lt
  rw [hlog.nextLsn] at hbound
  refine ⟨r, hfrom, ?_, ?_, hlog.nextLsn.trans hlen⟩
  · intro S f s
    rw [hlog.replay (fun c hc => hfits c (mem_of_mem_take hc)) f s, ← hdur, hlen]
  · have hlsns := appended_lsns hbound
    rwa [← hdur, hlen] at hlsns

theorem IsLog.exists_appendAll (h : IsLog wal calls) (more : List Append)
    (hlen : (calls ++ more).length < 2 ^ 64) : ∃ w, wal.appendAll more = .ok w := by
  induction more generalizing wal calls with
  | nil => exact ⟨wal, rfl⟩
  | cons call more ih =>
    simp only [length_append, length_cons] at hlen
    have hnext : (checkedSucc wal.nextLsn : Result Empty UInt64) = .ok (wal.nextLsn + 1) :=
      if_pos (by rw [h.nextLsn]; omega)
    obtain ⟨w, hcall⟩ : ∃ w, wal.appendCall call = .ok w :=
      ⟨_, by simp only [appendCall, Wal.append, WalRecord.encode_replicate, hnext, ok_bind]; rfl⟩
    obtain ⟨w', hw'⟩ := ih (h.append hcall) (by simp; omega)
    exact ⟨w', by simpa [Wal.appendAll, steps, hcall] using hw'⟩

theorem IsLog.unique (h : IsLog wal calls) (h' : IsLog wal' calls) : wal = wal' := by
  cases wal
  cases wal'
  simp only [Wal.mk.injEq]
  exact ⟨h.bytes.trans h'.bytes.symm, UInt64.toNat_inj.mp (h.nextLsn.trans h'.nextLsn.symm)⟩

theorem IsLog.eq_appendAll (h : IsLog wal calls) : Wal.new.appendAll calls = .ok wal := by
  have hbound := wal.nextLsn.toNat_lt
  rw [h.nextLsn] at hbound
  obtain ⟨w, hw⟩ := isLog_new.exists_appendAll calls hbound
  rw [hw, (isLog_new.appendAll hw).unique h]

/-- After a crash at any point the log holds exactly the records whose frames are
complete: it is the log of the calls that made them, and it can be appended to
and crash again under the same promise. -/
theorem fromBytes_recovers (hfits : ∀ c ∈ calls, c.Fits)
    (hrun : Wal.new.appendAll calls = .ok wal) :
    RecoversTruncations calls wal.bytes ∧
      ∀ n r, fromBytes (wal.bytes.take n) = .ok r →
        Wal.new.appendAll (calls.take (durable calls n).length) = .ok r ∧
        ∀ more : List Append, (∀ c ∈ more, c.Fits) → ∀ wal', r.appendAll more = .ok wal' →
          RecoversTruncations (calls.take (durable calls n).length ++ more) wal'.bytes := by
  have hlog : IsLog wal calls := isLog_new.appendAll hrun
  refine ⟨hlog.recoversTruncations hfits, ?_⟩
  intro n r hr
  obtain ⟨r', hr', hlog'⟩ := hlog.fromBytes hfits n
  obtain rfl : r' = r := by
    have heq := hr'.symm.trans hr
    simpa using heq
  refine ⟨hlog'.eq_appendAll, ?_⟩
  intro more hmore wal' hrun'
  refine (hlog'.appendAll hrun').recoversTruncations fun c hc => ?_
  rcases mem_append.mp hc with hc | hc
  · exact hfits c (mem_of_mem_take hc)
  · exact hmore c hc

/-- Two records, cut inside the second. -/
theorem fromBytes_recovers_torn :
    ∃ wal, Wal.new.appendAll [⟨.pageWrite, 7, [1, 2, 3]⟩, ⟨.commit, 0, []⟩] = .ok wal ∧
      durable [⟨.pageWrite, 7, [1, 2, 3]⟩, ⟨.commit, 0, []⟩] 40 =
        [⟨0, .pageWrite, 7, [1, 2, 3]⟩] ∧
      RecoversTruncations [⟨.pageWrite, 7, [1, 2, 3]⟩, ⟨.commit, 0, []⟩] wal.bytes := by
  have hfits : ∀ c ∈ ([⟨.pageWrite, 7, [1, 2, 3]⟩, ⟨.commit, 0, []⟩] : List Append), c.Fits := by
    intro c hc
    rcases mem_cons.mp hc with rfl | hc
    · exact (by decide : [1, 2, 3].length < 2 ^ 32 - 64)
    · obtain rfl : c = ⟨.commit, 0, []⟩ := by simpa using hc
      exact (by decide : 0 < 2 ^ 32 - 64)
  obtain ⟨wal, hrun⟩ := isLog_new.exists_appendAll
    [⟨.pageWrite, 7, [1, 2, 3]⟩, ⟨.commit, 0, []⟩] (by decide)
  exact ⟨wal, hrun, by decide, (fromBytes_recovers hfits hrun).1⟩

end Wal

end Oikos.Archon
