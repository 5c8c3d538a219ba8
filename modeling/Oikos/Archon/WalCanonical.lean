/-
Which frames of the write-ahead log are canonical.  The checksum covers the
length of the payload but not the length of the frame, so a frame whose two
lengths disagree is read too.
-/
import Oikos.Archon.WalRecovery

namespace Oikos.Archon

open List

open WalRecord (frame encodedLen decode)

variable {record : WalRecord} {data bytes : Bytes} {records : List WalRecord} {n : Nat}

theorem RecordKind.toU8_of_fromU8 {v : UInt8} {kind : RecordKind} (h : fromU8 v = some kind) :
    kind.toU8 = v := by
  unfold fromU8 at h
  split at h
  · next hv =>
    cases h
    exact hv.symm
  · split at h
    · next hv =>
      cases h
      exact hv.symm
    · split at h
      · next hv =>
        cases h
        exact hv.symm
      · cases h

namespace WalRecord

theorem orMalformed_eq_ok {α : Type} {x : Except OutOfSpace α} {a : α}
    (h : orMalformed x = .ok a) : x = .ok a := by
  cases x with
  | ok b =>
    cases h
    rfl
  | error e => cases h

theorem take_drop_middle {α : Type} (l m r : List α) :
    ((l ++ (m ++ r)).take (l.length + m.length)).drop l.length = m := by
  rw [← append_assoc, ← length_append, take_left, drop_left]

theorem decode_sound (h : decode data = .ok (record, n)) :
    ∃ (bodyLen : UInt32) (rest : Bytes),
      data = leBytes 4 bodyLen.toNat ++
        (record.body ++ (leBytes 4 (crc32 record.body).toNat ++ rest)) ∧
      n = 4 + bodyLen.toNat ∧ n ≤ data.length ∧ record.payload.length < 2 ^ 32 := by
  have hnew : Reader.new data = Reader.past [] data := by simp [Reader.new, Reader.past]
  unfold decode at h
  rw [hnew] at h
  obtain ⟨⟨bodyLen, r⟩, hread, h⟩ := bind_eq_ok.mp h
  obtain ⟨data₁, hdata, rfl⟩ := Reader.readU32_sound (orMalformed_eq_ok hread)
  dsimp only at h
  split at h
  · cases h
  · next hle =>
    obtain ⟨⟨lsn, r⟩, hread, h⟩ := bind_eq_ok.mp h
    obtain ⟨data₂, hdata₁, rfl⟩ := Reader.readU64_sound (orMalformed_eq_ok hread)
    obtain ⟨⟨kindTag, r⟩, hread, h⟩ := bind_eq_ok.mp h
    obtain ⟨data₃, hdata₂, rfl⟩ := Reader.readU8_sound (orMalformed_eq_ok hread)
    cases hkind : RecordKind.fromU8 kindTag with
    | none =>
      simp only [hkind] at h
      cases h
    | some kind =>
      simp only [hkind] at h
      obtain ⟨⟨blockId, r⟩, hread, h⟩ := bind_eq_ok.mp h
      obtain ⟨data₄, hdata₃, rfl⟩ := Reader.readU64_sound (orMalformed_eq_ok hread)
      obtain ⟨⟨payloadLen, r⟩, hread, h⟩ := bind_eq_ok.mp h
      obtain ⟨data₅, hdata₄, rfl⟩ := Reader.readU32_sound (orMalformed_eq_ok hread)
      obtain ⟨⟨payload, r⟩, hread, h⟩ := bind_eq_ok.mp h
      obtain ⟨data₆, hdata₅, hlen, rfl⟩ := Reader.readBytes_sound (orMalformed_eq_ok hread)
      obtain ⟨⟨storedCrc, r⟩, hread, h⟩ := bind_eq_ok.mp h
      obtain ⟨rest, hdata₆, rfl⟩ := Reader.readU32_sound (orMalformed_eq_ok hread)
      dsimp only at h
      split at h
      · cases h
      · next hcrc =>
        cases h
        have hpay : UInt32.ofNat payload.length = payloadLen := by
          rw [hlen, UInt32.ofNat_toNat]
        have hbody : (⟨lsn, kind, blockId, payload⟩ : WalRecord).body =
            leBytes 8 lsn.toNat ++ ([kindTag] ++ (leBytes 8 blockId.toNat ++
              (leBytes 4 payloadLen.toNat ++ payload))) := by
          rw [body, RecordKind.toU8_of_fromU8 hkind, hpay]
        have hsplit : data = leBytes 4 bodyLen.toNat ++
            ((⟨lsn, kind, blockId, payload⟩ : WalRecord).body ++
              (leBytes 4 storedCrc.toNat ++ rest)) := by
          rw [hdata, hdata₁, hdata₂, hdata₃, hdata₄, hdata₅, hdata₆, hbody]
          simp
        have hregion : ((data.take (4 + (headerLen + payload.length))).drop 4) =
            (⟨lsn, kind, blockId, payload⟩ : WalRecord).body := by
          have hcut := take_drop_middle (leBytes 4 bodyLen.toNat)
            (⟨lsn, kind, blockId, payload⟩ : WalRecord).body (leBytes 4 storedCrc.toNat ++ rest)
          rw [← hsplit, length_leBytes, length_body] at hcut
          exact hcut
        have hstored : crc32 (⟨lsn, kind, blockId, payload⟩ : WalRecord).body = storedCrc := by
          have hend : 0 + 4 + 8 + 1 + 8 + 4 + payload.length + 4 - 4 =
              4 + (headerLen + payload.length) := by
            simp only [headerLen]
            omega
          simp only [Reader.pos_past, length_append, length_nil,
            length_singleton, length_leBytes, ne_eq, not_not] at hcrc
          rwa [hend, zero_add, hregion] at hcrc
        refine ⟨bodyLen, rest, by rw [hstored]; exact hsplit, rfl, ?_, ?_⟩
        · rw [hdata, length_append, length_leBytes]
          rw [Reader.remaining_past, not_lt] at hle
          omega
        · rw [hlen]
          exact payloadLen.toNat_lt

def LengthsAgree (data : Bytes) : Prop :=
  leValue (data.take 4) = headerLen + leValue ((data.drop (4 + 17)).take 4) + 4

/-- The frame that `encode` makes of a record is what the record was read from. -/
def Canonical (record : WalRecord) (data : Bytes) (n : Nat) : Prop :=
  record.encode (List.replicate record.encodedLen 0) = .ok (data.take n, n)

theorem canonical_iff : Canonical record data n ↔ n = record.encodedLen ∧
    data.take n = record.frame := by
  rw [Canonical, encode_replicate]
  constructor
  · intro h
    simp only [Except.ok.injEq, Prod.mk.injEq] at h
    exact ⟨h.2.symm, h.1.symm⟩
  · rintro ⟨rfl, hframe⟩
    rw [hframe]

theorem lengths_of_decode (h : decode data = .ok (record, n)) :
    leValue (data.take 4) + 4 = n ∧
      leValue ((data.drop (4 + 17)).take 4) = record.payload.length := by
  obtain ⟨bodyLen, rest, hdata, hn, -, hpay⟩ := decode_sound h
  constructor
  · rw [hdata, take_left' (length_leBytes 4 _), leValue_leBytes_of_lt bodyLen.toNat_lt, hn,
      add_comm]
  · have hhead : (leBytes 8 record.lsn.toNat ++ ([record.kind.toU8] ++
        leBytes 8 record.blockId.toNat)).length = 17 := by simp
    have hbody : record.body = (leBytes 8 record.lsn.toNat ++ ([record.kind.toU8] ++
        leBytes 8 record.blockId.toNat)) ++
          (leBytes 4 (UInt32.ofNat record.payload.length).toNat ++ record.payload) := by
      simp [body]
    have hlen : (UInt32.ofNat record.payload.length).toNat = record.payload.length :=
      UInt32.toNat_ofNat_of_lt' hpay
    rw [hdata, ← drop_drop, drop_left' (length_leBytes 4 _), hbody, append_assoc,
      drop_left' hhead, append_assoc, take_left' (length_leBytes 4 _), hlen,
      leValue_leBytes_of_lt hpay]

theorem canonical_iff_lengthsAgree (h : decode data = .ok (record, n)) :
    Canonical record data n ↔ LengthsAgree data := by
  obtain ⟨hbody, hpayload⟩ := lengths_of_decode h
  rw [LengthsAgree, hpayload, canonical_iff]
  obtain ⟨bodyLen, rest, hdata, hn, -, -⟩ := decode_sound h
  constructor
  · rintro ⟨hlen, -⟩
    rw [hlen, encodedLen] at hbody
    omega
  · intro hagree
    have hlen : n = record.encodedLen := by
      rw [encodedLen]
      omega
    have hfield : UInt32.ofNat (headerLen + record.payload.length + 4) = bodyLen := by
      have : headerLen + record.payload.length + 4 = bodyLen.toNat := by
        rw [encodedLen] at hlen
        omega
      rw [this, UInt32.ofNat_toNat]
    have hframe : data = record.frame ++ rest := by
      rw [hdata, frame, hfield]
      simp
    refine ⟨hlen, ?_⟩
    rw [hlen, hframe, ← length_frame, take_left]

end WalRecord

/-! ### Whole logs -/

open WalRecord (LengthsAgree Canonical)

/-- Where `replay` and `from_bytes` start to read a frame. -/
inductive Reached (bytes : Bytes) : Nat → Prop
  | start : Reached bytes 0
  | next {offset consumed : Nat} {record : WalRecord} :
      Reached bytes offset → offset < bytes.length →
      decode (bytes.drop offset) = .ok (record, consumed) → Reached bytes (offset + consumed)

theorem exists_scan (bytes : Bytes) (offset : Nat) :
    ∃ records stop, Scan bytes offset records stop := by
  induction hsize : bytes.length - offset using Nat.strong_induction_on generalizing offset with
  | _ size ih =>
    cases hdecode : decode (bytes.drop offset) with
    | error e => exact ⟨[], offset, .stop fun _ => ⟨e, hdecode⟩⟩
    | ok p =>
      obtain ⟨record, consumed⟩ := p
      obtain ⟨bodyLen, rest, hdata, hn, hle, -⟩ := WalRecord.decode_sound hdecode
      have hlen := congrArg length hdata
      simp only [length_drop, length_append, length_leBytes] at hlen
      obtain ⟨records, stop, hscan⟩ :=
        ih (bytes.length - (offset + consumed)) (by omega) (offset + consumed) rfl
      exact ⟨record :: records, stop, .next (by omega) (by omega) hdecode hscan⟩

theorem Scan.tiles {offset stop : Nat} (h : Scan bytes offset records stop)
    (hreached : Reached bytes offset)
    (hagree : ∀ offset, Reached bytes offset → offset < bytes.length →
      (∃ p, decode (bytes.drop offset) = .ok p) → LengthsAgree (bytes.drop offset)) :
    stop = offset + (records.flatMap frame).length ∧
      (bytes.drop offset).take (records.flatMap frame).length = records.flatMap frame := by
  induction h with
  | stop _ => simp
  | @next offset consumed stop record records hlt _ hdecode _ ih =>
    have hcanonical := (WalRecord.canonical_iff_lengthsAgree hdecode).mpr
      (hagree offset hreached hlt ⟨_, hdecode⟩)
    obtain ⟨hlen, hframe⟩ := WalRecord.canonical_iff.mp hcanonical
    obtain ⟨hstop, htiles⟩ := ih (hreached.next hlt hdecode)
    rw [flatMap_cons, length_append, WalRecord.length_frame, ← hlen]
    refine ⟨by omega, ?_⟩
    rw [take_add, drop_drop, htiles, hframe]

namespace Wal

/-- Reading the log hands over records whose frames stand one after the other from
its start, and keeps exactly these. -/
def ReadsWhole (bytes : Bytes) : Prop :=
  ∃ records : List WalRecord, records.flatMap frame <+: bytes ∧
    (∀ (nextLsn : UInt64) (S : Type) (f : S → WalRecord → S) (s : S),
      (⟨bytes, nextLsn⟩ : Wal).replay f s = .ok (records.foldl f s, records.length)) ∧
    ∀ wal, fromBytes bytes = .ok wal → wal.bytes = records.flatMap frame

theorem readsWhole_of_lengthsAgree
    (hagree : ∀ offset, Reached bytes offset → offset < bytes.length →
      (∃ p, decode (bytes.drop offset) = .ok p) → LengthsAgree (bytes.drop offset)) :
    ReadsWhole bytes := by
  obtain ⟨records, stop, hscan⟩ := exists_scan bytes 0
  obtain ⟨hstop, htiles⟩ := hscan.tiles .start hagree
  rw [zero_add] at hstop
  rw [drop_zero] at htiles
  refine ⟨records, ?_, ?_, ?_⟩
  · rw [← htiles]
    exact take_prefix _ _
  · intro nextLsn S f s
    have hscan' : Scan (⟨bytes, nextLsn⟩ : Wal).bytes 0 records stop := hscan
    exact replay_of_scan hscan' f s
  · intro wal hwal
    rw [fromBytes_of_scan hscan, hstop, htiles] at hwal
    cases hlast : records.getLast? with
    | none =>
      rw [hlast] at hwal
      cases hwal
      rfl
    | some record =>
      rw [hlast] at hwal
      cases hnext : (checkedSucc record.lsn : Result Empty UInt64) with
      | ok next =>
        simp only [hnext] at hwal
        cases hwal
        rfl
      | error e =>
        simp only [hnext] at hwal
        cases hwal

/-- A record that is read is the one its bytes encode exactly when the two lengths
of its frame agree, and a log all of whose frames agree is read frame by frame. -/
theorem decode_canonical_iff (bytes : Bytes) :
    (∀ (record : WalRecord) (n : Nat), decode bytes = .ok (record, n) →
      (n = record.encodedLen ∧
        record.encode (replicate record.encodedLen 0) = .ok (bytes.take n, n) ↔
          LengthsAgree bytes)) ∧
    ((∀ offset, Reached bytes offset → offset < bytes.length →
        (∃ p, decode (bytes.drop offset) = .ok p) → LengthsAgree (bytes.drop offset)) →
      ReadsWhole bytes) := by
  constructor
  · intro record n h
    rw [← WalRecord.canonical_iff_lengthsAgree h]
    constructor
    · exact fun hcanonical => hcanonical.2
    · exact fun hcanonical => ⟨(WalRecord.canonical_iff.mp hcanonical).1, hcanonical⟩
  · exact readsWhole_of_lengthsAgree

/-- An empty commit record whose frame length was overwritten with zeros. -/
def damaged : Bytes :=
  [0, 0, 0, 0] ++ ((⟨0, .commit, 0, []⟩ : WalRecord).body ++
    leBytes 4 (crc32 (⟨0, .commit, 0, []⟩ : WalRecord).body).toNat)

/-- The damaged frame is read, though only its length field is taken for consumed. -/
theorem not_decode_canonical :
    decode damaged = .ok (⟨0, .commit, 0, []⟩, 4) ∧
      4 ≠ (⟨0, .commit, 0, []⟩ : WalRecord).encodedLen :=
  ⟨by decide +kernel, by decide⟩

/-- The frame of a commit without a page. -/
theorem decode_canonical_iff_commit :
    LengthsAgree (⟨0, .commit, 0, []⟩ : WalRecord).frame ∧
      (29 = (⟨0, .commit, 0, []⟩ : WalRecord).encodedLen ∧
        (⟨0, .commit, 0, []⟩ : WalRecord).encode
          (replicate (⟨0, .commit, 0, []⟩ : WalRecord).encodedLen 0) =
            .ok ((⟨0, .commit, 0, []⟩ : WalRecord).frame.take 29, 29)) := by
  have hagree : LengthsAgree (⟨0, .commit, 0, []⟩ : WalRecord).frame := by
    unfold LengthsAgree
    decide
  have hread : decode (⟨0, .commit, 0, []⟩ : WalRecord).frame = .ok (⟨0, .commit, 0, []⟩, 29) := by
    decide +kernel
  exact ⟨hagree, ((decode_canonical_iff _).1 _ _ hread).mpr hagree⟩

end Wal

end Oikos.Archon
