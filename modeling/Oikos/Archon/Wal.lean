/-
The bounds-checked little-endian writer and reader of `tpt-archon-core`.

The write-ahead log of `tpt-archon-core`: framed records with a sequence number
and a checksum, appended to a byte buffer and read back until the first frame
that is not intact.
-/
import Oikos.Lib.Bits
import Oikos.Archon.BTree

namespace Oikos.Archon

open List

/-- A read or write beyond the end of the buffer. -/
structure OutOfSpace where
  needed : Nat
  available : Nat
deriving Repr, DecidableEq

/-- A writer over a byte slice. -/
structure Cursor where
  buf : Bytes
  pos : Nat
deriving Repr, DecidableEq

namespace Cursor

def new (buf : Bytes) : Cursor :=
  ⟨buf, 0⟩

/-- Copy `data` over the next bytes of the slice. -/
def putBytes (c : Cursor) (data : Bytes) : Except OutOfSpace Cursor :=
  let available := c.buf.length - c.pos
  if data.length > available then .error ⟨data.length, available⟩
  else .ok ⟨c.buf.take c.pos ++ data ++ c.buf.drop (c.pos + data.length), c.pos + data.length⟩

def putU8 (c : Cursor) (v : UInt8) : Except OutOfSpace Cursor :=
  c.putBytes [v]

def putU32 (c : Cursor) (v : UInt32) : Except OutOfSpace Cursor :=
  c.putBytes (leBytes 4 v.toNat)

def putU64 (c : Cursor) (v : UInt64) : Except OutOfSpace Cursor :=
  c.putBytes (leBytes 8 v.toNat)

/-- Writing within the slice replaces what stood there. -/
theorem putBytes_append (l data old r : Bytes) (h : old.length = data.length) :
    (⟨l ++ (old ++ r), l.length⟩ : Cursor).putBytes data =
      .ok ⟨l ++ data ++ r, (l ++ data).length⟩ := by
  have hdrop : (l ++ (old ++ r)).drop (l.length + data.length) = r := by
    rw [← append_assoc, drop_left']
    simp [h]
  simp [putBytes, h, hdrop]

end Cursor

/-- A reader over a byte slice. -/
structure Reader where
  buf : Bytes
  pos : Nat
deriving Repr, DecidableEq

namespace Reader

def new (buf : Bytes) : Reader :=
  ⟨buf, 0⟩

def remaining (r : Reader) : Nat :=
  r.buf.length - r.pos

/-- The next `n` bytes. -/
def readBytes (r : Reader) (n : Nat) : Except OutOfSpace (Bytes × Reader) :=
  if n > r.remaining then .error ⟨n, r.remaining⟩
  else .ok ((r.buf.drop r.pos).take n, { r with pos := r.pos + n })

def readU8 (r : Reader) : Except OutOfSpace (UInt8 × Reader) := do
  let (b, r) ← r.readBytes 1
  .ok (UInt8.ofNat (leValue b), r)

def readU32 (r : Reader) : Except OutOfSpace (UInt32 × Reader) := do
  let (b, r) ← r.readBytes 4
  .ok (UInt32.ofNat (leValue b), r)

def readU64 (r : Reader) : Except OutOfSpace (UInt64 × Reader) := do
  let (b, r) ← r.readBytes 8
  .ok (UInt64.ofNat (leValue b), r)

variable {r : Reader} {l rest : Bytes}

theorem readU32_short (h : r.remaining < 4) : r.readU32 = .error ⟨4, r.remaining⟩ := by
  simp [readU32, readBytes, h]

/-- A reader that has the bytes `rest` before it, having consumed `l`. -/
def past (l rest : Bytes) : Reader :=
  ⟨l ++ rest, l.length⟩

@[simp] theorem pos_past (l rest : Bytes) : (Reader.past l rest).pos = l.length := rfl

@[simp] theorem remaining_past (l rest : Bytes) : (Reader.past l rest).remaining = rest.length := by
  simp [remaining, Reader.past]

theorem readBytes_past (l data rest : Bytes) :
    (Reader.past l (data ++ rest)).readBytes data.length = .ok
    (data, Reader.past (l ++ data) rest) := by
  simp [readBytes, Reader.past, remaining]

theorem readU8_past (l rest : Bytes) (v : UInt8) :
    (Reader.past l (v :: rest)).readU8 = .ok (v, Reader.past (l ++ [v]) rest) := by
  have h := readBytes_past l [v] rest
  simp only [length_singleton, singleton_append] at h
  simp only [readU8, h]
  simp [bind, Except.bind, leValue]

theorem readNat_past {T : Type} (ofNat : Nat → T) {w n : Nat} (hn : n < 256 ^ w) (l rest : Bytes) :
    (do
      let (b, r) ← (Reader.past l (leBytes w n ++ rest)).readBytes w
      .ok (ofNat (leValue b), r)) =
        (.ok (ofNat n, Reader.past (l ++ leBytes w n) rest) : Except OutOfSpace (T × Reader)) := by
  have h := readBytes_past l (leBytes w n) rest
  rw [length_leBytes] at h
  rw [h, ok_bind]
  simp only [leValue_leBytes_of_lt hn]

theorem readU32_past (l rest : Bytes) (v : UInt32) :
    (Reader.past l (leBytes 4 v.toNat ++ rest)).readU32 =
      .ok (v, Reader.past (l ++ leBytes 4 v.toNat) rest) := by
  rw [readU32, readNat_past UInt32.ofNat v.toNat_lt, UInt32.ofNat_toNat]

theorem readU64_past (l rest : Bytes) (v : UInt64) :
    (Reader.past l (leBytes 8 v.toNat ++ rest)).readU64 =
      .ok (v, Reader.past (l ++ leBytes 8 v.toNat) rest) := by
  rw [readU64, readNat_past UInt64.ofNat v.toNat_lt, UInt64.ofNat_toNat]

theorem readBytes_sound {bs : Bytes} {n : Nat}
    (h : (Reader.past l rest).readBytes n = .ok (bs, r)) :
    ∃ rest', rest = bs ++ rest' ∧ bs.length = n ∧ r = Reader.past (l ++ bs) rest' := by
  unfold readBytes at h
  split at h
  · cases h
  · next hle =>
    cases h
    rw [remaining_past, not_lt] at hle
    have hdrop : ((Reader.past l rest).buf.drop (Reader.past l rest).pos) = rest :=
      drop_left' rfl
    rw [hdrop]
    refine ⟨rest.drop n, (take_append_drop n rest).symm, length_take_of_le hle, ?_⟩
    rw [Reader.past, Reader.past, append_assoc, take_append_drop, length_append,
      length_take_of_le hle]

theorem readU8_sound {v : UInt8} (h : (Reader.past l rest).readU8 = .ok (v, r)) :
    ∃ rest', rest = v :: rest' ∧ r = Reader.past (l ++ [v]) rest' := by
  obtain ⟨⟨bs, r'⟩, hread, h⟩ := bind_eq_ok.mp h
  cases h
  obtain ⟨rest', hrest, hlen, hr⟩ := readBytes_sound hread
  obtain ⟨b, rfl⟩ := length_eq_one_iff.mp hlen
  have hb : UInt8.ofNat (leValue [b]) = b := by
    rw [leValue, leValue, mul_zero, add_zero, UInt8.ofNat_toNat]
  rw [hb]
  exact ⟨rest', hrest, hr⟩

theorem readNat_sound {T : Type} (ofNat : Nat → T) {w : Nat} {v : T} (h : (do
      let (b, r) ← (Reader.past l rest).readBytes w
      .ok (ofNat (leValue b), r) : Except OutOfSpace (T × Reader)) = .ok (v, r)) :
    ∃ n rest', n < 256 ^ w ∧ v = ofNat n ∧ rest = leBytes w n ++ rest' ∧
      r = Reader.past (l ++ leBytes w n) rest' := by
  obtain ⟨⟨bs, r'⟩, hread, h⟩ := bind_eq_ok.mp h
  cases h
  obtain ⟨rest', hrest, hlen, hr⟩ := readBytes_sound hread
  have hlt := leValue_lt bs
  have hbs := leBytes_leValue bs
  rw [hlen] at hlt hbs
  exact ⟨leValue bs, rest', hlt, rfl, hbs.symm ▸ hrest, hbs.symm ▸ hr⟩

theorem readU32_sound {v : UInt32} (h : (Reader.past l rest).readU32 = .ok (v, r)) :
    ∃ rest', rest = leBytes 4 v.toNat ++ rest' ∧
    r = Reader.past (l ++ leBytes 4 v.toNat) rest' := by
  obtain ⟨n, rest', hn, rfl, hrest, hr⟩ := readNat_sound UInt32.ofNat h
  rw [UInt32.toNat_ofNat_of_lt' hn]
  exact ⟨rest', hrest, hr⟩

theorem readU64_sound {v : UInt64} (h : (Reader.past l rest).readU64 = .ok (v, r)) :
    ∃ rest', rest = leBytes 8 v.toNat ++ rest' ∧
    r = Reader.past (l ++ leBytes 8 v.toNat) rest' := by
  obtain ⟨n, rest', hn, rfl, hrest, hr⟩ := readNat_sound UInt64.ofNat h
  rw [UInt64.toNat_ofNat_of_lt' hn]
  exact ⟨rest', hrest, hr⟩

end Reader

inductive RecordKind where
  | pageWrite
  | commit
  | checkpoint
deriving Repr, DecidableEq

namespace RecordKind

def toU8 : RecordKind → UInt8
  | .pageWrite => 1
  | .commit => 2
  | .checkpoint => 3

def fromU8 (v : UInt8) : Option RecordKind :=
  if v = 1 then some .pageWrite
  else if v = 2 then some .commit
  else if v = 3 then some .checkpoint
  else none

@[simp] theorem fromU8_toU8 (kind : RecordKind) : fromU8 kind.toU8 = some kind := by
  cases kind <;> rfl

end RecordKind

structure WalRecord where
  lsn : UInt64
  kind : RecordKind
  blockId : UInt64
  payload : Bytes
deriving Repr, DecidableEq

inductive WalError where
  | outOfSpace
  | malformed
  | badChecksum
  | unknownKind (tag : UInt8)
deriving Repr, DecidableEq

/-- Sequence number, kind, block id and payload length. -/
def headerLen : Nat := 8 + 1 + 8 + 4

/-- One bit of the checksum register. -/
def crcBit (crc : UInt32) : UInt32 :=
  let mask := 0 - (crc &&& 1)
  (crc >>> 1) ^^^ (0xEDB88320 &&& mask)

def crc32 (data : Bytes) : UInt32 :=
  ~~~ data.foldl (fun crc b => (List.range 8).foldl (fun crc _ => crcBit crc) (crc ^^^ b.toUInt32))
    0xFFFFFFFF

example : crc32 [0x31, 0x32, 0x33, 0x34, 0x35, 0x36, 0x37, 0x38, 0x39] = 0xCBF43926 := by
  decide +kernel

namespace WalRecord

/-- The size of a record on disk. -/
def encodedLen (record : WalRecord) : Nat :=
  4 + headerLen + record.payload.length + 4

/-- A full buffer is an encoding error. -/
def orOutOfSpace {α : Type} : Except OutOfSpace α → Except WalError α
  | .ok a => .ok a
  | .error _ => .error .outOfSpace

/-- Missing bytes are a decoding error. -/
def orMalformed {α : Type} : Except OutOfSpace α → Except WalError α
  | .ok a => .ok a
  | .error _ => .error .malformed

/-- Write the record into `out`, which is returned with the number of bytes
written. -/
def encode (record : WalRecord) (out : Bytes) : Except WalError (Bytes × Nat) := do
  let bodyLen := headerLen + record.payload.length + 4
  let c := Cursor.new out
  let c ← orOutOfSpace (c.putU32 (UInt32.ofNat bodyLen))
  let c ← orOutOfSpace (c.putU64 record.lsn)
  let c ← orOutOfSpace (c.putU8 record.kind.toU8)
  let c ← orOutOfSpace (c.putU64 record.blockId)
  let c ← orOutOfSpace (c.putU32 (UInt32.ofNat record.payload.length))
  let c ← orOutOfSpace (c.putBytes record.payload)
  let endBeforeCrc := c.pos
  let crc := crc32 ((c.buf.take endBeforeCrc).drop 4)
  let t ← orOutOfSpace ((Cursor.new (c.buf.drop endBeforeCrc)).putU32 crc)
  .ok (c.buf.take endBeforeCrc ++ t.buf, endBeforeCrc + 4)

/-- Read one record from the front of `data`, with the number of bytes it
occupies. -/
def decode (data : Bytes) : Except WalError (WalRecord × Nat) := do
  let r := Reader.new data
  let (bodyLen, r) ← orMalformed r.readU32
  if r.remaining < bodyLen.toNat then .error .malformed
  else
    let bodyStart := r.pos
    let (lsn, r) ← orMalformed r.readU64
    let (kindTag, r) ← orMalformed r.readU8
    match RecordKind.fromU8 kindTag with
    | none => .error (.unknownKind kindTag)
    | some kind =>
      let (blockId, r) ← orMalformed r.readU64
      let (payloadLen, r) ← orMalformed r.readU32
      let (payload, r) ← orMalformed (r.readBytes payloadLen.toNat)
      let (storedCrc, r) ← orMalformed r.readU32
      let crcRegionEnd := r.pos - 4
      let computed := crc32 ((data.take crcRegionEnd).drop bodyStart)
      if computed ≠ storedCrc then .error .badChecksum
      else .ok (⟨lsn, kind, blockId, payload⟩, 4 + bodyLen.toNat)

end WalRecord

/-- The log and the number its next record will get. -/
structure Wal where
  bytes : Bytes
  nextLsn : UInt64
deriving Repr, DecidableEq

namespace Wal

def new : Wal :=
  ⟨[], 0⟩

def append (wal : Wal) (kind : RecordKind) (blockId : UInt64) (payload : Bytes) :
    Result Empty (UInt64 × Wal) := do
  let lsn := wal.nextLsn
  let record : WalRecord := ⟨lsn, kind, blockId, payload⟩
  match record.encode (List.replicate record.encodedLen 0) with
  | .error _ => .error .panic
  | .ok (frame, n) =>
    let next ← checkedSucc wal.nextLsn
    .ok (lsn, ⟨wal.bytes ++ frame.take n, next⟩)

/-- The body of the loop of `replay`; the state is the offset, the number of
records so far and what the callback has made of them. -/
def replayTurn {S : Type} (wal : Wal) (f : S → WalRecord → S) (s : Nat × Nat × S) :
    Result Empty (Turn (Nat × Nat × S) (S × Nat)) :=
  if s.1 < wal.bytes.length then
    match WalRecord.decode (wal.bytes.drop s.1) with
    | .ok (record, consumed) => .ok (.again (s.1 + consumed, s.2.1 + 1, f s.2.2 record))
    | .error _ => .ok (.leave (s.2.2, s.2.1))
  else .ok (.leave (s.2.2, s.2.1))

/-- Hand every intact record to the callback, up to the first that is not. -/
def replay {S : Type} (wal : Wal) (f : S → WalRecord → S) (s : S) : Result Empty (S × Nat) :=
  loop (wal.replayTurn f) (wal.bytes.length + 1) (0, 0, s)

/-- The body of the loop of `from_bytes`; the state is the offset and the last
number seen. -/
def fromBytesTurn (bytes : Bytes) (s : Nat × Option UInt64) :
    Result Empty (Turn (Nat × Option UInt64) (Nat × Option UInt64)) :=
  if s.1 < bytes.length then
    match WalRecord.decode (bytes.drop s.1) with
    | .ok (record, consumed) => .ok (.again (s.1 + consumed, some record.lsn))
    | .error _ => .ok (.leave s)
  else .ok (.leave s)

/-- The log in persisted bytes, less a torn tail. -/
def fromBytes (bytes : Bytes) : Result Empty Wal := do
  let (offset, lastLsn) ← loop (fromBytesTurn bytes) (bytes.length + 1) (0, none)
  match lastLsn with
  | none => .ok ⟨bytes.take offset, 0⟩
  | some l =>
    let next ← checkedSucc l
    .ok ⟨bytes.take offset, next⟩

end Wal

/-! ### Frames -/

namespace WalRecord

variable {record : WalRecord} {data : Bytes}

/-- The part of a frame that the checksum covers. -/
def body (record : WalRecord) : Bytes :=
  leBytes 8 record.lsn.toNat ++ ([record.kind.toU8] ++ (leBytes 8 record.blockId.toNat ++
    (leBytes 4 (UInt32.ofNat record.payload.length).toNat ++ record.payload)))

def frame (record : WalRecord) : Bytes :=
  leBytes 4 (UInt32.ofNat (headerLen + record.payload.length + 4)).toNat ++
    (record.body ++ leBytes 4 (crc32 record.body).toNat)

theorem length_body (record : WalRecord) :
    record.body.length = headerLen + record.payload.length := by
  simp [body, headerLen]
  omega

theorem length_frame (record : WalRecord) : record.frame.length = record.encodedLen := by
  simp only [frame, length_append, length_leBytes, length_body, encodedLen]
  omega

theorem encode_replicate (record : WalRecord) :
    record.encode (replicate record.encodedLen 0) = .ok (record.frame, record.encodedLen) := by
  -- the zeroed buffer in the pieces that the writes replace
  have hbuf : replicate record.encodedLen (0 : UInt8) =
      [] ++ (replicate 4 0 ++ (replicate 8 0 ++ (replicate 1 0 ++
        (replicate 8 0 ++ (replicate 4 0 ++ (replicate record.payload.length 0 ++
          replicate 4 0)))))) := by
    simp only [nil_append, replicate_append_replicate, encodedLen, headerLen]
    congr 1
    omega
  have put : ∀ (l data old r : Bytes), old.length = data.length →
      orOutOfSpace ((⟨l ++ (old ++ r), l.length⟩ : Cursor).putBytes data) =
        .ok ⟨(l ++ data) ++ r, (l ++ data).length⟩ := by
    intro l data old r h
    rw [Cursor.putBytes_append l data old r h]
    rfl
  unfold encode
  rw [hbuf]
  simp only [Cursor.new, Cursor.putU32, Cursor.putU64, Cursor.putU8]
  rw [show (0 : Nat) = ([] : Bytes).length from rfl, put [] _ _ _ (by simp)]
  simp only [bind, Except.bind]
  rw [put _ _ _ _ (by simp)]
  simp only
  rw [put _ _ _ _ (by simp)]
  simp only
  rw [put _ _ _ _ (by simp)]
  simp only
  rw [put _ _ _ _ (by simp)]
  simp only
  rw [put _ _ _ _ (by simp)]
  simp only
  have hbody : ((((([] ++ leBytes 4 (UInt32.ofNat (headerLen + record.payload.length + 4)).toNat) ++
      leBytes 8 record.lsn.toNat) ++ [record.kind.toU8]) ++ leBytes 8 record.blockId.toNat) ++
      leBytes 4 (UInt32.ofNat record.payload.length).toNat) ++ record.payload =
      leBytes 4 (UInt32.ofNat (headerLen + record.payload.length + 4)).toNat ++ record.body := by
    simp [body]
  have hdrop : (leBytes 4 (UInt32.ofNat (headerLen + record.payload.length + 4)).toNat ++
      record.body).drop 4 = record.body := drop_left' (length_leBytes 4 _)
  rw [hbody, take_left, drop_left, hdrop]
  have hcrc := put [] (leBytes 4 (crc32 record.body).toNat) (replicate 4 0) [] (by simp)
  simp only [append_nil, nil_append, length_nil] at hcrc
  rw [length_nil, hcrc]
  simp [frame, encodedLen, length_body, add_assoc]
/-- A payload whose frame length fits its 32-bit field. -/
def Small (record : WalRecord) : Prop :=
  record.payload.length < 2 ^ 32 - 64

theorem toNat_frameLen (h : record.Small) :
    (UInt32.ofNat (headerLen + record.payload.length + 4)).toNat =
      headerLen + record.payload.length + 4 := by
  have h' : record.payload.length < 2 ^ 32 - 64 := h
  simp only [headerLen, UInt32.toNat_ofNat']
  omega

theorem toNat_payloadLen (h : record.Small) :
    (UInt32.ofNat record.payload.length).toNat = record.payload.length := by
  have h' : record.payload.length < 2 ^ 32 - 64 := h
  rw [UInt32.toNat_ofNat']
  omega

theorem crc_region (record : WalRecord) (rest : Bytes) :
    ((record.frame ++ rest).take (4 + headerLen + record.payload.length)).drop 4 =
      record.body := by
  set total := leBytes 4 (UInt32.ofNat (headerLen + record.payload.length + 4)).toNat with ht
  have htotal : total.length = 4 := length_leBytes 4 _
  have hsplit : record.frame ++ rest =
      (total ++ record.body) ++ (leBytes 4 (crc32 record.body).toNat ++ rest) := by
    simp [frame, ht]
  have hlen : (total ++ record.body).length = 4 + headerLen + record.payload.length := by
    rw [length_append, htotal, length_body, add_assoc]
  rw [hsplit, ← hlen, take_left, drop_left' htotal]

theorem decode_frame (h : record.Small) (rest : Bytes) :
    decode (record.frame ++ rest) = .ok (record, record.encodedLen) := by
  have hlen := toNat_frameLen h
  have hpay := toNat_payloadLen h
  have hdata : Reader.new (record.frame ++ rest) = Reader.past []
      (leBytes 4 (UInt32.ofNat (headerLen + record.payload.length + 4)).toNat ++
      (leBytes 8 record.lsn.toNat ++ (record.kind.toU8 :: (leBytes 8 record.blockId.toNat ++
        (leBytes 4 (UInt32.ofNat record.payload.length).toNat ++ (record.payload ++
          (leBytes 4 (crc32 record.body).toNat ++ rest))))))) := by
    simp [Reader.new, Reader.past, frame, body]
  unfold decode
  rw [hdata]
  simp only [Reader.readU32_past, orMalformed, ok_bind, Reader.remaining_past]
  rw [if_neg]
  · simp only [Reader.readU64_past, Reader.readU8_past, RecordKind.fromU8_toU8,
      Reader.readU32_past, ok_bind]
    have hbytes := fun l tail => Reader.readBytes_past l record.payload tail
    rw [hpay, hbytes]
    simp only [Reader.readU32_past, ok_bind, Reader.pos_past, length_append, length_nil,
      length_singleton, length_leBytes]
    have hend : 0 + 4 + 8 + 1 + 8 + 4 + record.payload.length + 4 - 4 =
        4 + headerLen + record.payload.length := by
      simp only [headerLen]
      omega
    rw [hend, zero_add, crc_region]
    rw [hlen]
    simp [encodedLen, add_assoc]
  · rw [hlen]
    simp only [length_append, length_cons, length_leBytes, headerLen]
    omega

theorem decode_torn (h : record.Small) {n : Nat} (hn : n < record.encodedLen) :
    decode (record.frame.take n) = .error .malformed := by
  have hlen := toNat_frameLen h
  by_cases h4 : n < 4
  · have hshort : (record.frame.take n).length < 4 := by
      rw [length_take]
      omega
    have hread := Reader.readU32_short (r := Reader.new (record.frame.take n))
      (by simpa [Reader.new, Reader.remaining] using hshort)
    simp only [decode, hread, orMalformed, error_bind]
  · have hdata : Reader.new (record.frame.take n) = Reader.past []
        (leBytes 4 (UInt32.ofNat (headerLen + record.payload.length + 4)).toNat ++
          (record.frame.take n).drop 4) := by
      have hle : (leBytes 4 (UInt32.ofNat (headerLen + record.payload.length + 4)).toNat).length ≤
          n := by
        rw [length_leBytes]
        omega
      simp only [Reader.new, Reader.past, nil_append, length_nil]
      rw [frame, take_append, take_of_length_le hle, drop_left' (length_leBytes 4 _)]
    unfold decode
    rw [hdata]
    simp only [Reader.readU32_past, orMalformed, ok_bind, Reader.remaining_past]
    rw [if_pos]
    rw [hlen, length_drop, length_take, length_frame]
    simp only [encodedLen] at hn ⊢
    omega

end WalRecord

end Oikos.Archon
