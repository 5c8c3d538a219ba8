/-
Lists of revocation bits: the issuer marks entries and publishes the list, the
verifier reads the published list back.
-/
import Oikos.Lib.Vec
import Oikos.Lib.Partial
import Oikos.Lib.Base64
import Mathlib.Data.Int.Init

namespace Oikos.Identity

open List

/-- What the issuer keeps of a list; `size` is the number of entries. -/
structure StatusList where
  id : String
  bits : List UInt8
  size : Int
deriving Repr, DecidableEq

structure CredentialStatus where
  statusListIndex : Int
deriving Repr, DecidableEq

/-- The value of an `int` after an operation on `int`s. -/
def wrapInt (n : Int) : Int :=
  n.bmod (2 ^ 64)

/-- `bits[i]` for an `int` index. -/
def byteAt (bits : List UInt8) (i : Int) : Result String UInt8 :=
  if i < 0 then .error .panic else index bits i.toNat

/-- `bits[i] = b` for an `int` index. -/
def setByte (bits : List UInt8) (i : Int) (b : UInt8) : Result String (List UInt8) :=
  if i < 0 then .error .panic else setAt bits i.toNat b

/-- `1 << (uint(index) % 8)`. -/
def mask (idx : Int) : UInt8 :=
  1 <<< UInt8.ofNat ((idx % 2 ^ 64).toNat % 8)

def statusListMinSize : Int :=
  131072

def newStatusList (id : String) (size : Int) : Result String StatusList :=
  let size := if size < statusListMinSize then statusListMinSize else size
  let byteLen := (wrapInt (size + 7)).tdiv 8
  if byteLen < 0 then .error .panic
  else .ok ⟨id, List.replicate byteLen.toNat 0, wrapInt (byteLen * 8)⟩

namespace StatusList

def checkIndex (s : StatusList) (idx : Int) : Result String Unit :=
  if idx < 0 ∨ idx ≥ s.size then
    .error (.err s!"status list: index {idx} out of range (size {s.size})")
  else .ok ()

/-- Change the byte of an entry. -/
def update (s : StatusList) (idx : Int) (f : UInt8 → UInt8) : Result String StatusList := do
  s.checkIndex idx
  let b ← byteAt s.bits (idx.tdiv 8)
  let bits ← setByte s.bits (idx.tdiv 8) (f b)
  .ok { s with bits }

def revoke (s : StatusList) (idx : Int) : Result String StatusList :=
  s.update idx (· ||| mask idx)

def unrevoke (s : StatusList) (idx : Int) : Result String StatusList :=
  s.update idx (· &&& ~~~mask idx)

def isRevoked (s : StatusList) (idx : Int) : Result String Bool := do
  s.checkIndex idx
  let b ← byteAt s.bits (idx.tdiv 8)
  .ok (b &&& mask idx != 0)

end StatusList

/-- The compression of the standard library: a reader is asked for the bytes up to
a limit. -/
structure Gzip where
  compress : List UInt8 → List UInt8
  newReader : List UInt8 → Except String (Nat → Except String (List UInt8))

def Gzip.RoundTrips (gz : Gzip) : Prop :=
  ∀ bytes, ∃ reader, gz.newReader (gz.compress bytes) = .ok reader ∧
    ∀ limit, reader limit = .ok (bytes.take limit)

def StatusList.encodedList (gz : Gzip) (s : StatusList) : String :=
  Base64.encodeToString (gz.compress s.bits)

def parseEncodedList (gz : Gzip) (encoded : String) : Result String (List UInt8) := do
  let compressed ← mapErr ("status list: base64 decode: " ++ ·)
    (ofExcept (Base64.decodeString encoded))
  let reader ← mapErr ("status list: gzip open: " ++ ·) (ofExcept (gz.newReader compressed))
  mapErr ("status list: gzip read: " ++ ·) (ofExcept (reader (16 * 2 ^ 20)))

def checkStatus (bits : List UInt8) : Option CredentialStatus → Result String Unit
  | none => .ok ()
  | some status =>
    let idx := status.statusListIndex
    let byteIdx := idx.tdiv 8
    if byteIdx ≥ bits.length then .error (.err s!"status list: index {idx} out of range")
    else do
      let b ← byteAt bits byteIdx
      if b &&& mask idx ≠ 0 then .error (.err "credential is revoked") else .ok ()

section Index

variable {bits : List UInt8} {i : Int}

theorem tdiv_of_neg (h : i < 0) : i.tdiv 8 = -(-i / 8) := by
  rw [← Int.tdiv_eq_ediv_of_nonneg (by omega), ← Int.neg_tdiv, neg_neg]

/-- The unsigned remainder of a negative index is that of an entry of the first byte. -/
theorem mask_add_eight (i : Int) : mask (i + 8) = mask i := by
  have h : ((i + 8) % 2 ^ 64).toNat % 8 = (i % 2 ^ 64).toNat % 8 := by omega
  rw [mask, mask, h]

theorem wrapInt_eq_self (h : -2 ^ 63 ≤ i) (h' : i < 2 ^ 63) : wrapInt i = i :=
  Int.bmod_eq_of_le (by omega) (by omega)

/-- The number of entries of an allocated list does not overflow. -/
theorem wrapInt_mul_eight (h : ¬(wrapInt i).tdiv 8 < 0) :
    wrapInt ((wrapInt i).tdiv 8 * 8) = 8 * ((wrapInt i).tdiv 8).toNat := by
  have hlt : wrapInt i < 2 ^ 63 := Int.bmod_lt (by decide)
  have hle : (wrapInt i).tdiv 8 * 8 < 2 ^ 63 := by
    by_cases hi : 0 ≤ wrapInt i
    · rw [Int.tdiv_eq_ediv_of_nonneg hi]
      omega
    · rw [tdiv_of_neg (by omega)]
      omega
  rw [wrapInt_eq_self (by omega) hle]
  omega

theorem byteAt_of_nonneg (h : 0 ≤ i) : byteAt bits i = index bits i.toNat :=
  if_neg (by omega)

/-- Both sides find entry `i` in the same byte. -/
theorem byteAt_tdiv (h : 0 ≤ i) : byteAt bits (i.tdiv 8) = index bits (i.toNat / 8) := by
  have hdiv : i.tdiv 8 = i / 8 := Int.tdiv_eq_ediv_of_nonneg h
  rw [hdiv, byteAt_of_nonneg (by omega)]
  congr 1
  omega

end Index

namespace StatusList

/-- The bit of an entry is set. -/
def Marked (s : StatusList) (i : Int) : Prop :=
  ∃ b, s.bits[i.toNat / 8]? = some b ∧ b &&& mask i ≠ 0

/-- A list has eight entries a byte, and at least one. -/
structure WellSized (s : StatusList) : Prop where
  size_eq : s.size = 8 * s.bits.length
  size_pos : 0 < s.size

theorem wellSized_newStatusList {id : String} {size : Int} (hsize : size < 2 ^ 63) {s : StatusList}
    (h : newStatusList id size = .ok s) : s.WellSized := by
  let start : Int := if size < statusListMinSize then statusListMinSize else size
  have hstart : statusListMinSize ≤ start ∧ start < 2 ^ 63 := by
    rw [statusListMinSize]
    change 131072 ≤ (if size < 131072 then 131072 else size) ∧
      (if size < 131072 then 131072 else size) < _
    omega
  change (if (wrapInt (start + 7)).tdiv 8 < 0 then _ else _) = _ at h
  by_cases hlen : (wrapInt (start + 7)).tdiv 8 < 0
  · rw [if_pos hlen] at h
    cases h
  · rw [if_neg hlen] at h
    cases h
    have hmul := wrapInt_mul_eight hlen
    rw [statusListMinSize] at hstart
    refine ⟨by rw [length_replicate]; exact hmul, ?_⟩
    change 0 < wrapInt ((wrapInt (start + 7)).tdiv 8 * 8)
    by_cases hover : start + 7 < 2 ^ 63
    · rw [wrapInt_eq_self (i := start + 7) (by omega) hover,
        Int.tdiv_eq_ediv_of_nonneg (by omega)] at hmul ⊢
      omega
    · have hneg : wrapInt (start + 7) = start + 7 - 2 ^ 64 := by
        rw [wrapInt, Int.bmod]
        split <;> omega
      rw [hneg, tdiv_of_neg (by omega)] at hlen
      omega

theorem checkIndex_eq_ok {s : StatusList} {i : Int} (h : 0 ≤ i) (h' : i < s.size) :
    s.checkIndex i = .ok () :=
  if_neg (by omega)

theorem checkIndex_error {s : StatusList} {i : Int} (h : i < 0 ∨ s.size ≤ i) :
    ∃ e, s.checkIndex i = .error (.err e) :=
  ⟨_, if_pos h⟩

theorem WellSized.exists_byte {s : StatusList} (hs : s.WellSized) {i : Int} (h : 0 ≤ i)
    (h' : i < s.size) : ∃ b, s.bits[i.toNat / 8]? = some b := by
  have hlt : i.toNat / 8 < s.bits.length := by
    have := hs.size_eq
    omega
  exact ⟨_, getElem?_eq_getElem hlt⟩

section Runs

/-- What the issuer does with a list. -/
inductive Call where
  | revoke (i : Int)
  | unrevoke (i : Int)
deriving Repr, DecidableEq

def Call.run (s : StatusList) : Call → Result String StatusList
  | .revoke i => s.revoke i
  | .unrevoke i => s.unrevoke i

def step (s : StatusList) (c : Call) : Option StatusList :=
  match c.run s with
  | .ok s' => some s'
  | .error (.err _) => some s
  | .error _ => none

theorem WellSized.update {s : StatusList} (hs : s.WellSized) (i : Int) (f : UInt8 → UInt8) :
    (∃ s', s.update i f = .ok s' ∧ s'.WellSized) ∨ ∃ e, s.update i f = .error (.err e) := by
  by_cases h : 0 ≤ i ∧ i < s.size
  · obtain ⟨b, hb⟩ := hs.exists_byte h.1 h.2
    have hdiv : i.tdiv 8 = i / 8 := Int.tdiv_eq_ediv_of_nonneg h.1
    have hset : setByte s.bits (i.tdiv 8) (f b) = .ok (s.bits.set (i / 8).toNat (f b)) := by
      have := hs.size_eq
      rw [hdiv, setByte, if_neg (by omega), setAt, if_pos (by omega)]
    refine Or.inl ⟨{ s with bits := s.bits.set (i / 8).toNat (f b) }, ?_, ?_⟩
    · rw [StatusList.update, checkIndex_eq_ok h.1 h.2, ok_bind, byteAt_tdiv h.1, index_eq_ok hb,
        ok_bind, hset]
      rfl
    · exact ⟨by rw [length_set]; exact hs.size_eq, hs.size_pos⟩
  · obtain ⟨e, he⟩ := checkIndex_error (s := s) (i := i) (by omega)
    exact Or.inr ⟨e, by rw [StatusList.update, he]; rfl⟩

theorem WellSized.step {s : StatusList} (hs : s.WellSized) (c : Call) :
    ∃ s', s.step c = some s' ∧ s'.WellSized := by
  have hrun : (∃ s', c.run s = .ok s' ∧ s'.WellSized) ∨ ∃ e, c.run s = .error (.err e) := by
    cases c with
    | revoke i => exact hs.update i _
    | unrevoke i => exact hs.update i _
  rcases hrun with ⟨s', h, hs'⟩ | ⟨e, h⟩
  · exact ⟨s', by rw [StatusList.step, h], hs'⟩
  · exact ⟨s, by rw [StatusList.step, h], hs⟩

end Runs

section Verifier

variable {gz : Gzip} {s : StatusList} {i : Int}

/-- What the verifier finds out about an entry of the published list. -/
def check (gz : Gzip) (s : StatusList) (i : Int) : Result String Unit := do
  let bits ← parseEncodedList gz (s.encodedList gz)
  checkStatus bits (some ⟨i⟩)

theorem parseEncodedList_encodedList (hgz : gz.RoundTrips) (s : StatusList) :
    parseEncodedList gz (s.encodedList gz) = .ok (s.bits.take (16 * 2 ^ 20)) := by
  obtain ⟨reader, hopen, hread⟩ := hgz s.bits
  rw [parseEncodedList, encodedList, Base64.decodeString_encodeToString]
  simp only [ofExcept, mapErr, ok_bind, hopen, hread]

theorem check_eq (hgz : gz.RoundTrips) :
    s.check gz i = checkStatus (s.bits.take (16 * 2 ^ 20)) (some ⟨i⟩) := by
  rw [check, parseEncodedList_encodedList hgz, ok_bind]

theorem checkStatus_of_le {bits : List UInt8} (h : (bits.length : Int) ≤ i.tdiv 8) :
    ∃ e, checkStatus bits (some ⟨i⟩) = .error (.err e) :=
  ⟨_, if_pos h⟩

theorem checkStatus_of_lt {bits : List UInt8} (h : i.tdiv 8 < bits.length) :
    checkStatus bits (some ⟨i⟩) = (byteAt bits (i.tdiv 8) >>= fun b =>
      if b &&& mask i ≠ 0 then .error (.err "credential is revoked") else .ok ()) :=
  if_neg (not_le.mpr h)

theorem isRevoked_eq (hs : s.WellSized) (h : 0 ≤ i) (h' : i < s.size) :
    (s.isRevoked i = .ok false ↔ ¬s.Marked i) := by
  obtain ⟨b, hb⟩ := hs.exists_byte h h'
  rw [isRevoked, checkIndex_eq_ok h h', ok_bind, byteAt_tdiv h, index_eq_ok hb, ok_bind, Marked, hb]
  simp

theorem isRevoked_ne (h : i < 0 ∨ s.size ≤ i) : s.isRevoked i ≠ .ok false := by
  obtain ⟨e, he⟩ := checkIndex_error h
  rw [isRevoked, he]
  exact fun h => nomatch h

/-- Issuer and verifier agree about an entry, and the verifier does not panic. -/
def Agrees (gz : Gzip) (s : StatusList) (i : Int) : Prop :=
  (s.check gz i = .ok () ↔ s.isRevoked i = .ok false) ∧ s.check gz i ≠ .error .panic

/-- Entries that the verifier reads, that nobody has, or that are marked anyway; a
negative index that rounds to zero is looked up in the first byte. -/
def InReach (s : StatusList) (i : Int) : Prop :=
  (0 ≤ i ∧ (i < 2 ^ 27 ∨ s.size ≤ i ∨ s.Marked i)) ∨ (-8 < i ∧ i < 0 ∧ s.Marked (i + 8))

theorem checkStatus_of_byte {bits : List UInt8} {b : UInt8} (h : i.tdiv 8 < bits.length)
    (hb : byteAt bits (i.tdiv 8) = .ok b) :
    (checkStatus bits (some ⟨i⟩) = .ok () ↔ ¬b &&& mask i ≠ 0) ∧
      checkStatus bits (some ⟨i⟩) ≠ .error .panic := by
  rw [checkStatus_of_lt h, hb, ok_bind]
  by_cases hmask : b &&& mask i ≠ 0
  · rw [if_pos hmask]
    exact ⟨iff_of_false nofun (not_not.mpr hmask), nofun⟩
  · rw [if_neg hmask]
    exact ⟨iff_of_true rfl hmask, nofun⟩

/-- Within the limit the verifier sees the bytes of the issuer. -/
theorem agrees_of_lt (hgz : gz.RoundTrips) (hs : s.WellSized) (h : 0 ≤ i) (hsize : i < s.size)
    (hlimit : i < 2 ^ 27) : s.Agrees gz i := by
  obtain ⟨b, hb⟩ := hs.exists_byte h hsize
  have hget : (s.bits.take (16 * 2 ^ 20))[i.toNat / 8]? = some b := by
    rw [getElem?_take_of_lt (by omega), hb]
  have hdiv : i.tdiv 8 = i / 8 := Int.tdiv_eq_ediv_of_nonneg h
  have hlen : i.tdiv 8 < (s.bits.take (16 * 2 ^ 20)).length := by
    have := (List.getElem?_eq_some_iff.mp hget).1
    omega
  have hbyte := checkStatus_of_byte hlen ((byteAt_tdiv h).trans (index_eq_ok hget))
  rw [Agrees, check_eq hgz, isRevoked_eq hs h hsize, Marked, hb]
  simpa using hbyte

theorem agrees_iff_of_limit (hgz : gz.RoundTrips) (hs : s.WellSized) (h : 2 ^ 27 ≤ i)
    (hsize : i < s.size) : s.Agrees gz i ↔ s.Marked i := by
  have hdiv : i.tdiv 8 = i / 8 := Int.tdiv_eq_ediv_of_nonneg (by omega)
  have hle : ((s.bits.take (16 * 2 ^ 20)).length : Int) ≤ i.tdiv 8 := by
    rw [length_take]
    omega
  obtain ⟨e, he⟩ := checkStatus_of_le hle
  rw [Agrees, check_eq hgz, he, isRevoked_eq hs (by omega) hsize]
  simp

theorem agrees_of_size_le (hgz : gz.RoundTrips) (hs : s.WellSized) (h : 0 ≤ i)
    (hsize : s.size ≤ i) :
    s.Agrees gz i := by
  have hdiv : i.tdiv 8 = i / 8 := Int.tdiv_eq_ediv_of_nonneg h
  have hlen := hs.size_eq
  have hle : ((s.bits.take (16 * 2 ^ 20)).length : Int) ≤ i.tdiv 8 := by
    rw [length_take]
    omega
  obtain ⟨e, he⟩ := checkStatus_of_le hle
  rw [Agrees, check_eq hgz, he]
  exact ⟨iff_of_false nofun (isRevoked_ne (Or.inr hsize)), nofun⟩

/-- A small negative index is taken for an entry of the first byte. -/
theorem agrees_iff_of_neg (hgz : gz.RoundTrips) (hs : s.WellSized) (h : -8 < i)
    (h' : i < 0) : s.Agrees gz i ↔ s.Marked (i + 8) := by
  have hdiv : i.tdiv 8 = 0 := by
    rw [tdiv_of_neg h']
    omega
  obtain ⟨b, hb⟩ := hs.exists_byte (i := 0) (le_refl 0) hs.size_pos
  have hget : (s.bits.take (16 * 2 ^ 20))[0]? = some b := by
    rw [getElem?_take_of_lt (by decide)]
    exact hb
  have hlt : i.tdiv 8 < (s.bits.take (16 * 2 ^ 20)).length := by
    have := (List.getElem?_eq_some_iff.mp hget).1
    omega
  have hread : byteAt (s.bits.take (16 * 2 ^ 20)) (i.tdiv 8) = .ok b := by
    rw [hdiv]
    exact index_eq_ok hget
  have hbyte := checkStatus_of_byte hlt hread
  have hslot : s.bits[(i + 8).toNat / 8]? = some b := by
    rw [show (i + 8).toNat / 8 = 0 by omega]
    exact hb
  have hrevoked := isRevoked_ne (s := s) (Or.inl h')
  rw [Agrees, check_eq hgz, Marked, hslot, mask_add_eight, hbyte.1]
  rw [and_iff_left hbyte.2]
  simp [hrevoked]

/-- Any other negative index is outside the array. -/
theorem not_agrees_of_le (hgz : gz.RoundTrips) (h : i ≤ -8) : ¬s.Agrees gz i := by
  have hdiv : i.tdiv 8 < 0 := by
    rw [tdiv_of_neg (by omega)]
    omega
  rintro ⟨_, hpanic⟩
  apply hpanic
  rw [check_eq hgz, checkStatus_of_lt (by omega), byteAt, if_pos hdiv]
  rfl

theorem agrees_iff (hgz : gz.RoundTrips) (hs : s.WellSized) :
    s.Agrees gz i ↔ s.InReach i := by
  rw [InReach]
  by_cases hneg : i < 0
  · by_cases h : -8 < i
    · rw [agrees_iff_of_neg hgz hs h hneg]
      simp [h, hneg, not_le.mpr hneg]
    · refine iff_of_false (not_agrees_of_le hgz (by omega)) ?_
      omega
  · by_cases hsize : i < s.size
    · by_cases hlimit : i < 2 ^ 27
      · exact iff_of_true (agrees_of_lt hgz hs (by omega) hsize hlimit)
          (Or.inl ⟨by omega, Or.inl hlimit⟩)
      · rw [agrees_iff_of_limit hgz hs (by omega) hsize]
        have hlimit' : ¬i < 134217728 := hlimit
        simp [hneg, hlimit', not_le.mpr hsize, not_lt.mp hneg]
    · exact iff_of_true (agrees_of_size_le hgz hs (by omega) (by omega))
        (Or.inl ⟨by omega, Or.inr (Or.inl (by omega))⟩)

theorem exists_run (hs : s.WellSized) (calls : List Call) :
    ∃ s', perform StatusList.step s calls = some s' ∧ s'.WellSized := by
  induction calls generalizing s with
  | nil => exact ⟨s, rfl, hs⟩
  | cons c calls ih =>
    obtain ⟨s', hstep, hs'⟩ := hs.step c
    obtain ⟨t, hrun, ht⟩ := ih hs'
    exact ⟨t, perform_cons_eq_some.mpr ⟨s', hstep, hrun⟩, ht⟩

end Verifier

/-- After every run, issuer and verifier agree exactly about the entries in reach. -/
theorem agrees_after_run {gz : Gzip} (hgz : gz.RoundTrips) {id : String} {size : Int}
    (hsize : size < 2 ^ 63) {s : StatusList} (hnew : newStatusList id size = .ok s)
    (calls : List Call) :
    ∃ s', perform StatusList.step s calls = some s' ∧ ∀ i, s'.Agrees gz i ↔ s'.InReach i := by
  obtain ⟨s', hrun, hs'⟩ := exists_run (wellSized_newStatusList hsize hnew) calls
  exact ⟨s', hrun, fun i => agrees_iff hgz hs'⟩

def stored : Gzip where
  compress bytes := bytes
  newReader bytes := .ok fun limit => .ok (bytes.take limit)

theorem roundTrips_stored : stored.RoundTrips :=
  fun bytes => ⟨fun limit => .ok (bytes.take limit), rfl, fun _ => rfl⟩

/-- A revocation, one past the end, and its withdrawal. -/
theorem agrees_after_revoke : ∃ s', perform StatusList.step
    ⟨"", replicate 16384 0, 131072⟩ [.revoke 3, .revoke 200000, .unrevoke 3] = some s' ∧
      ∀ i, s'.Agrees stored i ↔ s'.InReach i :=
  agrees_after_run roundTrips_stored (by decide : (0 : Int) < 2 ^ 63)
    (rfl : newStatusList "" 0 = .ok _) _

/-- An index that a credential may carry, and that only the verifier accepts. -/
theorem not_agrees_negative : ∃ s, newStatusList "" 0 = .ok s ∧ ¬s.Agrees stored (-1) := by
  refine ⟨⟨"", replicate 16384 0, 131072⟩, rfl, ?_⟩
  have hs : WellSized ⟨"", replicate 16384 0, 131072⟩ :=
    ⟨by rw [length_replicate]; rfl, by decide⟩
  rw [agrees_iff_of_neg roundTrips_stored hs (by decide) (by decide)]
  rintro ⟨b, hb, hmask⟩
  rw [getElem?_replicate, if_pos (by decide)] at hb
  cases hb
  exact hmask (by decide)

end StatusList

end Oikos.Identity
