/-
Schemas, errors and the row codec of the relational engine.  A row is encoded
with a 16-bit count of its values and 32-bit lengths; within these bounds it is
decoded to itself.
-/
import Oikos.Lib.Bits
import Oikos.Archon.BTree
import Oikos.Archon.Relational.Executor

namespace Oikos.Archon.Relational

open List

structure Schema where
  columns : List String
  types : List ColumnType
deriving Repr, DecidableEq

namespace Schema

def indexOf (schema : Schema) (name : String) : Option Nat :=
  schema.columns.findIdx? (· == name)

end Schema

inductive DbError where
  | unknownColumn (column : String)
  | typeMismatch
  | columnTypeMismatch (column : String)
  | arityMismatch
  | notAVectorColumn (column : String)
  | missingParam
  | rowNotFound (id : UInt64)
  | corruptRow (id : UInt64)
  | unknownTable (name : String)
  | transactionError (message : String)
  | tableAlreadyExists (name : String)
  | viewAlreadyExists (name : String)
  | unknownView (name : String)
  | recursiveView (name : String)
  | unsupported (message : String)
  | subqueryCardinality (message : String)
  | exec (e : ExecError)
deriving Repr, DecidableEq

namespace DbError

def ofExecError : ExecError → DbError
  | .unknownColumn c => .unknownColumn c
  | .typeMismatch => .typeMismatch
  | .groupByColumnNotFound c => .unknownColumn c
  | .unresolvedSubquery =>
    .unsupported "internal: subquery reached the pure evaluator unresolved"

end DbError

/-! ### Encoding -/

def encodeValue : Value → Bytes
  | .int i => 0 :: leBytes 8 i.toUInt64.toNat
  | .text t => 1 :: (leBytes 4 (utf8 t).length ++ utf8 t)
  | .vector v => 2 :: (leBytes 4 v.length ++ v.flatMap fun x => leBytes 4 x.bits.toNat)
  | .null => [3]

/-- The count is cut to 16 bits and the lengths to 32. -/
def encodeRow (values : List Value) : Bytes :=
  leBytes 2 values.length ++ values.flatMap encodeValue

/-! ### Decoding -/

section Lossy

/-- A continuation byte. -/
def isCont (b : UInt8) : Bool :=
  0x80 ≤ b && b ≤ 0xBF

/-- The second byte allowed after the first byte of a three-byte character. -/
def isSecondOfThree (first b : UInt8) : Bool :=
  if first = 0xE0 then 0xA0 ≤ b && b ≤ 0xBF
  else if first = 0xED then 0x80 ≤ b && b ≤ 0x9F
  else isCont b

/-- The second byte allowed after the first byte of a four-byte character. -/
def isSecondOfFour (first b : UInt8) : Bool :=
  if first = 0xF0 then 0x90 ≤ b && b ≤ 0xBF
  else if first = 0xF4 then 0x80 ≤ b && b ≤ 0x8F
  else isCont b

/-- The next character, or the length of the ill-formed sequence in its place. -/
def nextChar : Bytes → Nat × Option Char
  | [] => (0, none)
  | a :: rest =>
    if a < 0x80 then (1, some (Char.ofNat a.toNat))
    else if 0xC2 ≤ a && a ≤ 0xDF then
      match rest with
      | b :: _ =>
        if isCont b then (2, some (Char.ofNat ((a.toNat % 32) * 64 + b.toNat % 64)))
        else (1, none)
      | [] => (1, none)
    else if 0xE0 ≤ a && a ≤ 0xEF then
      match rest with
      | b :: c :: _ =>
        if !isSecondOfThree a b then (1, none)
        else if !isCont c then (2, none)
        else (3, some (Char.ofNat
          ((a.toNat % 16) * 4096 + (b.toNat % 64) * 64 + c.toNat % 64)))
      | [b] => if isSecondOfThree a b then (2, none) else (1, none)
      | [] => (1, none)
    else if 0xF0 ≤ a && a ≤ 0xF4 then
      match rest with
      | b :: c :: d :: _ =>
        if !isSecondOfFour a b then (1, none)
        else if !isCont c then (2, none)
        else if !isCont d then (3, none)
        else (4, some (Char.ofNat ((a.toNat % 8) * 262144 + (b.toNat % 64) * 4096 +
          (c.toNat % 64) * 64 + d.toNat % 64)))
      | [b, c] =>
        if !isSecondOfFour a b then (1, none)
        else if isCont c then (3, none) else (2, none)
      | [b] => if isSecondOfFour a b then (2, none) else (1, none)
      | [] => (1, none)
    else (1, none)

/-- The characters of a byte sequence, with U+FFFD for each ill-formed one. -/
def lossyChars : Nat → Bytes → List Char
  | 0, _ => []
  | _, [] => []
  | fuel + 1, bytes =>
    match nextChar bytes with
    | (n, c) => c.getD (Char.ofNat 0xFFFD) :: lossyChars fuel (bytes.drop n)

/-- `String::from_utf8_lossy`. -/
def fromUtf8Lossy (bytes : Bytes) : String :=
  if h : (ByteArray.mk bytes.toArray).IsValidUTF8 then String.ofByteArray _ h
  else String.ofList (lossyChars bytes.length bytes)

end Lossy

/-- `n` floats from the front of a byte sequence. -/
def decodeFloats : Nat → Bytes → List F32
  | 0, _ => []
  | n + 1, bytes => ⟨UInt32.ofNat (leValue (bytes.take 4))⟩ :: decodeFloats n (bytes.drop 4)

def decodeValue : Bytes → Except DbError (Value × Bytes)
  | [] => .error (.corruptRow 0)
  | tag :: rest =>
    if tag = 0 then
      if rest.length < 8 then .error (.corruptRow 0)
      else .ok (.int (UInt64.ofNat (leValue (rest.take 8))).toInt64, rest.drop 8)
    else if tag = 1 then
      if rest.length < 4 then .error (.corruptRow 0)
      else
        let len := leValue (rest.take 4)
        let rest := rest.drop 4
        if rest.length < len then .error (.corruptRow 0)
        else .ok (.text (fromUtf8Lossy (rest.take len)), rest.drop len)
    else if tag = 2 then
      if rest.length < 4 then .error (.corruptRow 0)
      else
        let len := leValue (rest.take 4)
        let rest := rest.drop 4
        if rest.length < len * 4 then .error (.corruptRow 0)
        else .ok (.vector (decodeFloats len rest), rest.drop (len * 4))
    else if tag = 3 then .ok (.null, rest)
    else .ok (.int 0, rest)

def decodeValues : Nat → Bytes → Except DbError (List Value)
  | 0, _ => .ok []
  | n + 1, bytes => do
    let (v, rest) ← decodeValue bytes
    let vs ← decodeValues n rest
    .ok (v :: vs)

def tryDecodeRow (bytes : Bytes) : Except DbError Row :=
  if bytes.length < 2 then .error (.corruptRow 0)
  else decodeValues (leValue (bytes.take 2)) (bytes.drop 2)

def decodeRowValidated (id : UInt64) (bytes : Bytes) (colCount : Nat) : Except DbError Row := do
  let row ← tryDecodeRow bytes
  if row.length ≠ colCount then .error (.corruptRow id) else .ok row

theorem decodeRowValidated_eq_ok {id : UInt64} {bytes : Bytes} {n : Nat} {row : Row} :
    decodeRowValidated id bytes n = .ok row ↔ tryDecodeRow bytes = .ok row ∧ row.length = n := by
  simp only [decodeRowValidated, bind_eq_ok]
  constructor
  · rintro ⟨r, hr, h⟩
    split at h
    · cases h
    · next hlen =>
      cases h
      exact ⟨hr, not_not.mp hlen⟩
  · rintro ⟨hr, hlen⟩
    exact ⟨row, hr, by simp [hlen]⟩

/-! ### The round trip -/

namespace Value

def Fits : Value → Prop
  | .text t => (utf8 t).length < 2 ^ 32
  | .vector v => v.length < 2 ^ 32
  | _ => True

end Value

theorem fromUtf8Lossy_utf8 (s : String) : fromUtf8Lossy (utf8 s) = s := by
  have hbytes : ByteArray.mk (utf8 s).toArray = s.toByteArray := by
    simp [utf8]
  have hvalid : (ByteArray.mk (utf8 s).toArray).IsValidUTF8 := by
    rw [hbytes]
    exact s.isValidUTF8
  rw [fromUtf8Lossy, dif_pos hvalid]
  exact String.toByteArray_inj.mp hbytes

theorem decodeFloats_flatMap (v : List F32) (rest : Bytes) :
    decodeFloats v.length (v.flatMap (fun x => leBytes 4 x.bits.toNat) ++ rest) = v := by
  induction v with
  | nil => rfl
  | cons x v ih =>
    have hlen : (leBytes 4 x.bits.toNat).length = 4 := length_leBytes 4 _
    have hx : leValue (leBytes 4 x.bits.toNat) = x.bits.toNat :=
      leValue_leBytes_of_lt x.bits.toNat_lt
    simp only [length_cons, decodeFloats, flatMap_cons, append_assoc]
    rw [take_left' hlen, drop_left' hlen, hx, ih, UInt32.ofNat_toNat]

theorem length_flatMap_floats (v : List F32) :
    (v.flatMap fun x => leBytes 4 x.bits.toNat).length = v.length * 4 := by
  induction v with
  | nil => rfl
  | cons x v ih => simp [ih, Nat.succ_mul, add_comm]

theorem decodeValue_encodeValue {v : Value} (h : v.Fits) (rest : Bytes) :
    decodeValue (encodeValue v ++ rest) = .ok (v, rest) := by
  cases v with
  | int i =>
    have hlen : (leBytes 8 i.toUInt64.toNat).length = 8 := length_leBytes 8 _
    have hi : leValue (leBytes 8 i.toUInt64.toNat) = i.toUInt64.toNat :=
      leValue_leBytes_of_lt i.toUInt64.toNat_lt
    simp only [encodeValue, cons_append, decodeValue, if_true]
    rw [if_neg (by simp), take_left' hlen, drop_left' hlen, hi]
    simp
  | text t =>
    have hlen : (leBytes 4 (utf8 t).length).length = 4 := length_leBytes 4 _
    have ht : leValue (leBytes 4 (utf8 t).length) = (utf8 t).length :=
      leValue_leBytes_of_lt h
    simp only [encodeValue, cons_append, decodeValue, append_assoc]
    rw [if_neg (by decide), if_pos trivial, if_neg (by simp), take_left' hlen,
      drop_left' hlen, ht, if_neg (by simp), take_left, drop_left,
      fromUtf8Lossy_utf8]
  | vector v =>
    have hlen : (leBytes 4 v.length).length = 4 := length_leBytes 4 _
    have hv : leValue (leBytes 4 v.length) = v.length := leValue_leBytes_of_lt h
    have hfloats := length_flatMap_floats v
    simp only [encodeValue, cons_append, decodeValue, append_assoc]
    rw [if_neg (by decide), if_neg (by decide), if_pos trivial, if_neg (by simp),
      take_left' hlen, drop_left' hlen, hv,
      if_neg (by rw [length_append, hfloats]; omega), decodeFloats_flatMap,
      drop_left' hfloats]
  | null => rfl

theorem decodeValues_flatMap {values : List Value} (h : ∀ v ∈ values, v.Fits) (rest : Bytes) :
    decodeValues values.length (values.flatMap encodeValue ++ rest) = .ok values := by
  induction values with
  | nil => rfl
  | cons v values ih =>
    simp only [length_cons, decodeValues, flatMap_cons, append_assoc]
    rw [decodeValue_encodeValue (h v mem_cons_self)]
    simp only [ok_bind]
    rw [ih fun w hw => h w (mem_cons_of_mem v hw)]
    rfl

theorem not_length_encodeRow_lt (values : List Value) : ¬ (encodeRow values).length < 2 := by
  rw [encodeRow, length_append, length_leBytes]
  omega

theorem tryDecodeRow_encodeRow {values : List Value} (hlen : values.length < 2 ^ 16)
    (h : ∀ v ∈ values, v.Fits) : tryDecodeRow (encodeRow values) = .ok values := by
  have hcount : (leBytes 2 values.length).length = 2 := length_leBytes 2 _
  have hvalue : leValue (leBytes 2 values.length) = values.length := leValue_leBytes_of_lt hlen
  have hrest := decodeValues_flatMap h []
  rw [append_nil] at hrest
  rw [tryDecodeRow, if_neg (not_length_encodeRow_lt values), encodeRow, take_left' hcount,
    drop_left' hcount, hvalue, hrest]

theorem decodeRowValidated_encodeRow {values : List Value} (hlen : values.length < 2 ^ 16)
    (h : ∀ v ∈ values, v.Fits) (id : UInt64) :
    decodeRowValidated id (encodeRow values) values.length = .ok values := by
  simp [decodeRowValidated, tryDecodeRow_encodeRow hlen h]

end Oikos.Archon.Relational
