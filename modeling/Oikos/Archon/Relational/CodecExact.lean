/-
Which encoded rows are decoded to what they encode.  The decoder replaces
ill-formed text and unknown tags and does not look behind the last value, so
bytes that are decoded need not be the encoding of the row they are decoded to.
-/
import Oikos.Lib.GoText
import Oikos.Archon.Relational.Codec

namespace Oikos.Archon.Relational

open List

/-! ### Lossy text -/

section Lossy

variable {bytes : Bytes} {n : Nat} {c : Char} {a b : UInt8}

theorem utf8Size_ofNat {x : Nat} (h : x.isValidChar) : (Char.ofNat x).utf8Size =
    if x ≤ 0x7F then 1 else if x ≤ 0x7FF then 2 else if x ≤ 0xFFFF then 3 else 4 := by
  have hval : (Char.ofNat x).val.toNat = x := by
    rw [Char.ofNat, dif_pos h]
    rfl
  have h1 := @Char.utf8Size_eq_one_iff (Char.ofNat x)
  have h2 := @Char.utf8Size_eq_two_iff (Char.ofNat x)
  have h3 := @Char.utf8Size_eq_three_iff (Char.ofNat x)
  have h4 := @Char.utf8Size_eq_four_iff (Char.ofNat x)
  simp only [UInt32.lt_iff_toNat_lt, UInt32.le_iff_toNat_le, hval] at h1 h2 h3 h4
  split
  · next hx => exact h1.mpr hx
  · next hx =>
    split
    · next hx' => exact h2.mpr ⟨not_le.mp hx, hx'⟩
    · next hx' =>
      split
      · next hx'' => exact h3.mpr ⟨not_le.mp hx', hx''⟩
      · next hx'' => exact h4.mpr (not_le.mp hx'')

theorem isCont_iff : isCont b = true ↔ 0x80 ≤ b.toNat ∧ b.toNat ≤ 0xBF := by
  simp [isCont, UInt8.le_iff_toNat_le]

theorem isSecondOfThree_iff : isSecondOfThree a b = true ↔ 0x80 ≤ b.toNat ∧ b.toNat ≤ 0xBF ∧
    (a.toNat = 0xE0 → 0xA0 ≤ b.toNat) ∧ (a.toNat = 0xED → b.toNat ≤ 0x9F) := by
  have hE0 : a = 0xE0 ↔ a.toNat = 0xE0 := UInt8.toNat_inj.symm
  have hED : a = 0xED ↔ a.toNat = 0xED := UInt8.toNat_inj.symm
  unfold isSecondOfThree
  split
  · next h =>
    simp only [Bool.and_eq_true, decide_eq_true_eq, UInt8.le_iff_toNat_le, UInt8.reduceToNat]
    have := hE0.mp h
    omega
  · next h =>
    split
    · next h' =>
      simp only [Bool.and_eq_true, decide_eq_true_eq, UInt8.le_iff_toNat_le, UInt8.reduceToNat]
      have := hED.mp h'
      omega
    · next h' =>
      rw [isCont_iff]
      rw [hE0] at h
      rw [hED] at h'
      omega

theorem isSecondOfFour_iff : isSecondOfFour a b = true ↔ 0x80 ≤ b.toNat ∧ b.toNat ≤ 0xBF ∧
    (a.toNat = 0xF0 → 0x90 ≤ b.toNat) ∧ (a.toNat = 0xF4 → b.toNat ≤ 0x8F) := by
  have hF0 : a = 0xF0 ↔ a.toNat = 0xF0 := UInt8.toNat_inj.symm
  have hF4 : a = 0xF4 ↔ a.toNat = 0xF4 := UInt8.toNat_inj.symm
  unfold isSecondOfFour
  split
  · next h =>
    simp only [Bool.and_eq_true, decide_eq_true_eq, UInt8.le_iff_toNat_le, UInt8.reduceToNat]
    have := hF0.mp h
    omega
  · next h =>
    split
    · next h' =>
      simp only [Bool.and_eq_true, decide_eq_true_eq, UInt8.le_iff_toNat_le, UInt8.reduceToNat]
      have := hF4.mp h'
      omega
    · next h' =>
      rw [isCont_iff]
      rw [hF0] at h
      rw [hF4] at h'
      omega

theorem nextChar_some (h : nextChar bytes = (n, some c)) : n = c.utf8Size ∧ n ≤ bytes.length := by
  unfold nextChar at h
  repeat' split at h
  all_goals try (cases h; done)
  all_goals
    simp only [Prod.mk.injEq, Option.some.injEq] at h
    obtain ⟨rfl, rfl⟩ := h
  · next a _ hlt =>
    simp only [UInt8.lt_iff_toNat_lt, UInt8.reduceToNat] at hlt
    rw [utf8Size_ofNat (Or.inl (by omega)), if_pos (by omega)]
    simp
  · next a _ hrange _ b _ hcont =>
    simp only [Bool.and_eq_true, decide_eq_true_eq, UInt8.le_iff_toNat_le,
      UInt8.reduceToNat] at hrange
    rw [isCont_iff] at hcont
    rw [utf8Size_ofNat (Or.inl (by omega)), if_neg (by omega), if_pos (by omega)]
    simp
  · next a _ _ hrange _ b c _ hsecond hcont =>
    simp only [Bool.and_eq_true, decide_eq_true_eq, UInt8.le_iff_toNat_le,
      UInt8.reduceToNat] at hrange
    rw [Bool.not_eq_true', Bool.not_eq_false, isSecondOfThree_iff] at hsecond
    rw [Bool.not_eq_true', Bool.not_eq_false, isCont_iff] at hcont
    have hvalid : (a.toNat % 16 * 4096 + b.toNat % 64 * 64 + c.toNat % 64).isValidChar := by
      unfold Nat.isValidChar
      omega
    rw [utf8Size_ofNat hvalid, if_neg (by omega), if_neg (by omega), if_pos (by omega)]
    simp
  · next a _ _ _ hrange _ b c d _ hsecond hcont hcont' =>
    simp only [Bool.and_eq_true, decide_eq_true_eq, UInt8.le_iff_toNat_le,
      UInt8.reduceToNat] at hrange
    rw [Bool.not_eq_true', Bool.not_eq_false, isSecondOfFour_iff] at hsecond
    rw [Bool.not_eq_true', Bool.not_eq_false, isCont_iff] at hcont hcont'
    have hvalid : (a.toNat % 8 * 262144 + b.toNat % 64 * 4096 + c.toNat % 64 * 64 +
        d.toNat % 64).isValidChar := by
      unfold Nat.isValidChar
      omega
    rw [utf8Size_ofNat hvalid, if_neg (by omega), if_neg (by omega), if_neg (by omega)]
    simp

/-- An ill-formed sequence at the end of the bytes is shorter than the character
that replaces it. -/
theorem nextChar_none {more : Bytes} (h : nextChar bytes = (n, none)) (hne : bytes ≠ [])
    (hpre : bytes <+: String.utf8EncodeChar (Char.ofNat 0xFFFD) ++ more) :
    bytes.drop n = [] := by
  have hbytes : String.utf8EncodeChar (Char.ofNat 0xFFFD) = [0xEF, 0xBF, 0xBD] := by decide
  rw [hbytes] at hpre
  change bytes <+: 0xEF :: 0xBF :: 0xBD :: more at hpre
  cases bytes with
  | nil => exact absurd rfl hne
  | cons a rest =>
    obtain ⟨rfl, hrest⟩ := cons_prefix_cons.mp hpre
    cases rest with
    | nil =>
      cases h
      rfl
    | cons b rest =>
      obtain ⟨rfl, hrest'⟩ := cons_prefix_cons.mp hrest
      cases rest with
      | nil =>
        cases h
        rfl
      | cons c rest =>
        obtain ⟨rfl, _⟩ := cons_prefix_cons.mp hrest'
        cases h

theorem length_lossyChars {fuel : Nat} (hfuel : bytes.length ≤ fuel)
    (hpre : bytes <+: (lossyChars fuel bytes).flatMap String.utf8EncodeChar) :
    ((lossyChars fuel bytes).flatMap String.utf8EncodeChar).length ≤ bytes.length + 2 := by
  induction fuel generalizing bytes with
  | zero => simp [lossyChars]
  | succ fuel ih =>
    cases bytes with
    | nil => simp [lossyChars]
    | cons a rest =>
      rw [lossyChars.eq_3 _ _ (by simp)] at hpre ⊢
      cases hnext : nextChar (a :: rest) with
      | mk n found =>
        rw [hnext, flatMap_cons] at hpre
        rw [flatMap_cons, length_append]
        cases found with
        | some c =>
          obtain ⟨hsize, hle⟩ := nextChar_some hnext
          have hpos := Char.utf8Size_pos c
          simp only [Option.getD_some] at hpre ⊢
          rw [String.length_utf8EncodeChar, ← hsize]
          have hsplit := take_append_drop n (a :: rest)
          have hlen : ((a :: rest).take n).length = (String.utf8EncodeChar c).length := by
            rw [String.length_utf8EncodeChar, length_take_of_le hle, hsize]
          rw [← hsplit] at hpre
          have htail : (a :: rest).drop n <+:
              (lossyChars fuel ((a :: rest).drop n)).flatMap String.utf8EncodeChar := by
            obtain ⟨more, hmore⟩ := hpre
            rw [append_assoc] at hmore
            rw [hsplit] at hmore
            exact ⟨more, (append_inj hmore hlen).2⟩
          have hdrop : ((a :: rest).drop n).length ≤ fuel := by
            rw [length_drop]
            omega
          have hrest := ih hdrop htail
          rw [length_drop] at hrest
          omega
        | none =>
          simp only [Option.getD_none] at hpre ⊢
          have hdrop := nextChar_none hnext (by simp) hpre
          have hbytes : (String.utf8EncodeChar (Char.ofNat 0xFFFD)).length = 3 := by decide
          rw [hdrop, hbytes]
          cases fuel with
          | zero => simp [lossyChars]
          | succ fuel => simp [lossyChars]

theorem utf8_fromUtf8Lossy (h : (ByteArray.mk bytes.toArray).IsValidUTF8) :
    utf8 (fromUtf8Lossy bytes) = bytes := by
  rw [fromUtf8Lossy, dif_pos h]
  simp [utf8]

theorem isValidUTF8_utf8 (s : String) : (ByteArray.mk (utf8 s).toArray).IsValidUTF8 := by
  have hbytes : ByteArray.mk (utf8 s).toArray = s.toByteArray := by
    simp [utf8]
  rw [hbytes]
  exact s.isValidUTF8

/-- Bytes that the text read from them begins with are that text, if only the length
of the text does not differ from theirs by a multiple of `2 ^ 32`. -/
theorem eq_utf8_of_prefix (hpre : bytes <+: utf8 (fromUtf8Lossy bytes))
    (hmod : (utf8 (fromUtf8Lossy bytes)).length % 2 ^ 32 = bytes.length) :
    utf8 (fromUtf8Lossy bytes) = bytes := by
  by_cases hvalid : (ByteArray.mk bytes.toArray).IsValidUTF8
  · exact utf8_fromUtf8Lossy hvalid
  · have htext : utf8 (fromUtf8Lossy bytes) =
        (lossyChars bytes.length bytes).flatMap String.utf8EncodeChar := by
      rw [fromUtf8Lossy, dif_neg hvalid, utf8, ← bytesOf_eq, bytesOf, String.toList_ofList]
    have hle : (utf8 (fromUtf8Lossy bytes)).length ≤ bytes.length + 2 := by
      rw [htext] at hpre ⊢
      exact length_lossyChars le_rfl hpre
    have hge := hpre.length_le
    exact (hpre.eq_of_length (by omega)).symm

end Lossy

/-! ### Cells -/

/-- The number of bytes that belong to a cell after its tag. -/
def payloadLength (tag : UInt8) (rest : Bytes) : Nat :=
  if tag = 0 then 8
  else if tag = 1 then 4 + leValue (rest.take 4)
  else if tag = 2 then 4 + leValue (rest.take 4) * 4
  else 0

def cutCells : Nat → Bytes → List (UInt8 × Bytes) × Bytes
  | 0, bytes => ([], bytes)
  | _, [] => ([], [])
  | n + 1, tag :: rest =>
    let cut := cutCells n (rest.drop (payloadLength tag rest))
    ((tag, rest.take (payloadLength tag rest)) :: cut.1, cut.2)

/-- The tag is one of the four, and a text is well-formed. -/
def CellOk (cell : UInt8 × Bytes) : Prop :=
  cell.1 ≤ 3 ∧ (cell.1 = 1 → (ByteArray.mk (cell.2.drop 4).toArray).IsValidUTF8)

/-- Every cell of the row is in order and nothing follows the last one. -/
structure Undamaged (bytes : Bytes) : Prop where
  cells : ∀ cell ∈ (cutCells (leValue (bytes.take 2)) (bytes.drop 2)).1, CellOk cell
  all : (cutCells (leValue (bytes.take 2)) (bytes.drop 2)).2 = []

section Exact

variable {bytes rest body : Bytes} {v : Value} {tag : UInt8}

/-- A cell that is decoded stands in front of the bytes, and the value encodes to it
exactly when it is in order. -/
structure ReadFrom (bytes : Bytes) (v : Value) (rest : Bytes) (tag : UInt8) (body : Bytes) :
    Prop where
  cut : bytes = tag :: (body ++ rest)
  size : payloadLength tag (body ++ rest) = body.length
  back : ∀ more, encodeValue v ++ more = bytes ↔ CellOk (tag, body) ∧ more = rest

/-- Only texts can be ill-formed. -/
theorem cellOk_of_ne (body : Bytes) (hle : tag ≤ 3) (hne : tag ≠ 1) : CellOk (tag, body) :=
  ⟨hle, fun h => absurd h hne⟩

theorem readFrom_of_encodeValue (rest : Bytes) (henc : encodeValue v = tag :: body)
    (hlen : payloadLength tag (body ++ rest) = body.length) (hok : CellOk (tag, body)) :
    ReadFrom (tag :: (body ++ rest)) v rest tag body where
  cut := rfl
  size := hlen
  back more := by
    rw [henc, cons_append, cons.injEq, append_cancel_left_eq]
    simp [hok]

theorem decodeFloats_spec {n : Nat} (h : n * 4 ≤ bytes.length) :
    (decodeFloats n bytes).length = n ∧
      (decodeFloats n bytes).flatMap (fun x => leBytes 4 x.bits.toNat) = bytes.take (n * 4) := by
  induction n generalizing bytes with
  | zero => simp [decodeFloats]
  | succ n ih =>
    have hfour : (bytes.take 4).length = 4 := length_take_of_le (by omega)
    have hlt := leValue_lt (bytes.take 4)
    have hback := leBytes_leValue (bytes.take 4)
    rw [hfour] at hlt hback
    have hbits : (UInt32.ofNat (leValue (bytes.take 4))).toNat = leValue (bytes.take 4) :=
      UInt32.toNat_ofNat_of_lt' hlt
    obtain ⟨hlen, hfloats⟩ := @ih (bytes.drop 4) (by rw [length_drop]; omega)
    refine ⟨by rw [decodeFloats, length_cons, hlen], ?_⟩
    rw [decodeFloats, flatMap_cons, hfloats, hbits, hback, ← take_add]
    congr 1
    omega

theorem cut_lengthField (h : 4 ≤ bytes.length) {len : Nat}
    (hle : len ≤ (bytes.drop 4).length) :
    bytes = (bytes.take 4 ++ (bytes.drop 4).take len) ++ (bytes.drop 4).drop len ∧
      (bytes.take 4 ++ (bytes.drop 4).take len).length = 4 + len := by
  constructor
  · rw [append_assoc, take_append_drop, take_append_drop]
  · rw [length_append, length_take_of_le h, length_take_of_le hle]

theorem encodeValue_text_ne {field text more : Bytes} (hfield : field.length = 4)
    (htext : leValue field = text.length) (hinvalid : ¬ (ByteArray.mk text.toArray).IsValidUTF8) :
    encodeValue (.text (fromUtf8Lossy text)) ++ more ≠ 1 :: ((field ++ text) ++ rest) := by
  intro heq
  set t := fromUtf8Lossy text with ht
  rw [encodeValue, cons_append, cons.injEq, append_assoc, append_assoc] at heq
  obtain ⟨hlen, hbytes⟩ := append_inj heq.2 (by rw [length_leBytes, hfield])
  have hmod : (utf8 t).length % 2 ^ 32 = text.length := by
    rw [← htext, ← hlen, leValue_leBytes, show 256 ^ 4 = 2 ^ 32 from rfl]
  have hle : text.length ≤ (utf8 t).length := by
    rw [← hmod]
    exact Nat.mod_le _ _
  have hpre : text <+: utf8 t :=
    prefix_of_prefix_length_le ⟨rest, rfl⟩ ⟨more, hbytes⟩ hle
  apply hinvalid
  rw [← eq_utf8_of_prefix hpre hmod]
  exact isValidUTF8_utf8 _

theorem decodeValue_readFrom (h : decodeValue bytes = .ok (v, rest)) :
    ∃ tag body, ReadFrom bytes v rest tag body := by
  cases bytes with
  | nil => cases h
  | cons tag after =>
    simp only [decodeValue] at h
    split at h
    · next htag =>
      subst htag
      split at h
      · cases h
      · next hlen =>
        cases h
        have height : (after.take 8).length = 8 := length_take_of_le (not_lt.mp hlen)
        have hlt := leValue_lt (after.take 8)
        have hback := leBytes_leValue (after.take 8)
        rw [height] at hlt hback
        have hvalue : (UInt64.ofNat (leValue (after.take 8))).toNat = leValue (after.take 8) :=
          UInt64.toNat_ofNat_of_lt' hlt
        have henc : encodeValue (.int (UInt64.ofNat (leValue (after.take 8))).toInt64) =
            0 :: after.take 8 := by
          rw [encodeValue, UInt64.toUInt64_toInt64, hvalue, hback]
        have hread := readFrom_of_encodeValue (after.drop 8) henc height.symm
          (cellOk_of_ne _ (by decide) (by decide))
        rw [take_append_drop] at hread
        exact ⟨0, after.take 8, hread⟩
    · next hzero =>
      split at h
      · next htag =>
        subst htag
        split at h
        · cases h
        · next hlen =>
          split at h
          · cases h
          · next hlen' =>
            cases h
            obtain ⟨hcut, hbody⟩ := cut_lengthField (not_lt.mp hlen) (not_lt.mp hlen')
            have hfield : (after.take 4).length = 4 := length_take_of_le (not_lt.mp hlen)
            set len := leValue (after.take 4) with hlenEq
            set text := (after.drop 4).take len with htext
            have htextLen : text.length = len := length_take_of_le (not_lt.mp hlen')
            have hpayload : payloadLength 1 after = (after.take 4 ++ text).length := by
              rw [hbody]
              rfl
            have hdrop : (after.take 4 ++ text).drop 4 = text := drop_left' hfield
            refine ⟨1, after.take 4 ++ text, by rw [← hcut], by rw [← hcut]; exact hpayload, ?_⟩
            intro more
            by_cases hvalid : (ByteArray.mk text.toArray).IsValidUTF8
            · have henc : encodeValue (.text (fromUtf8Lossy text)) =
                  1 :: (after.take 4 ++ text) := by
                have hback := leBytes_leValue (after.take 4)
                rw [hfield] at hback
                rw [encodeValue, utf8_fromUtf8Lossy hvalid, htextLen, hlenEq, hback]
              have htag : (1 : UInt8) ≤ 3 := by decide
              have hok : CellOk (1, after.take 4 ++ text) :=
                ⟨htag, fun _ => by rw [hdrop]; exact hvalid⟩
              have hread := (readFrom_of_encodeValue ((after.drop 4).drop len) henc
                (by rw [← hcut]; exact hpayload) hok).back more
              rwa [← hcut] at hread
            · constructor
              · intro heq
                rw [hcut] at heq
                exact absurd heq (encodeValue_text_ne hfield htextLen.symm hvalid)
              · rintro ⟨hok, _⟩
                have := hok.2 rfl
                rw [hdrop] at this
                exact absurd this hvalid
      · next hone =>
        split at h
        · next htag =>
          subst htag
          split at h
          · cases h
          · next hlen =>
            split at h
            · cases h
            · next hlen' =>
              cases h
              obtain ⟨hcut, hbody⟩ := cut_lengthField (not_lt.mp hlen) (not_lt.mp hlen')
              have hfield : (after.take 4).length = 4 := length_take_of_le (not_lt.mp hlen)
              obtain ⟨hcount, hfloats⟩ := decodeFloats_spec (not_lt.mp hlen')
              have hback := leBytes_leValue (after.take 4)
              rw [hfield] at hback
              have hpayload : payloadLength 2 after =
                  (after.take 4 ++ (after.drop 4).take (leValue (after.take 4) * 4)).length := by
                rw [hbody]
                rfl
              have henc : encodeValue
                  (.vector (decodeFloats (leValue (after.take 4)) (after.drop 4))) =
                  2 :: (after.take 4 ++ (after.drop 4).take (leValue (after.take 4) * 4)) := by
                rw [encodeValue, hcount, hfloats, hback]
              have hread := readFrom_of_encodeValue
                ((after.drop 4).drop (leValue (after.take 4) * 4)) henc
                (by rw [← hcut]; exact hpayload) (cellOk_of_ne _ (by decide) (by decide))
              rw [← hcut] at hread
              exact ⟨2, _, hread⟩
        · next htwo =>
          split at h
          · next htag =>
            subst htag
            cases h
            have hok : CellOk (3, []) := cellOk_of_ne [] (by decide) (by decide)
            exact ⟨3, [], readFrom_of_encodeValue rest rfl rfl hok⟩
          · next hthree =>
            cases h
            refine ⟨tag, [], rfl, ?_, ?_⟩
            · simp [payloadLength, hzero, hone, htwo]
            · intro more
              constructor
              · intro heq
                exact absurd (cons.inj heq).1.symm hzero
              · rintro ⟨⟨hle, _⟩, _⟩
                exfalso
                rw [UInt8.le_iff_toNat_le] at hle
                simp only [← UInt8.toNat_inj, UInt8.reduceToNat] at hzero hone htwo hthree hle
                omega

theorem flatMap_encodeValue_iff {n : Nat} {values : List Value}
    (h : decodeValues n bytes = .ok values) : values.length = n ∧
      (values.flatMap encodeValue = bytes ↔
        (∀ cell ∈ (cutCells n bytes).1, CellOk cell) ∧ (cutCells n bytes).2 = []) := by
  induction n generalizing bytes values with
  | zero =>
    cases h
    simp [cutCells, eq_comm]
  | succ n ih =>
    obtain ⟨⟨v, rest⟩, hvalue, h⟩ := bind_eq_ok.mp h
    obtain ⟨vs, hvalues, h⟩ := bind_eq_ok.mp h
    cases h
    obtain ⟨hlen, hiff⟩ := ih hvalues
    obtain ⟨tag, body, hread⟩ := decodeValue_readFrom hvalue
    refine ⟨by rw [length_cons, hlen], ?_⟩
    have hback := hread.back (vs.flatMap encodeValue)
    have hsize := hread.size
    obtain rfl := hread.cut
    rw [flatMap_cons, hback, hiff]
    simp only [cutCells, hsize, take_left, drop_left, mem_cons, forall_eq_or_imp,
      and_assoc]

theorem eq_encodeRow_iff {row : Row} (h : tryDecodeRow bytes = .ok row) :
    bytes = encodeRow row ↔ Undamaged bytes := by
  unfold tryDecodeRow at h
  split at h
  · cases h
  · next hshort =>
    obtain ⟨hlen, hiff⟩ := flatMap_encodeValue_iff h
    have htwo : (bytes.take 2).length = 2 := length_take_of_le (not_lt.mp hshort)
    have hcount : leBytes 2 row.length = bytes.take 2 := by
      have hback := leBytes_leValue (bytes.take 2)
      rw [htwo] at hback
      rw [hlen, hback]
    have hrow : bytes = encodeRow row ↔ row.flatMap encodeValue = bytes.drop 2 := by
      rw [encodeRow, hcount]
      constructor
      · intro heq
        rw [eq_comm]
        refine @append_cancel_left _ (bytes.take 2) _ _ ?_
        rw [take_append_drop]
        exact heq
      · intro heq
        rw [heq, take_append_drop]
    rw [hrow, hiff]
    exact ⟨fun hboth => ⟨hboth.1, hboth.2⟩, fun hboth => ⟨hboth.cells, hboth.all⟩⟩

theorem decodeValue_errs {e : DbError} (h : decodeValue bytes = .error e) : e = .corruptRow 0 := by
  cases bytes with
  | nil =>
    cases h
    rfl
  | cons tag rest =>
    simp only [decodeValue] at h
    repeat' split at h
    all_goals
      cases h
    all_goals rfl

theorem decodeValues_errs {n : Nat} {e : DbError} (h : decodeValues n bytes = .error e) :
    e = .corruptRow 0 := by
  induction n generalizing bytes with
  | zero => cases h
  | succ n ih =>
    rcases bind_eq_error.mp h with h | ⟨⟨v, rest⟩, _, h⟩
    · exact decodeValue_errs h
    · rcases bind_eq_error.mp h with h | ⟨vs, _, h⟩
      · exact ih h
      · cases h

theorem tryDecodeRow_errs {e : DbError} (h : tryDecodeRow bytes = .error e) :
    e = .corruptRow 0 := by
  unfold tryDecodeRow at h
  split at h
  · cases h
    rfl
  · exact decodeValues_errs h

/-- A row within the bounds of its encoding is decoded to itself.  Any bytes are
decoded to a row or reported as corrupt; and when they are decoded, they are the
encoding of the row exactly when they are undamaged. -/
theorem decode_exact_iff (row : Row) (bytes : Bytes) :
    (row.length ≤ 65535 → (∀ v ∈ row, v.Fits) → tryDecodeRow (encodeRow row) = .ok row) ∧
    ((∃ row, tryDecodeRow bytes = .ok row) ∨ tryDecodeRow bytes = .error (.corruptRow 0)) ∧
    (tryDecodeRow bytes = .ok row → (bytes = encodeRow row ↔ Undamaged bytes)) := by
  refine ⟨fun hlen hfits => tryDecodeRow_encodeRow (by omega) hfits, ?_, eq_encodeRow_iff⟩
  cases h : tryDecodeRow bytes with
  | ok row => exact Or.inl ⟨row, rfl⟩
  | error e =>
    rw [tryDecodeRow_errs h]
    exact Or.inr rfl

/-- The row of one null and one number. -/
theorem decode_exact_iff_null :
    tryDecodeRow (encodeRow [.null, .int 7]) = .ok [.null, .int 7] ∧
      Undamaged (encodeRow [.null, .int 7]) := by
  have hfits : ∀ v ∈ [Value.null, .int 7], v.Fits := by
    intro v hv
    rcases mem_pair.mp hv with rfl | rfl
    · exact trivial
    · exact trivial
  have hexact := decode_exact_iff [.null, .int 7] (encodeRow [.null, .int 7])
  have hread := hexact.1 (by decide) hfits
  exact ⟨hread, (hexact.2.2 hread).mp rfl⟩

/-- A value with an unknown tag is decoded to 0, and what follows a row is not
looked at. -/
theorem not_decode_exact :
    tryDecodeRow [1, 0, 9] = .ok [.int 0] ∧ encodeRow [.int 0] ≠ [1, 0, 9] := by decide

end Exact

end Oikos.Archon.Relational
