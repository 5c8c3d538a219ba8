/-
Base64 in the alphabet for URLs, without padding.  Decoding skips line breaks
and does not look at the bits that are left over at the end.
-/
import Mathlib.Data.List.Basic

namespace Oikos.Base64

open List

def alphabet : List Char :=
  "ABCDEFGHIJKLMNOPQRSTUVWXYZabcdefghijklmnopqrstuvwxyz0123456789-_".toList

/-- The character for six bits. -/
def digit (n : Nat) : Char :=
  alphabet[n]?.getD 'A'

def sextet (c : Char) : Option Nat :=
  alphabet.idxOf? c

def encodeChars : List UInt8 → List Char
  | [] => []
  | [a] => [digit (a.toNat / 4), digit (a.toNat % 4 * 16)]
  | [a, b] =>
    [digit (a.toNat / 4), digit (a.toNat % 4 * 16 + b.toNat / 16), digit (b.toNat % 16 * 4)]
  | a :: b :: c :: rest =>
    digit (a.toNat / 4) :: digit (a.toNat % 4 * 16 + b.toNat / 16) ::
      digit (b.toNat % 16 * 4 + c.toNat / 64) :: digit (c.toNat % 64) :: encodeChars rest

def encodeToString (bytes : List UInt8) : String :=
  String.ofList (encodeChars bytes)

/-- The bytes of up to four digits. -/
def quantum : List Nat → List UInt8
  | [x, y] => [.ofNat (x * 4 + y / 16)]
  | [x, y, z] => [.ofNat (x * 4 + y / 16), .ofNat (y % 16 * 16 + z / 4)]
  | [x, y, z, w] =>
    [.ofNat (x * 4 + y / 16), .ofNat (y % 16 * 16 + z / 4), .ofNat (z % 4 * 64 + w)]
  | _ => []

/-- The rest of a text from byte `si` on, after the digits `dbuf` of the current quantum. -/
def decodeChars (si : Nat) (dbuf : List Nat) : List Char → Except String (List UInt8)
  | [] =>
    if dbuf.length = 1 then .error s!"illegal base64 data at input byte {si - 1}"
    else .ok (quantum dbuf)
  | c :: cs =>
    match sextet c with
    | some v =>
      if dbuf.length = 3 then do
        let rest ← decodeChars (si + 1) [] cs
        .ok (quantum (dbuf ++ [v]) ++ rest)
      else decodeChars (si + 1) (dbuf ++ [v]) cs
    | none =>
      if c = '\n' ∨ c = '\r' then decodeChars (si + 1) dbuf cs
      else .error s!"illegal base64 data at input byte {si}"

def decodeString (text : String) : Except String (List UInt8) :=
  decodeChars 0 [] text.toList

theorem alphabet_eq :
    alphabet = [
      'A', 'B', 'C', 'D', 'E', 'F', 'G', 'H', 'I', 'J', 'K', 'L', 'M', 'N', 'O', 'P', 'Q',
      'R', 'S', 'T', 'U', 'V', 'W', 'X', 'Y', 'Z', 'a', 'b', 'c', 'd', 'e', 'f', 'g', 'h',
      'i', 'j', 'k', 'l', 'm', 'n', 'o', 'p', 'q', 'r', 's', 't', 'u', 'v', 'w', 'x', 'y',
      'z', '0', '1', '2', '3', '4', '5', '6', '7', '8', '9', '-', '_'] :=
  String.toList_ofList

theorem sextet_digit {n : Nat} (h : n < 64) : sextet (digit n) = some n := by
  have hall : ∀ n : Fin 64, sextet (digit n) = some n.val := by
    simp only [sextet, digit, alphabet_eq]
    decide +kernel
  exact hall ⟨n, h⟩

theorem decodeChars_digit {n si : Nat} (h : n < 64) (dbuf : List Nat) (hdbuf : dbuf.length ≠ 3)
    (cs : List Char) :
    decodeChars si dbuf (digit n :: cs) = decodeChars (si + 1) (dbuf ++ [n]) cs := by
  rw [decodeChars, sextet_digit h]
  exact if_neg hdbuf

theorem decodeChars_last {n si : Nat} (h : n < 64) (dbuf : List Nat) (hdbuf : dbuf.length = 3)
    {cs : List Char} {rest : List UInt8} (hrest : decodeChars (si + 1) [] cs = .ok rest) :
    decodeChars si dbuf (digit n :: cs) = .ok (quantum (dbuf ++ [n]) ++ rest) := by
  rw [decodeChars, sextet_digit h]
  change (if dbuf.length = 3 then _ else _) = _
  rw [if_pos hdbuf, hrest]
  rfl

theorem ofNat_eq {n : Nat} {a : UInt8} (h : n = a.toNat) : UInt8.ofNat n = a := by
  rw [h, UInt8.ofNat_toNat]

theorem decodeChars_encodeChars (si : Nat) (bytes : List UInt8) :
    decodeChars si [] (encodeChars bytes) = .ok bytes := by
  induction bytes using encodeChars.induct generalizing si with
  | case1 => rfl
  | case2 a =>
    have ha := a.toNat_lt
    rw [encodeChars, decodeChars_digit (by omega) _ (by simp),
      decodeChars_digit (by omega) _ (by simp)]
    refine congrArg Except.ok (cons_eq_cons.mpr ⟨ofNat_eq ?_, rfl⟩)
    omega
  | case3 a b =>
    have ha := a.toNat_lt
    have hb := b.toNat_lt
    rw [encodeChars, decodeChars_digit (by omega) _ (by simp),
      decodeChars_digit (by omega) _ (by simp),
      decodeChars_digit (by omega) _ (by simp)]
    refine congrArg Except.ok (cons_eq_cons.mpr ⟨ofNat_eq ?_,
      cons_eq_cons.mpr ⟨ofNat_eq ?_, rfl⟩⟩)
    · omega
    · omega
  | case4 a b c rest ih =>
    have ha := a.toNat_lt
    have hb := b.toNat_lt
    have hc := c.toNat_lt
    rw [encodeChars, decodeChars_digit (by omega) _ (by simp),
      decodeChars_digit (by omega) _ (by simp),
      decodeChars_digit (by omega) _ (by simp), decodeChars_last (by omega) _ rfl (ih _)]
    refine congrArg Except.ok (cons_eq_cons.mpr ⟨ofNat_eq ?_,
      cons_eq_cons.mpr ⟨ofNat_eq ?_, cons_eq_cons.mpr ⟨ofNat_eq ?_, rfl⟩⟩⟩)
    · omega
    · omega
    · omega

theorem decodeString_encodeToString (bytes : List UInt8) :
    decodeString (encodeToString bytes) = .ok bytes := by
  rw [decodeString, encodeToString, String.toList_ofList]
  exact decodeChars_encodeChars 0 bytes

theorem digit_mem (n : Nat) : digit n ∈ alphabet := by
  rw [digit]
  cases h : alphabet[n]? with
  | none => exact mem_cons_self
  | some c => exact mem_of_getElem? h

theorem mem_encodeChars {bytes : List UInt8} {c : Char} (h : c ∈ encodeChars bytes) :
    c ∈ alphabet := by
  induction bytes using encodeChars.induct with
  | case1 => simp [encodeChars] at h
  | case2 a =>
    simp only [encodeChars, mem_cons, not_mem_nil, or_false] at h
    rcases h with rfl | rfl <;> exact digit_mem _
  | case3 a b =>
    simp only [encodeChars, mem_cons, not_mem_nil, or_false] at h
    rcases h with rfl | rfl | rfl <;> exact digit_mem _
  | case4 a b c rest ih =>
    simp only [encodeChars, mem_cons] at h
    rcases h with rfl | rfl | rfl | rfl | h
    · exact digit_mem _
    · exact digit_mem _
    · exact digit_mem _
    · exact digit_mem _
    · exact ih h

end Oikos.Base64
