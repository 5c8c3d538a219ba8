/-
Machine integers as decimal texts: `to_string` and `parse`.
-/
import Mathlib.Algebra.Order.Ring.Nat

namespace Oikos

variable {w : Nat}

/-- The value of a text of digits, if it is one. -/
def parseDigits (cs : List Char) : Option Nat :=
  if cs.isEmpty || !cs.all Char.isDigit then none else some (Nat.ofDigitChars 10 cs 0)

/-- `parse` to an unsigned integer; a plus sign may stand in front. -/
def parseUnsigned (w : Nat) (text : String) : Option (BitVec w) :=
  let cs := text.toList
  let ds := if cs.head? = some '+' then cs.tail else cs
  (parseDigits ds).bind fun n => if n < 2 ^ w then some (BitVec.ofNat w n) else none

/-- `parse` to a signed integer, in two's complement. -/
def parseSigned (w : Nat) (text : String) : Option (BitVec w) :=
  let cs := text.toList
  if cs.head? = some '-' then
    (parseDigits cs.tail).bind fun n =>
      if n ≤ 2 ^ (w - 1) then some (BitVec.ofInt w (-n)) else none
  else
    let ds := if cs.head? = some '+' then cs.tail else cs
    (parseDigits ds).bind fun n => if n < 2 ^ (w - 1) then some (BitVec.ofInt w n) else none

def showUnsigned (a : BitVec w) : String :=
  String.ofList (Nat.toDigits 10 a.toNat)

def showSigned (a : BitVec w) : String :=
  if a.toInt < 0 then String.ofList ('-' :: Nat.toDigits 10 a.toInt.natAbs)
  else String.ofList (Nat.toDigits 10 a.toInt.natAbs)

theorem parseDigits_toDigits (n : Nat) : parseDigits (Nat.toDigits 10 n) = some n := by
  have hall : (Nat.toDigits 10 n).all Char.isDigit = true := by
    rw [List.all_eq_true]
    intro c hc
    exact Nat.isDigit_of_mem_toDigits (by decide) (by decide) hc
  have hne : (Nat.toDigits 10 n).isEmpty = false := by
    simp [Nat.toDigits_ne_nil]
  simp [parseDigits, hall, hne]

/-- A number starts with none of the signs. -/
theorem head_toDigits_ne (n : Nat) {c : Char} (hc : c.isDigit = false) :
    (Nat.toDigits 10 n).head? ≠ some c := by
  intro h
  have hmem := List.mem_of_head? h
  rw [Nat.isDigit_of_mem_toDigits (by decide) (by decide) hmem] at hc
  cases hc

theorem parseUnsigned_showUnsigned (a : BitVec w) : parseUnsigned w (showUnsigned a) = some a := by
  have hplus := head_toDigits_ne a.toNat (c := '+') (by decide)
  simp only [parseUnsigned, showUnsigned, String.toList_ofList, if_neg hplus, parseDigits_toDigits,
    Option.bind_some, if_pos a.isLt, BitVec.ofNat_toNat, BitVec.setWidth_eq]

theorem parseSigned_showSigned (a : BitVec w) : parseSigned w (showSigned a) = some a := by
  have hlow := BitVec.le_toInt a
  have hhigh := BitVec.toInt_lt (x := a)
  have hpow : ((2 ^ (w - 1) : Nat) : Int) = 2 ^ (w - 1) := by simp
  unfold parseSigned showSigned
  split
  · next hneg =>
    have hle : a.toInt.natAbs ≤ 2 ^ (w - 1) := by omega
    have hcast : (-(a.toInt.natAbs : Int)) = a.toInt := by omega
    simp only [String.toList_ofList, List.head?_cons, if_true, List.tail_cons,
      parseDigits_toDigits, Option.bind_some, if_pos hle, hcast, BitVec.ofInt_toInt]
  · next hpos =>
    have hlt : a.toInt.natAbs < 2 ^ (w - 1) := by omega
    have hcast : (a.toInt.natAbs : Int) = a.toInt := by omega
    have hplus := head_toDigits_ne a.toInt.natAbs (c := '+') (by decide)
    have hminus := head_toDigits_ne a.toInt.natAbs (c := '-') (by decide)
    simp only [String.toList_ofList, if_neg hminus, if_neg hplus, parseDigits_toDigits,
      Option.bind_some, if_pos hlt, hcast, BitVec.ofInt_toInt]

end Oikos
