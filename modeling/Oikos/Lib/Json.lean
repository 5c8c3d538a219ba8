/-
JSON texts made of integers, arrays and objects, printed without blanks: no text
is the beginning of another one, so a text tells its value.
-/
import Mathlib.Data.Nat.Basic
import Mathlib.Algebra.Order.Ring.Nat

namespace Oikos

open List

/-- The byte of an ASCII character. -/
def ascii (c : Char) : UInt8 :=
  UInt8.ofNat c.toNat

structure FieldName where
  text : List UInt8
  plain : ascii '"' ∉ text
deriving DecidableEq

inductive Json where
  | num (n : Int)
  | arr (items : List Json)
  | obj (fields : List (FieldName × Json))

/-- The decimal digits of a number. -/
def digitBytes (n : Nat) : List UInt8 :=
  (Nat.toDigits 10 n).map ascii

def printInt (n : Int) : List UInt8 :=
  if n < 0 then ascii '-' :: digitBytes n.natAbs else digitBytes n.natAbs

def printName (name : FieldName) : List UInt8 :=
  ascii '"' :: (name.text ++ [ascii '"', ascii ':'])

mutual

def Json.print : Json → List UInt8
  | .num n => printInt n
  | .arr [] => [ascii '[', ascii ']']
  | .arr (j :: js) => ascii '[' :: (j.print ++ printItems js)
  | .obj [] => [ascii '{', ascii '}']
  | .obj (f :: fs) => ascii '{' :: (printName f.1 ++ (f.2.print ++ printFields fs))

/-- The items after the first one, and the end of the array. -/
def printItems : List Json → List UInt8
  | [] => [ascii ']']
  | j :: js => ascii ',' :: (j.print ++ printItems js)

/-- The fields after the first one, and the end of the object. -/
def printFields : List (FieldName × Json) → List UInt8
  | [] => [ascii '}']
  | f :: fs => ascii ',' :: (printName f.1 ++ (f.2.print ++ printFields fs))

end

/-! ### Numbers -/

def isDigitByte (b : UInt8) : Bool :=
  48 ≤ b && b ≤ 57

/-- A text that does not go on with a digit. -/
def Delimited (r : List UInt8) : Prop :=
  ∀ b, r.head? = some b → isDigitByte b = false

variable {b : UInt8} {r s : List UInt8} {n m : Nat}

theorem delimited_cons (h : isDigitByte b = false) : Delimited (b :: r) := by
  intro b' hb
  cases hb
  exact h

theorem toNat_ascii_of_isDigit {c : Char} (h : c.isDigit = true) :
    (ascii c).toNat = c.toNat ∧ 48 ≤ c.toNat ∧ c.toNat ≤ 57 := by
  have hrange : 48 ≤ c.toNat ∧ c.toNat ≤ 57 := by
    simpa [Char.isDigit, UInt32.le_iff_toNat_le] using h
  refine ⟨?_, hrange⟩
  rw [ascii, UInt8.toNat_ofNat']
  omega

theorem isDigit_of_mem_toDigits {c : Char} (h : c ∈ Nat.toDigits 10 n) : c.isDigit = true :=
  Nat.isDigit_of_mem_toDigits (by decide) (by decide) h

theorem isDigitByte_digitBytes (h : b ∈ digitBytes n) : isDigitByte b = true := by
  obtain ⟨c, hc, rfl⟩ := mem_map.mp h
  obtain ⟨hnat, hrange⟩ := toNat_ascii_of_isDigit (isDigit_of_mem_toDigits hc)
  simp only [isDigitByte, Bool.and_eq_true, decide_eq_true_eq, UInt8.le_iff_toNat_le, hnat]
  exact hrange

theorem digitBytes_ne_nil (n : Nat) : digitBytes n ≠ [] := by
  simp [digitBytes, Nat.toDigits_ne_nil]

theorem ofDigitChars_digitBytes (n : Nat) :
    Nat.ofDigitChars 10 ((digitBytes n).map fun b => Char.ofNat b.toNat) 0 = n := by
  have hback : ((digitBytes n).map fun b => Char.ofNat b.toNat) = Nat.toDigits 10 n := by
    rw [digitBytes, map_map]
    refine (map_congr_left ?_).trans (map_id _)
    intro c hc
    rw [Function.comp_apply, (toNat_ascii_of_isDigit (isDigit_of_mem_toDigits hc)).1,
      Char.ofNat_toNat]
    rfl
  rw [hback, Nat.ofDigitChars_ten_toDigits]

theorem digitBytes_inj (h : digitBytes m = digitBytes n) : m = n := by
  rw [← ofDigitChars_digitBytes m, h, ofDigitChars_digitBytes]

theorem takeWhile_digitBytes (hr : Delimited r) :
    (digitBytes n ++ r).takeWhile isDigitByte = digitBytes n := by
  rw [takeWhile_append_of_pos fun b => isDigitByte_digitBytes]
  have hnil : r.takeWhile isDigitByte = [] := by
    cases r with
    | nil => rfl
    | cons b r => rw [takeWhile_cons_of_neg (by simp [hr b rfl])]
  rw [hnil, append_nil]

theorem digitBytes_unique (hr : Delimited r) (hs : Delimited s)
    (h : digitBytes m ++ r = digitBytes n ++ s) : m = n ∧ r = s := by
  have hdigits : digitBytes m = digitBytes n := by
    rw [← takeWhile_digitBytes hr, h, takeWhile_digitBytes hs]
  refine ⟨digitBytes_inj hdigits, ?_⟩
  rw [hdigits] at h
  exact append_cancel_left h

theorem head_printInt (n : Int) :
    ∃ b r, printInt n = b :: r ∧ (isDigitByte b = true ∨ b = ascii '-') := by
  unfold printInt
  split
  · exact ⟨_, _, rfl, Or.inr rfl⟩
  · cases hdigits : digitBytes n.natAbs with
    | nil => exact absurd hdigits (digitBytes_ne_nil _)
    | cons b r => exact ⟨b, r, rfl, Or.inl (isDigitByte_digitBytes (hdigits ▸ mem_cons_self))⟩

theorem head_digitBytes_ne (hb : isDigitByte b = false) : digitBytes m ++ r ≠ b :: s := by
  intro h
  cases hdigits : digitBytes m with
  | nil => exact digitBytes_ne_nil m hdigits
  | cons d ds =>
    rw [hdigits, cons_append] at h
    have hd : isDigitByte d = true := isDigitByte_digitBytes (hdigits ▸ mem_cons_self)
    rw [(cons.inj h).1, hb] at hd
    cases hd

theorem printInt_unique {m n : Int} (hr : Delimited r) (hs : Delimited s)
    (h : printInt m ++ r = printInt n ++ s) : m = n ∧ r = s := by
  unfold printInt at h
  split at h
  · split at h
    · next hm hn =>
      obtain ⟨habs, hrest⟩ := digitBytes_unique hr hs (cons.inj h).2
      exact ⟨by omega, hrest⟩
    · exact absurd h.symm (head_digitBytes_ne (by decide))
  · split at h
    · exact absurd h (head_digitBytes_ne (by decide))
    · next hm hn =>
      obtain ⟨habs, hrest⟩ := digitBytes_unique hr hs h
      exact ⟨by omega, hrest⟩

/-! ### Names -/

theorem printName_unique {a b : FieldName}
    (h : printName a ++ r = printName b ++ s) : a = b ∧ r = s := by
  have htext : ∀ {x : FieldName} {t : List UInt8},
      ((printName x ++ t).tail).takeWhile (· != ascii '"') = x.text := by
    intro x t
    simp only [printName, cons_append, tail_cons, append_assoc]
    rw [takeWhile_append_of_pos]
    · simp
    · intro c hc
      rw [bne_iff_ne]
      rintro rfl
      exact x.plain hc
  have heq : a = b := by
    have htext' : a.text = b.text := by
      rw [← htext (t := r), h, htext]
    cases a
    cases b
    cases htext'
    rfl
  cases heq
  exact ⟨rfl, append_cancel_left h⟩

/-! ### Values -/

theorem delimited_printItems (js : List Json) (r : List UInt8) :
    Delimited (printItems js ++ r) := by
  cases js with
  | nil => exact delimited_cons (by decide)
  | cons j js => exact delimited_cons (by decide)

theorem delimited_printFields (fs : List (FieldName × Json)) (r : List UInt8) :
    Delimited (printFields fs ++ r) := by
  cases fs with
  | nil => exact delimited_cons (by decide)
  | cons f fs => exact delimited_cons (by decide)

def StartsValue (b : UInt8) : Prop :=
  isDigitByte b = true ∨ b = ascii '-' ∨ b = ascii '[' ∨ b = ascii '{'

theorem head_print (j : Json) : ∃ b r, j.print = b :: r ∧ StartsValue b := by
  cases j with
  | num n =>
    obtain ⟨b, r, heq, hb⟩ := head_printInt n
    exact ⟨b, r, heq, hb.imp_right Or.inl⟩
  | arr items =>
    cases items with
    | nil => exact ⟨_, _, rfl, Or.inr (Or.inr (Or.inl rfl))⟩
    | cons => exact ⟨_, _, rfl, Or.inr (Or.inr (Or.inl rfl))⟩
  | obj fields =>
    cases fields with
    | nil => exact ⟨_, _, rfl, Or.inr (Or.inr (Or.inr rfl))⟩
    | cons => exact ⟨_, _, rfl, Or.inr (Or.inr (Or.inr rfl))⟩

theorem startsValue_ne (h : StartsValue b) : b ≠ ascii ']' := by
  rintro rfl
  revert h
  unfold StartsValue
  decide

/-- A value is no integer if it starts with a bracket. -/
theorem printInt_ne {n : Int} (hb : isDigitByte b = false)
    (hb' : b ≠ ascii '-') : printInt n ++ r ≠ b :: s := by
  obtain ⟨c, t, heq, hc⟩ := head_printInt n
  rw [heq, cons_append]
  intro h
  cases (cons.inj h).1
  rcases hc with hc | hc
  · rw [hb] at hc
    cases hc
  · exact hb' hc

theorem Json.print_arr (js : List Json) : ∃ t, (Json.arr js).print = ascii '[' :: t := by
  cases js <;> exact ⟨_, rfl⟩

theorem Json.print_obj (fs : List (FieldName × Json)) :
    ∃ t, (Json.obj fs).print = ascii '{' :: t := by
  cases fs <;> exact ⟨_, rfl⟩

/-- An array that goes on with a value is not empty. -/
theorem close_ne_print {j : Json} : ascii ']' :: r ≠ j.print ++ s := by
  obtain ⟨b, t, heq, hb⟩ := head_print j
  rw [heq, cons_append]
  intro h
  exact startsValue_ne hb (cons.inj h).1.symm

mutual

theorem Json.print_unique : ∀ (j j' : Json) {r s : List UInt8}, Delimited r → Delimited s →
    j.print ++ r = j'.print ++ s → j = j' ∧ r = s
  | .num m, .num n, _, _, hr, hs, h => by
    obtain ⟨rfl, rfl⟩ := printInt_unique hr hs h
    exact ⟨rfl, rfl⟩
  | .num m, .arr js, _, _, _, _, h => by
    obtain ⟨t, ht⟩ := Json.print_arr js
    exact (printInt_ne (by decide) (by decide) (ht ▸ h)).elim
  | .num m, .obj fs, _, _, _, _, h => by
    obtain ⟨t, ht⟩ := Json.print_obj fs
    exact (printInt_ne (by decide) (by decide) (ht ▸ h)).elim
  | .arr js, .num n, _, _, _, _, h => by
    obtain ⟨t, ht⟩ := Json.print_arr js
    exact (printInt_ne (by decide) (by decide) (ht ▸ h).symm).elim
  | .obj fs, .num n, _, _, _, _, h => by
    obtain ⟨t, ht⟩ := Json.print_obj fs
    exact (printInt_ne (by decide) (by decide) (ht ▸ h).symm).elim
  | .arr [], .arr [], _, _, _, _, h => ⟨rfl, (cons.inj (cons.inj h).2).2⟩
  | .arr [], .arr (j :: js), _, _, _, _, h => by
    simp only [Json.print, cons_append, append_assoc] at h
    exact (close_ne_print (cons.inj h).2).elim
  | .arr (j :: js), .arr [], _, _, _, _, h => by
    simp only [Json.print, cons_append, append_assoc] at h
    exact (close_ne_print (cons.inj h).2.symm).elim
  | .arr (j :: js), .arr (j' :: js'), _, _, _, _, h => by
    simp only [Json.print, cons_append, append_assoc] at h
    obtain ⟨rfl, hitems⟩ := Json.print_unique j j' (delimited_printItems js _)
      (delimited_printItems js' _) (cons.inj h).2
    obtain ⟨rfl, rfl⟩ := printItems_unique js js' hitems
    exact ⟨rfl, rfl⟩
  | .arr js, .obj fs, _, _, _, _, h => by
    obtain ⟨t, ht⟩ := Json.print_arr js
    obtain ⟨t', ht'⟩ := Json.print_obj fs
    rw [ht, ht'] at h
    exact absurd (cons.inj h).1 (by decide)
  | .obj fs, .arr js, _, _, _, _, h => by
    obtain ⟨t, ht⟩ := Json.print_arr js
    obtain ⟨t', ht'⟩ := Json.print_obj fs
    rw [ht, ht'] at h
    exact absurd (cons.inj h).1 (by decide)
  | .obj fs, .obj fs', _, _, _, _, h => by
    obtain ⟨rfl, rfl⟩ := Json.print_obj_unique fs fs' h
    exact ⟨rfl, rfl⟩

/-- Objects show where they end. -/
theorem Json.print_obj_unique : ∀ (fs fs' : List (FieldName × Json)) {r s : List UInt8},
    (Json.obj fs).print ++ r = (Json.obj fs').print ++ s → fs = fs' ∧ r = s
  | [], [], _, _, h => ⟨rfl, (cons.inj (cons.inj h).2).2⟩
  | [], _ :: _, _, _, h => absurd (cons.inj (cons.inj h).2).1 (by decide)
  | _ :: _, [], _, _, h => absurd (cons.inj (cons.inj h).2).1 (by decide)
  | (a, j) :: fs, (b, j') :: fs', _, _, h => by
    simp only [Json.print, cons_append, append_assoc] at h
    obtain ⟨rfl, hvalue⟩ := printName_unique (cons.inj h).2
    obtain ⟨rfl, hfields⟩ := Json.print_unique j j' (delimited_printFields fs _)
      (delimited_printFields fs' _) hvalue
    obtain ⟨rfl, rfl⟩ := printFields_unique fs fs' hfields
    exact ⟨rfl, rfl⟩

theorem printItems_unique : ∀ (js js' : List Json) {r s : List UInt8},
    printItems js ++ r = printItems js' ++ s → js = js' ∧ r = s
  | [], [], _, _, h => ⟨rfl, (cons.inj h).2⟩
  | [], _ :: _, _, _, h => absurd (cons.inj h).1 (by decide)
  | _ :: _, [], _, _, h => absurd (cons.inj h).1 (by decide)
  | j :: js, j' :: js', _, _, h => by
    simp only [printItems, cons_append, append_assoc] at h
    obtain ⟨rfl, hitems⟩ := Json.print_unique j j' (delimited_printItems js _)
      (delimited_printItems js' _) (cons.inj h).2
    obtain ⟨rfl, rfl⟩ := printItems_unique js js' hitems
    exact ⟨rfl, rfl⟩

theorem printFields_unique : ∀ (fs fs' : List (FieldName × Json)) {r s : List UInt8},
    printFields fs ++ r = printFields fs' ++ s → fs = fs' ∧ r = s
  | [], [], _, _, h => ⟨rfl, (cons.inj h).2⟩
  | [], _ :: _, _, _, h => absurd (cons.inj h).1 (by decide)
  | _ :: _, [], _, _, h => absurd (cons.inj h).1 (by decide)
  | (a, j) :: fs, (b, j') :: fs', _, _, h => by
    simp only [printFields, cons_append, append_assoc] at h
    obtain ⟨rfl, hvalue⟩ := printName_unique (cons.inj h).2
    obtain ⟨rfl, hfields⟩ := Json.print_unique j j' (delimited_printFields fs _)
      (delimited_printFields fs' _) hvalue
    obtain ⟨rfl, rfl⟩ := printFields_unique fs fs' hfields
    exact ⟨rfl, rfl⟩

end

end Oikos
