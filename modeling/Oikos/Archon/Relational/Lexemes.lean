/-
What the tokenizer reads off an input, and when pushing a token back undoes
reading it.
-/
import Oikos.Lib.Reads
import Oikos.Archon.Relational.Parser
import Mathlib.Data.List.Induction
import Mathlib.Data.List.DropRight

namespace Oikos.Archon.Relational

open List

/-! ### Digits -/

section Digits

theorem toNat_of_isDigit {c : Char} (h : c.isDigit = true) : 48 ≤ c.toNat ∧ c.toNat ≤ 57 := by
  simpa [Char.isDigit, UInt32.le_iff_toNat_le] using h

theorem toDigits_isDigit {c : Char} (h : c.isDigit = true) :
    Nat.toDigits 10 (c.toNat - 48) = [c] := by
  have hc := toNat_of_isDigit h
  rw [Nat.toDigits_of_lt_base (by omega)]
  congr 1
  apply Char.toNat_inj.mp
  rw [Nat.toNat_digitChar_of_lt_ten (by omega)]
  omega

theorem digitsValue_concat (ds : List Char) (c : Char) :
    digitsValue (ds ++ [c]) = 10 * digitsValue ds + (c.toNat - 48) := by
  simp [digitsValue, Nat.ofDigitChars_append, Nat.ofDigitChars_cons]

theorem digitsValue_toDigits (n : Nat) : digitsValue (Nat.toDigits 10 n) = n :=
  Nat.ofDigitChars_ten_toDigits

theorem eq_zeros_append_toDigits {ds : List Char} (hne : ds ≠ []) (h : ∀ c ∈ ds, c.isDigit = true) :
    ∃ k, ds = replicate k '0' ++ Nat.toDigits 10 (digitsValue ds) := by
  induction ds using reverseRecOn with
  | nil => exact absurd rfl hne
  | append_singleton ds c ih =>
    have hc : Nat.toDigits 10 (c.toNat - 48) = [c] := toDigits_isDigit (h c (by simp))
    have hlt := toNat_of_isDigit (h c (by simp))
    rw [digitsValue_concat]
    rcases eq_nil_or_concat ds with rfl | ⟨_, _, hds⟩
    · exact ⟨0, by simpa [digitsValue] using hc.symm⟩
    · obtain ⟨k, hk⟩ := ih (by simp [hds]) fun x hx => h x (by simp [hx])
      rcases Nat.eq_zero_or_pos (digitsValue ds) with hzero | hpos
      · rw [hzero, Nat.toDigits_zero] at hk
        refine ⟨k + 1, ?_⟩
        rw [hzero, mul_zero, zero_add, hc, replicate_succ', ← hk]
      · refine ⟨k, ?_⟩
        rw [← Nat.toDigits_append_toDigits (by omega) hpos (by omega), hc,
          ← append_assoc, ← hk]

theorem toInt_ofInt_neg {n : Nat} (h : n ≤ 9223372036854775808) :
    (Int64.ofInt (-(n : Int))).toInt = -(n : Int) :=
  Int64.toInt_ofInt_of_le (by omega) (by omega)

theorem toInt_ofInt_nat {n : Nat} (h : n < 9223372036854775808) :
    (Int64.ofInt (n : Int)).toInt = n :=
  Int64.toInt_ofInt_of_le (by omega) (by omega)

end Digits

/-! ### Scanning -/

section Scanning

def Tok.isNumber : Tok → Bool
  | .int _ => true
  | .float _ => true
  | _ => false

variable {c : Char} {cs ds rem : List Char} {negative : Bool} {v : Int64}

theorem symbol_width {t : Tok} (h : symbol c = some t) : t.width = 1 := by
  unfold symbol at h
  repeat' split at h
  all_goals cases h
  all_goals rfl

theorem symbol_spec {t : Tok} (h : symbol c = some t) :
    t ≠ .eof ∧ (t = .lbracket → c = '[') ∧ t.isNumber = false := by
  unfold symbol at h
  repeat' split at h
  all_goals cases h
  all_goals simp_all [Tok.isNumber]

/-- The digits and what follows them are read as the integer `v`. -/
structure ReadsInt (negative : Bool) (ds rem : List Char) (v : Int64) : Prop where
  digits : ∀ c ∈ ds, c.isDigit = true
  stops : ∀ c, rem.head? = some c → c.isDigit = false
  whole : scanFraction rem = none
  value : i64FromStr negative ds = some v

/-- Characters that satisfy `p` up to one that does not. -/
theorem takeWhile_append_stop {p : Char → Bool} {cs rem : List Char} (hcs : ∀ c ∈ cs, p c = true)
    (hrem : ∀ c, rem.head? = some c → p c = false) :
    (cs ++ rem).takeWhile p = cs ∧ (cs ++ rem).dropWhile p = rem := by
  induction cs with
  | nil =>
    cases rem with
    | nil => simp
    | cons c rem =>
      have hc := hrem c rfl
      simp [hc]
  | cons d cs ih =>
    have hd := hcs d mem_cons_self
    have hsplit := ih fun c hc => hcs c (mem_cons_of_mem d hc)
    simp [hd, hsplit]

theorem head?_dropWhile {p : Char → Bool}
    (h : (cs.dropWhile p).head? = some c) : p c = false := by
  have hnot := head?_dropWhile_not p cs
  rw [h] at hnot
  exact hnot

theorem scanDigits_of_readsInt
    (h : ReadsInt negative ds rem v) : scanDigits negative (ds ++ rem) = .ok (.int v, rem) := by
  have hsplit := takeWhile_append_stop h.digits h.stops
  simp [scanDigits, hsplit, h.whole, h.value]

theorem ReadsInt.ne_nil (h : ReadsInt negative ds rem v) : ds ≠ [] := by
  rintro rfl
  have hvalue := h.value
  simp [i64FromStr] at hvalue

theorem scanNumber_digits (hne : ds ≠ []) (h : ∀ c ∈ ds, c.isDigit = true)
    (rem : List Char) : scanNumber (ds ++ rem) = scanDigits false (ds ++ rem) := by
  obtain ⟨d, ds, rfl⟩ := exists_cons_of_ne_nil hne
  have hd := h d mem_cons_self
  apply if_neg
  intro hhead
  cases hhead
  revert hd
  decide

theorem scanNumber_of_readsInt (h : ReadsInt negative ds rem v) :
    scanNumber (signText negative ++ ds ++ rem) = .ok (.int v, rem) := by
  cases negative with
  | true => exact scanDigits_of_readsInt h
  | false => exact (scanNumber_digits h.ne_nil h.digits rem).trans (scanDigits_of_readsInt h)

theorem scanDigits_eq_ok {t : Tok} (h : scanDigits negative cs = .ok (t, rem)) :
    (∃ x, t = .float x) ∨ ∃ v ds, t = .int v ∧ cs = ds ++ rem ∧ ReadsInt negative ds rem v := by
  cases hfrac : scanFraction (cs.dropWhile Char.isDigit) with
  | some p =>
    simp only [scanDigits, hfrac] at h
    split at h
    · cases h
      exact Or.inl ⟨_, rfl⟩
    · cases h
  | none =>
    simp only [scanDigits, hfrac] at h
    split at h
    · rename_i v hv
      cases h
      exact Or.inr ⟨v, cs.takeWhile Char.isDigit, rfl, takeWhile_append_dropWhile.symm,
        fun c => mem_takeWhile_imp, fun c => head?_dropWhile, hfrac, hv⟩
    · cases h

theorem scanNumber_eq_ok {t : Tok} (h : scanNumber cs = .ok (t, rem)) : (∃ x, t = .float x) ∨
      ∃ v negative ds, t = .int v ∧ cs = signText negative ++ ds ++ rem ∧
        ReadsInt negative ds rem v := by
  unfold scanNumber at h
  split at h
  · rename_i hsign
    rcases scanDigits_eq_ok h with hx | ⟨v, ds, ht, hcs, hv⟩
    · exact Or.inl hx
    · refine Or.inr ⟨v, true, ds, ht, ?_, hv⟩
      rw [append_assoc, ← hcs]
      exact (cons_head?_tail hsign).symm
  · rcases scanDigits_eq_ok h with hx | ⟨v, ds, ht, hcs, hv⟩
    · exact Or.inl hx
    · exact Or.inr ⟨v, false, ds, ht, hcs, hv⟩

theorem scan_number (h : c.isDigit || c == '-') (cs : List Char) :
    scan c cs = scanNumber (c :: cs) := by
  have hsymbol : symbol c = none := by
    unfold symbol
    repeat' split
    all_goals first | rfl | (subst c; revert h; decide)
  have hne : c ≠ '<' ∧ c ≠ '>' ∧ c ≠ '!' ∧ c ≠ quote := by
    refine ⟨?_, ?_, ?_, ?_⟩
    all_goals
      rintro rfl
      revert h
      decide
  simp only [scan, hsymbol, hne, if_false, h, if_true]

/-- A list up to the first `d`, and after it. -/
theorem eq_takeWhile_cons {d : Char} (h : d ∈ cs) :
    cs = cs.takeWhile (· != d) ++ d :: (cs.dropWhile (· != d)).tail := by
  induction cs with
  | nil => cases h
  | cons c cs ih =>
    by_cases hc : c = d
    · simp [hc]
    · have hmem : d ∈ cs := by simpa [Ne.symm hc] using h
      simpa [hc] using ih hmem

theorem width_text (s : String) : (Tok.text s).width = s.length + 2 := rfl

theorem width_ident (s : String) : (Tok.ident s).width = s.length := rfl


theorem scan_splits {t : Tok} (h : scan c cs = .ok (t, rem))
    (ht : t.isNumber = false) : ∃ text, c :: cs = text ++ rem ∧ text.length = t.width := by
  unfold scan at h
  repeat' split at h
  all_goals try cases h
  · rename_i hsymbol
    exact ⟨[c], rfl, (symbol_width hsymbol).symm⟩
  · rename_i heq
    exact ⟨[c, '='], by simp [cons_head?_tail heq], rfl⟩
  · rename_i heq
    exact ⟨[c, '>'], by simp [cons_head?_tail heq], rfl⟩
  · exact ⟨[c], rfl, rfl⟩
  · rename_i heq
    exact ⟨[c, '='], by simp [cons_head?_tail heq], rfl⟩
  · exact ⟨[c], rfl, rfl⟩
  · rename_i heq
    exact ⟨[c, '='], by simp [cons_head?_tail heq], rfl⟩
  · rename_i hquote
    refine ⟨c :: cs.takeWhile (· != quote) ++ [quote], ?_, ?_⟩
    · rw [append_assoc, cons_append, singleton_append,
        ← eq_takeWhile_cons (contains_iff_mem.mp hquote)]
    · rw [width_text, String.length_ofList, length_append, length_cons,
        length_singleton]
  · rcases scanNumber_eq_ok h with ⟨x, rfl⟩ | ⟨v, _, _, rfl, _⟩
    · cases ht
    · cases ht
  · refine ⟨c :: cs.takeWhile isWordChar, ?_, ?_⟩
    · rw [cons_append, takeWhile_append_dropWhile]
    · rw [width_ident, String.length_ofList]

theorem scan_spec {t : Tok} (h : scan c cs = .ok (t, rem)) :
    t ≠ .eof ∧ (t = .lbracket → c = '[') ∧
      ∀ v, t = .int v → ∃ negative ds, c :: cs = signText negative ++ ds ++ rem ∧
        ReadsInt negative ds rem v := by
  unfold scan at h
  repeat' split at h
  all_goals try cases h
  case h_1 hsymbol =>
    obtain ⟨heof, hbracket, hnumber⟩ := symbol_spec hsymbol
    refine ⟨heof, hbracket, ?_⟩
    rintro v rfl
    cases hnumber
  all_goals try (simp; done)
  rcases scanNumber_eq_ok h with ⟨x, rfl⟩ | ⟨v, negative, ds, rfl, hcs, hv⟩
  · simp
  · refine ⟨by simp, by simp, ?_⟩
    intro w hw
    cases hw
    exact ⟨negative, ds, hcs, hv⟩

theorem isWordChar_not_blank (h : isWordChar c = true) : isAsciiWhitespace c = false := by
  cases hblank : isAsciiWhitespace c with
  | false => rfl
  | true =>
    simp only [isAsciiWhitespace, contains_eq_mem, decide_eq_true_eq, mem_cons,
      not_mem_nil, or_false] at hblank
    have hc : c = Char.ofNat c.toNat := (Char.ofNat_toNat c).symm
    rcases hblank with hn | hn | hn | hn | hn
    all_goals
      rw [hn] at hc
      subst hc
      revert h
      decide

theorem scan_last {t : Tok} (h : scan c cs = .ok (t, rem))
    (hc : isAsciiWhitespace c = false) (ht : ∀ x, t ≠ .float x) :
    ∃ front d, c :: cs = front ++ d :: rem ∧ isAsciiWhitespace d = false := by
  unfold scan at h
  repeat' split at h
  all_goals try cases h
  · exact ⟨[], c, rfl, hc⟩
  · rename_i heq
    exact ⟨[c], '=', by simp [cons_head?_tail heq], rfl⟩
  · rename_i heq
    exact ⟨[c], '>', by simp [cons_head?_tail heq], rfl⟩
  · exact ⟨[], c, rfl, hc⟩
  · rename_i heq
    exact ⟨[c], '=', by simp [cons_head?_tail heq], rfl⟩
  · exact ⟨[], c, rfl, hc⟩
  · rename_i heq
    exact ⟨[c], '=', by simp [cons_head?_tail heq], rfl⟩
  · rename_i hquote
    refine ⟨c :: cs.takeWhile (· != quote), quote, ?_, rfl⟩
    rw [cons_append, ← eq_takeWhile_cons (contains_iff_mem.mp hquote)]
  · rcases scanNumber_eq_ok h with ⟨x, rfl⟩ | ⟨v, negative, ds, rfl, hcs, hv⟩
    · exact absurd rfl (ht x)
    · obtain ⟨ds', d, rfl⟩ := (eq_nil_or_concat ds).resolve_left hv.ne_nil
      refine ⟨signText negative ++ ds', d, by simp [hcs], ?_⟩
      apply isWordChar_not_blank
      simp [isWordChar, Char.isAlphanum, hv.digits d (by simp)]
  · obtain ⟨w, d, hword⟩ :=
      (eq_nil_or_concat' (c :: cs.takeWhile isWordChar)).resolve_left (cons_ne_nil _ _)
    refine ⟨w, d, ?_, ?_⟩
    · rw [append_cons, ← hword, cons_append, takeWhile_append_dropWhile]
    · have hd : d ∈ c :: cs.takeWhile isWordChar := by simp [hword]
      rcases mem_cons.mp hd with rfl | hd
      · exact hc
      · exact isWordChar_not_blank (mem_takeWhile_imp hd)

/-- The word starts with a letter or an underscore and goes on with word characters. -/
def IsWordText (s : String) : Prop :=
  ∃ c cs, s.toList = c :: cs ∧ (c.isAlpha || c == '_') = true ∧ ∀ d ∈ cs, isWordChar d = true

theorem scan_word (hc : (c.isAlpha || c == '_') = true) (cs : List Char) :
    scan c cs = .ok (.ident (String.ofList (c :: cs.takeWhile isWordChar)),
      cs.dropWhile isWordChar) := by
  have hne : ∀ d : Char, (d.isAlpha || d == '_') = false → c ≠ d := by
    rintro d hd rfl
    rw [hd] at hc
    cases hc
  have hsymbol : symbol c = none := by
    simp only [symbol, hne '*' (by decide), hne ',' (by decide), hne '(' (by decide),
      hne ')' (by decide), hne '.' (by decide), hne '[' (by decide), hne '=' (by decide),
      hne '?' (by decide), if_false]
  have hdigit : (c.isDigit || c == '-') = false := by
    cases hnumber : c.isDigit with
    | false => simpa using hne '-' (by decide)
    | true =>
      have hrange := toNat_of_isDigit hnumber
      delta Char.isAlpha Char.isUpper Char.isLower at hc
      simp only [UInt32.le_iff_toNat_le, ge_iff_le, Bool.or_eq_true, Bool.and_eq_true,
        decide_eq_true_eq, beq_iff_eq] at hc
      rcases hc with (⟨hlow, _⟩ | ⟨hlow, _⟩) | rfl
      · have hletter : 65 ≤ c.toNat := hlow
        omega
      · have hletter : 97 ≤ c.toNat := hlow
        omega
      · cases hnumber
  simp only [scan, hsymbol, hne '<' (by decide), hne '>' (by decide), hne '!' (by decide),
    hne quote (by decide), hdigit, hc, if_false, if_true, Bool.false_eq_true]

end Scanning

/-! ### Words -/

theorem eqIgnoreCase_iff {s w : String} :
    eqIgnoreCase s w = true ↔ toAsciiLowercase s = toAsciiLowercase w := by
  have hlists : ∀ xs ys : List Char, (xs.length == ys.length &&
      (xs.zip ys).all fun p => p.1.toLower == p.2.toLower) = true ↔
        xs.map Char.toLower = ys.map Char.toLower := by
    intro xs
    induction xs with
    | nil => intro ys; cases ys <;> simp
    | cons x xs ih =>
      intro ys
      cases ys with
      | nil => simp
      | cons y ys =>
        have hstep := ih ys
        simp only [Bool.and_eq_true, beq_iff_eq] at hstep
        simp only [length_cons, zip_cons_cons, all_cons, map_cons,
          cons.injEq, Bool.and_eq_true, beq_iff_eq, Nat.add_right_cancel_iff, ← hstep]
        exact ⟨fun h => ⟨h.2.1, h.1, h.2.2⟩, fun h => ⟨h.2.1, h.1, h.2.2⟩⟩
  unfold eqIgnoreCase toAsciiLowercase
  rw [hlists, String.ofList_inj]

/-- A token is not two different keywords. -/
theorem isWord_other {t : Tok} {v w : String} (hv : t.isWord v = true)
    (h : toAsciiLowercase v ≠ toAsciiLowercase w) : t.isWord w = false := by
  cases hw : t.isWord w with
  | false => rfl
  | true =>
    cases t with
    | ident s => exact absurd ((eqIgnoreCase_iff.mp hv).symm.trans (eqIgnoreCase_iff.mp hw)) h
    | _ => cases hv

/-! ### Lexemes -/

/-- A token with the text it was read from, or brackets with all that stands
between them. -/
inductive Lexeme where
  | tok (t : Tok) (text : List Char)
  | bracket (content : List Char)
deriving Repr, DecidableEq

namespace Lexeme

def Is (t : Tok) (m : Lexeme) : Prop :=
  ∃ text, m = .tok t text

def IsWord (w : String) (m : Lexeme) : Prop :=
  ∃ s text, m = .tok (.ident s) text ∧ eqIgnoreCase s w = true

/-- A negative integer that is written with leading zeros. -/
def Padded (m : Lexeme) : Prop :=
  ∃ v text, m = .tok (.int v) text ∧ v.toInt < 0 ∧ text.length ≠ (displayInt v).length

end Lexeme

/-- The first lexeme of a text, and the text after it. -/
def lexeme (cs : List Char) : Option (Lexeme × List Char) :=
  match cs.dropWhile isAsciiWhitespace with
  | [] => none
  | c :: cs =>
    if c = '[' then
      if ']' ∈ cs then
        some (.bracket (cs.takeWhile (· != ']')), (cs.dropWhile (· != ']')).tail)
      else none
    else
      match scan c cs with
      | .ok (t, rem) => some (.tok t ((c :: cs).take ((c :: cs).length - rem.length)), rem)
      | .error _ => none

/-- The text starts with these lexemes, and `rest` follows them. -/
inductive Lexes : List Char → List Lexeme → List Char → Prop
  | nil {cs} : Lexes cs [] cs
  | cons {cs m rem ms rest} : lexeme cs = some (m, rem) → Lexes rem ms rest →
      Lexes cs (m :: ms) rest

/-- The text is made of these lexemes. -/
def Tokens (cs : List Char) (ms : List Lexeme) : Prop :=
  ∃ rest, Lexes cs ms rest ∧ rest.dropWhile isAsciiWhitespace = []

section Tokens

theorem tokens_nil {cs : List Char} :
    Tokens cs [] ↔ cs.dropWhile isAsciiWhitespace = [] := by
  constructor
  · rintro ⟨rest, hlex, hblank⟩
    cases hlex
    exact hblank
  · intro h
    exact ⟨cs, .nil, h⟩

theorem tokens_cons {cs : List Char} {m : Lexeme} {ms : List Lexeme} :
    Tokens cs (m :: ms) ↔ ∃ rem, lexeme cs = some (m, rem) ∧ Tokens rem ms := by
  constructor
  · rintro ⟨rest, hlex, hblank⟩
    cases hlex with
    | cons hm hms => exact ⟨_, hm, rest, hms, hblank⟩
  · rintro ⟨rem, hm, rest, hms, hblank⟩
    exact ⟨rest, .cons hm hms, hblank⟩

/-- Blanks in front of a text do not matter. -/
theorem tokens_dropWhile {cs : List Char} {ms : List Lexeme} :
    Tokens (cs.dropWhile isAsciiWhitespace) ms ↔ Tokens cs ms := by
  cases ms with
  | nil => rw [tokens_nil, tokens_nil, dropWhile_idempotent]
  | cons m ms =>
    rw [tokens_cons, tokens_cons]
    simp only [lexeme, dropWhile_idempotent]

end Tokens

theorem lexeme_eq_tok {cs rem : List Char} {t : Tok} {text : List Char}
    (h : lexeme cs = some (.tok t text, rem)) :
    ∃ c cs', cs.dropWhile isAsciiWhitespace = c :: cs' ∧ scan c cs' = .ok (t, rem) ∧ c ≠ '[' ∧
      text = (c :: cs').take ((c :: cs').length - rem.length) := by
  cases hdrop : cs.dropWhile isAsciiWhitespace with
  | nil => simp [lexeme, hdrop] at h
  | cons c cs' =>
    simp only [lexeme, hdrop] at h
    split at h
    · split at h <;> cases h
    · rename_i hbracket
      split at h
      · rename_i hscan
        cases h
        exact ⟨c, cs', rfl, hscan, hbracket, rfl⟩
      · cases h

/-! ### Positions -/

namespace Lexer

variable {lx : Lexer}

/-- The lexer `n` characters further back. -/
def back (lx : Lexer) (n : Nat) : Lexer :=
  ⟨lx.s, lx.pos - n⟩

theorem rest_suffix : lx.rest <:+ lx.s :=
  drop_suffix lx.pos lx.s

theorem rest_seek {rem : List Char} (h : rem <:+ lx.rest) : (lx.seek rem).rest = rem :=
  (suffix_iff_eq_drop.mp (h.trans rest_suffix)).symm

theorem back_seek (text rem : List Char) :
    (lx.seek rem).back text.length = lx.seek (text ++ rem) := by
  simp only [seek, back, length_append]
  congr 1
  omega

end Lexer

theorem nextTok_blank {lx : Lexer} (h : lx.rest.dropWhile isAsciiWhitespace = []) :
    nextTok lx = .ok (.eof, lx.seek []) := by
  simp only [nextTok, h]

theorem nextTok_scan {lx : Lexer} {c : Char} {cs : List Char}
    (h : lx.rest.dropWhile isAsciiWhitespace = c :: cs) {t : Tok} {rem : List Char}
    (hscan : scan c cs = .ok (t, rem)) : nextTok lx = .ok (t, lx.seek rem) := by
  simp only [nextTok, h, hscan]

/-- What it takes to return a token. -/
theorem nextTok_eq_ok {lx lx' : Lexer} {t : Tok} (h : nextTok lx = .ok (t, lx')) :
    (lx.rest.dropWhile isAsciiWhitespace = [] ∧ t = .eof ∧ lx' = lx.seek []) ∨
      ∃ c cs rem, lx.rest.dropWhile isAsciiWhitespace = c :: cs ∧ scan c cs = .ok (t, rem) ∧
        lx' = lx.seek rem := by
  cases hrest : lx.rest.dropWhile isAsciiWhitespace with
  | nil =>
    rw [nextTok_blank hrest] at h
    cases h
    exact Or.inl ⟨rfl, rfl, rfl⟩
  | cons c cs =>
    cases hscan : scan c cs with
    | error message =>
      simp only [nextTok, hrest, hscan] at h
      cases h
    | ok p =>
      rw [nextTok_scan hrest hscan] at h
      cases h
      exact Or.inr ⟨c, cs, p.2, rfl, hscan, rfl⟩

/-! ### Pushing back -/

section PushBack

variable {lx lx' : Lexer} {t : Tok}

variable {rem ds : List Char} {negative : Bool} {v : Int64}

theorem rest_back {c : Char} {cs : List Char}
    (h : lx.rest.dropWhile isAsciiWhitespace = c :: cs) (hscan : scan c cs = .ok (t, rem))
    (ht : t.isNumber = false) : ((lx.seek rem).back t.width).rest = c :: cs := by
  obtain ⟨text, htext, hwidth⟩ := scan_splits hscan ht
  rw [← hwidth, Lexer.back_seek, ← htext]
  apply Lexer.rest_seek
  rw [← h]
  exact dropWhile_suffix _

theorem number_start (negative : Bool) (hne : ds ≠ [])
    (h : ∀ c ∈ ds, c.isDigit = true) (rem : List Char) :
    ∃ c cs, signText negative ++ ds ++ rem = c :: cs ∧
      (c.isDigit || c == '-') = true ∧ isAsciiWhitespace c = false ∧ c ≠ '[' := by
  cases negative with
  | true => exact ⟨'-', ds ++ rem, rfl, rfl, rfl, by decide⟩
  | false =>
    obtain ⟨d, ds, rfl⟩ := exists_cons_of_ne_nil hne
    have hd := h d mem_cons_self
    have hrange := toNat_of_isDigit hd
    refine ⟨d, ds ++ rem, rfl, by simp [hd], ?_, ?_⟩
    · simp only [isAsciiWhitespace, contains_eq_mem, decide_eq_false_iff_not]
      simp only [mem_cons, not_mem_nil, or_false]
      omega
    · rintro rfl
      cases hd

theorem lexeme_int (h : ReadsInt negative ds rem v) : lexeme (signText negative ++ ds ++ rem) =
      some (.tok (.int v) (signText negative ++ ds), rem) := by
  obtain ⟨c, cs, hcs, hnumber, hblank, hbracket⟩ := number_start negative h.ne_nil h.digits rem
  have hscan : scan c cs = .ok (.int v, rem) := by
    rw [scan_number hnumber, ← hcs]
    exact scanNumber_of_readsInt h
  have hdrop : (c :: cs).dropWhile isAsciiWhitespace = c :: cs := by simp [hblank]
  have htake : (c :: cs).take ((c :: cs).length - rem.length) = signText negative ++ ds := by
    rw [← hcs, length_append, Nat.add_sub_cancel]
    exact take_left
  rw [hcs]
  simp only [lexeme, hdrop, hbracket, if_false, hscan, htake]

theorem digitsValue_le (h : ReadsInt negative ds rem v) :
    v.toInt = if negative then -(digitsValue ds : Int) else digitsValue ds := by
  have hvalue := h.value
  simp only [i64FromStr, List.isEmpty_iff, h.ne_nil, if_false] at hvalue
  cases negative with
  | true =>
    simp only [if_true] at hvalue ⊢
    split at hvalue
    · cases hvalue
    · cases hvalue
      exact toInt_ofInt_neg (by omega)
  | false =>
    simp only [Bool.false_eq_true, if_false] at hvalue ⊢
    split at hvalue
    · cases hvalue
    · cases hvalue
      exact toInt_ofInt_nat (by omega)

theorem ReadsInt.displayed (h : ReadsInt negative ds rem v) (hv : 0 ≤ v.toInt) :
    ReadsInt false (displayInt v) rem v := by
  have hdisplay : displayInt v = Nat.toDigits 10 v.toInt.natAbs := if_neg (by omega)
  rw [hdisplay]
  refine ⟨fun c => Nat.isDigit_of_mem_toDigits (by omega) (by omega), h.stops, h.whole, ?_⟩
  have hlt : v.toInt < 9223372036854775808 := Int64.toInt_lt v
  have hvalue : (v.toInt.natAbs : Int) = v.toInt := by omega
  simp only [i64FromStr, List.isEmpty_iff, Nat.toDigits_ne_nil, if_false, Bool.false_eq_true,
    digitsValue_toDigits, hvalue, Int64.ofInt_toInt]
  rw [if_neg (by omega)]

theorem back_int (h : ReadsInt negative ds rem v) :
    (∃ front, signText negative ++ ds = front ++ displayInt v ∧
      lexeme (displayInt v ++ rem) = some (.tok (.int v) (displayInt v), rem)) ∨
    (Lexeme.Padded (.tok (.int v) (signText negative ++ ds)) ∧
      ∃ front ds', signText negative ++ ds = front ++ ds' ∧ ds' ≠ [] ∧
        (∀ c ∈ ds', c.isDigit = true) ∧ ds'.length = (displayInt v).length) := by
  obtain ⟨k, hk⟩ := eq_zeros_append_toDigits h.ne_nil h.digits
  have hv := digitsValue_le h
  by_cases hneg : v.toInt < 0
  · obtain rfl : negative = true := by
      cases negative with
      | true => rfl
      | false =>
        simp only [Bool.false_eq_true, if_false] at hv
        omega
    have hdisplay : displayInt v = '-' :: Nat.toDigits 10 (digitsValue ds) := by
      have habs : v.toInt.natAbs = digitsValue ds := by
        simp only [if_true] at hv
        omega
      simp only [displayInt, hneg, if_true, habs]
    cases k with
    | zero =>
      have hds : signText true ++ ds = displayInt v := by
        rw [hdisplay]
        exact congrArg _ hk
      left
      refine ⟨[], hds, ?_⟩
      rw [← hds]
      exact lexeme_int h
    | succ k =>
      right
      have hlen := congrArg length hk
      rw [length_append, length_replicate] at hlen
      refine ⟨⟨v, _, rfl, hneg, ?_⟩, '-' :: replicate k '0',
        '0' :: Nat.toDigits 10 (digitsValue ds), ?_, cons_ne_nil _ _, ?_, ?_⟩
      · simp only [hdisplay, signText, if_true, length_append, length_cons,
          length_nil]
        omega
      · rw [cons_append, append_cons, ← replicate_succ', ← hk]
        rfl
      · intro c hc
        rcases mem_cons.mp hc with rfl | hc
        · rfl
        · exact Nat.isDigit_of_mem_toDigits (by omega) (by omega) hc
      · rw [hdisplay]
        rfl
  · left
    have hshow := lexeme_int (h.displayed (by omega))
    have hdisplay : displayInt v = Nat.toDigits 10 (digitsValue ds) := by
      have habs : v.toInt.natAbs = digitsValue ds := by
        cases negative <;> simp only [Bool.false_eq_true, if_false, if_true] at hv <;> omega
      simp only [displayInt, hneg, if_false, habs]
    refine ⟨signText negative ++ replicate k '0', ?_, hshow⟩
    rw [append_assoc, hdisplay, ← hk]

theorem nextTok_digits (hrest : lx.rest = ds ++ rem) (hne : ds ≠ [])
    (h : ∀ c ∈ ds, c.isDigit = true) (hstops : ∀ c, rem.head? = some c → c.isDigit = false)
    (hwhole : scanFraction rem = none) (hvalue : i64FromStr false ds = none) :
    ∃ e, nextTok lx = .error e := by
  obtain ⟨c, cs, hcs, hnumber, hblank, -⟩ := number_start false hne h rem
  have hcs' : ds ++ rem = c :: cs := hcs
  have hscan : scan c cs = .error "invalid integer" := by
    have hsplit := takeWhile_append_stop h hstops
    rw [scan_number hnumber, ← hcs', scanNumber_digits hne h]
    simp only [scanDigits, hsplit, hwhole, hvalue]
  refine ⟨.err ⟨"invalid integer"⟩, ?_⟩
  simp only [nextTok, hrest, hcs', dropWhile_cons, hblank, Bool.false_eq_true, if_false, hscan]

variable {ms rest : List Lexeme}

theorem tokens_back (h : Tokens lx.rest ms) (hn : nextTok lx = .ok (t, lx'))
    (ht : t.isNumber = false) : Tokens (lx'.back t.width).rest ms := by
  rcases nextTok_eq_ok hn with ⟨hblank, rfl, rfl⟩ | ⟨c, cs, rem, hdrop, hscan, rfl⟩
  · have hempty : ((lx.seek []).back Tok.eof.width).rest = [] :=
      Lexer.rest_seek (nil_suffix)
    rw [hempty, ← hblank, tokens_dropWhile]
    exact h
  · rw [rest_back hdrop hscan ht, ← hdrop, tokens_dropWhile]
    exact h

theorem tokens_back_int {text : List Char}
    (h : Tokens lx.rest (.tok (.int v) text :: rest)) (hn : nextTok lx = .ok (t, lx')) :
    Tokens (lx'.back t.width).rest (.tok (.int v) (displayInt v) :: rest) ∨
      Lexeme.Padded (.tok (.int v) text) ∧
        ((∃ e, nextTok (lx'.back t.width) = .error e) ∨
          ∃ v' text', Tokens (lx'.back t.width).rest (.tok (.int v') text' :: rest)) := by
  obtain ⟨rem, hlex, hrest⟩ := tokens_cons.mp h
  obtain ⟨c, cs, hdrop, hscan, -, htext⟩ := lexeme_eq_tok hlex
  rw [nextTok_scan hdrop hscan] at hn
  cases hn
  obtain ⟨negative, ds, hcs, hv⟩ := (scan_spec hscan).2.2 v rfl
  have htext' : text = signText negative ++ ds := by
    rw [htext, hcs, length_append, Nat.add_sub_cancel]
    exact take_left
  have hsuffix : ∀ front back, signText negative ++ ds = front ++ back →
      back.length = (displayInt v).length →
      ((lx.seek rem).back (Tok.int v).width) = lx.seek (back ++ rem) ∧
        (lx.seek (back ++ rem)).rest = back ++ rem := by
    intro front back hsplit hlen
    have hwidth : (Tok.int v).width = back.length := hlen.symm
    constructor
    · rw [hwidth, Lexer.back_seek]
    · apply Lexer.rest_seek
      have hmid : back ++ rem <:+ c :: cs := by
        rw [hcs, hsplit, append_assoc]
        exact suffix_append _ _
      exact hmid.trans (hdrop ▸ dropWhile_suffix _)
  rcases back_int hv with ⟨front, hfront, hshow⟩ | ⟨hpadded, front, ds', hfront, hne, hdigits, hlen⟩
  · obtain ⟨hback, hrest'⟩ := hsuffix front (displayInt v) hfront rfl
    left
    rw [hback, hrest', tokens_cons]
    exact ⟨rem, hshow, hrest⟩
  · obtain ⟨hback, hrest'⟩ := hsuffix front ds' hfront hlen
    right
    refine ⟨htext' ▸ hpadded, ?_⟩
    rw [hback]
    cases hvalue : i64FromStr false ds' with
    | none => exact Or.inl (nextTok_digits hrest' hne hdigits hv.stops hv.whole hvalue)
    | some v' =>
      right
      refine ⟨v', ds', ?_⟩
      rw [hrest', tokens_cons]
      exact ⟨rem, lexeme_int ⟨hdigits, hv.stops, hv.whole, hvalue⟩, hrest⟩

end PushBack

end Oikos.Archon.Relational
