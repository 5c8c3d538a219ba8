/-
Reading a token, pushing it back and reading again: the token comes back unless it
is a number that is not spelled the way its width is computed.
-/
import Oikos.Archon.Relational.Lexemes

namespace Oikos.Archon.Relational

open List

section Fractions

variable {negative : Bool} {ds frac rem : List Char}

theorem scanFraction_eq_some {cs : List Char} (h : scanFraction cs = some (frac, rem)) :
    cs = '.' :: (frac ++ rem) ∧ frac ≠ [] ∧ ∀ c ∈ frac, c.isDigit = true := by
  cases cs with
  | nil => cases h
  | cons c cs =>
    rw [scanFraction] at h
    by_cases hnone : (c ≠ '.' || (cs.takeWhile Char.isDigit).isEmpty ||
        (cs.dropWhile Char.isDigit).head?.any Char.isAlpha) = true
    · rw [if_pos hnone] at h
      cases h
    · rw [if_neg hnone] at h
      cases h
      simp only [Bool.or_eq_true, not_or, decide_eq_true_eq, not_not, List.isEmpty_iff] at hnone
      refine ⟨?_, hnone.1.2, fun c => mem_takeWhile_imp⟩
      rw [takeWhile_append_dropWhile, hnone.1.1]

theorem f32Unsigned_fraction (hds : ∀ c ∈ ds, c.isDigit = true)
    (hfrac : ∀ c ∈ frac, c.isDigit = true)
    (hne : frac ≠ []) : ∃ bits, f32Unsigned (ds ++ '.' :: frac) = some bits := by
  obtain ⟨hwhole, hafter⟩ := @takeWhile_append_stop Char.isDigit ds ('.' :: frac) hds
    (by rintro c ⟨⟩; rfl)
  have hall : frac.takeWhile Char.isDigit = frac ∧ frac.dropWhile Char.isDigit = [] := by
    rw [takeWhile_eq_self_iff, dropWhile_eq_nil_iff]
    exact ⟨hfrac, hfrac⟩
  have hempty : (ds.isEmpty && frac.isEmpty) = false := by
    rw [Bool.and_eq_false_iff, isEmpty_eq_false_iff, isEmpty_eq_false_iff]
    exact Or.inr hne
  simp only [f32Unsigned, hwhole, hafter, head?_cons, tail_cons,
    beq_self_eq_true, if_true,
    hall, hempty, Bool.false_eq_true, if_false, f32Exponent]
  exact ⟨_, rfl⟩

theorem f32FromStr_fraction (hds : ∀ c ∈ ds, c.isDigit = true)
    (hfrac : ∀ c ∈ frac, c.isDigit = true)
    (hne : frac ≠ []) : ∃ x, f32FromStr (signText negative ++ ds ++ '.' :: frac) = some x := by
  obtain ⟨bits, hbits⟩ := f32Unsigned_fraction hds hfrac hne
  cases negative with
  | true =>
    refine ⟨⟨UInt32.ofNat (bits + 2147483648)⟩, ?_⟩
    change (f32Unsigned (ds ++ '.' :: frac)).bind _ = _
    rw [hbits]
    rfl
  | false =>
    refine ⟨⟨UInt32.ofNat bits⟩, ?_⟩
    have hhead : ∀ d : Char, d.isDigit = false → d ≠ '.' → (ds ++ '.' :: frac).head? ≠ some d := by
      intro d hd hdot
      cases ds with
      | nil => exact fun h => hdot (Option.some.inj h).symm
      | cons e ds =>
        intro h
        rw [← Option.some.inj h, hds e mem_cons_self] at hd
        cases hd
    have hminus := hhead '-' rfl (by decide)
    have hplus := hhead '+' rfl (by decide)
    change f32FromStr (ds ++ '.' :: frac) = _
    simp only [f32FromStr, beq_iff_eq, hplus, Bool.or_eq_true, or_self, if_false, hbits,
      beq_eq_false_iff_ne.mpr hminus, Bool.false_eq_true]
    rfl

theorem scanDigits_fraction {after : List Char} (hds : ∀ c ∈ ds, c.isDigit = true)
    (h : scanFraction after = some (frac, rem)) :
    ∃ x, scanDigits negative (ds ++ after) = .ok (.float x, rem) := by
  obtain ⟨rfl, hne, hfrac⟩ := scanFraction_eq_some h
  obtain ⟨x, hx⟩ := @f32FromStr_fraction negative ds frac hds hfrac hne
  obtain ⟨hwhole, hafter⟩ := @takeWhile_append_stop Char.isDigit ds ('.' :: (frac ++ rem)) hds
    (by rintro c ⟨⟩; rfl)
  refine ⟨x, ?_⟩
  simp only [scanDigits, hwhole, hafter, h, hx]

end Fractions

section Again

variable {lx lx' : Lexer} {t : Tok} {negative : Bool} {ds rem : List Char}

/-- What comes next starts with these characters of a number. -/
structure Starts (lx : Lexer) (negative : Bool) (ds rem : List Char) : Prop where
  text : lx.rest.dropWhile isAsciiWhitespace = signText negative ++ ds ++ rem
  number : negative = true ∨ ds ≠ []
  digits : ∀ c ∈ ds, c.isDigit = true
  stops : ∀ c, rem.head? = some c → c.isDigit = false

/-- The number has no fraction, and its digits are none that are shown with a sign
and without the zeros in front. -/
def Displayed (negative : Bool) (ds rem : List Char) : Prop :=
  scanFraction rem = none ∧ ¬(negative = true ∧ ds.head? = some '0' ∧ 0 < digitsValue ds ∧
    digitsValue ds ≤ 9223372036854775808)

def Returns (lx : Lexer) : Prop :=
  ∀ t lx', nextTok lx = .ok (t, lx') → (pushBack t >>= fun _ => nextTok) lx' = .ok (t, lx')

theorem pushBack_nextTok (t : Tok) (lx : Lexer) :
    (pushBack t >>= fun _ => nextTok) lx = nextTok (lx.back t.width) := rfl

theorem Starts.exists_cons (h : Starts lx negative ds rem) : ∃ c cs,
    lx.rest.dropWhile isAsciiWhitespace = c :: cs ∧
    scan c cs = scanDigits negative (ds ++ rem) := by
  cases negative with
  | true =>
    refine ⟨'-', ds ++ rem, ?_, ?_⟩
    · rw [h.text, append_assoc]
      rfl
    · exact scan_number rfl (ds ++ rem)
  | false =>
    have hne : ds ≠ [] := h.number.resolve_left Bool.false_ne_true
    obtain ⟨d, ds', hds⟩ := exists_cons_of_ne_nil hne
    have hd := h.digits d (by rw [hds]; exact mem_cons_self)
    refine ⟨d, ds' ++ rem, ?_, ?_⟩
    · rw [h.text, hds]
      rfl
    · rw [scan_number (by rw [hd]; rfl), ← scanNumber_digits hne h.digits, hds]
      rfl

theorem Starts.suffix (h : Starts lx negative ds rem) : rem <:+ lx.rest := by
  have hdrop : signText negative ++ ds ++ rem <:+ lx.rest := h.text ▸ dropWhile_suffix _
  exact (suffix_append _ rem).trans hdrop

theorem Starts.nextTok (h : Starts lx negative ds rem) {rem' : List Char}
    (hscan : scanDigits negative (ds ++ rem) = .ok (t, rem')) :
    nextTok lx = .ok (t, lx.seek rem') := by
  obtain ⟨c, cs, hdrop, hdigits⟩ := h.exists_cons
  exact nextTok_scan hdrop (hdigits.trans hscan)

variable {cs : List Char} {x : F32} {c : Char}

theorem scanDigits_float (h : scanDigits negative cs = .ok (.float x, rem)) :
    ∃ frac, scanFraction (cs.dropWhile Char.isDigit) = some (frac, rem) := by
  cases hfrac : scanFraction (cs.dropWhile Char.isDigit) with
  | none =>
    simp only [scanDigits, hfrac] at h
    split at h <;> cases h
  | some p =>
    simp only [scanDigits, hfrac] at h
    split at h
    · cases h
      exact ⟨_, rfl⟩
    · cases h

theorem scan_float (h : scan c cs = .ok (.float x, rem)) :
    (c.isDigit || c == '-') = true ∧ scanNumber (c :: cs) = .ok (.float x, rem) := by
  have hnumber : (c.isDigit || c == '-') = true := by
    unfold scan at h
    split at h
    · rename_i hsymbol
      cases h
      exact absurd (symbol_spec hsymbol).2.2 Bool.noConfusion
    · repeat' split at h
      all_goals first | assumption | cases h
  exact ⟨hnumber, (scan_number hnumber cs).symm.trans h⟩

theorem starts_of_float
    (hdrop : lx.rest.dropWhile isAsciiWhitespace = c :: cs) (h : scan c cs = .ok (.float x, rem)) :
    ∃ negative ds after frac, Starts lx negative ds after ∧
      scanFraction after = some (frac, rem) := by
  obtain ⟨hnumber, hscan⟩ := scan_float h
  have hdigits : ∀ cs' : List Char, ∀ d ∈ cs'.takeWhile Char.isDigit, d.isDigit = true :=
    fun _ _ => mem_takeWhile_imp
  rw [scanNumber] at hscan
  by_cases hc : c = '-'
  · subst hc
    rw [if_pos (show ('-' :: cs).head? = some '-' from rfl), tail_cons] at hscan
    obtain ⟨frac, hfrac⟩ := scanDigits_float hscan
    refine ⟨true, cs.takeWhile Char.isDigit, cs.dropWhile Char.isDigit, frac,
      ⟨?_, Or.inl rfl, hdigits cs, fun _ => head?_dropWhile⟩, hfrac⟩
    rw [hdrop, append_assoc, takeWhile_append_dropWhile]
    rfl
  · have hhead : (c :: cs).head? ≠ some '-' := fun h => hc (Option.some.inj h)
    rw [if_neg hhead] at hscan
    obtain ⟨frac, hfrac⟩ := scanDigits_float hscan
    have hdigit : c.isDigit = true := by simpa [hc] using hnumber
    refine ⟨false, (c :: cs).takeWhile Char.isDigit, (c :: cs).dropWhile Char.isDigit, frac,
      ⟨?_, Or.inr ?_, hdigits (c :: cs), fun _ => head?_dropWhile⟩, hfrac⟩
    · exact hdrop.trans takeWhile_append_dropWhile.symm
    · rw [takeWhile_cons_of_pos hdigit]
      exact cons_ne_nil _ _

/-- What is read has at least one character. -/
theorem length_scan
    (hdrop : lx.rest.dropWhile isAsciiWhitespace = c :: cs) (h : scan c cs = .ok (t, rem)) :
    rem.length < lx.rest.length := by
  have hle := (dropWhile_sublist isAsciiWhitespace (l := lx.rest)).length_le
  have hc : isAsciiWhitespace c = false := head?_dropWhile (by rw [hdrop]; rfl)
  rw [hdrop] at hle
  by_cases hfloat : ∃ x, t = .float x
  · obtain ⟨x, rfl⟩ := hfloat
    obtain ⟨negative, ds, after, frac, hstarts, hfrac⟩ := starts_of_float hdrop h
    have hafter := hstarts.suffix.length_le
    rw [(scanFraction_eq_some hfrac).1, length_cons, length_append] at hafter
    omega
  · push Not at hfloat
    obtain ⟨front, d, hcs, _⟩ := scan_last h hc hfloat
    rw [hcs, length_append, length_cons] at hle
    omega

/-- No token but the last is read where it ends. -/
theorem nextTok_moves (h : nextTok lx = .ok (t, lx')) (ht : t ≠ .eof) : lx' ≠ lx := by
  rintro rfl
  rcases nextTok_eq_ok h with ⟨_, heof, _⟩ | ⟨c, cs, rem, hdrop, hscan, heq⟩
  · exact ht heof
  · have hlt := length_scan hdrop hscan
    have hpos : lx'.pos = lx'.s.length - rem.length := congrArg Lexer.pos heq
    have hlen : lx'.rest.length = lx'.s.length - lx'.pos := length_drop
    omega

end Again

section Padding

variable {lx lx' : Lexer} {t : Tok} {ds rem : List Char} {v : Int64}

/-- A positive number is displayed without a zero in front. -/
theorem head?_toDigits {n : Nat} (hn : 0 < n) : (Nat.toDigits 10 n).head? ≠ some '0' := by
  intro h
  obtain ⟨ds, hds⟩ := head?_eq_some_iff.mp h
  have hvalue : digitsValue ds = n := by
    rw [← digitsValue_toDigits n, hds, digitsValue, digitsValue, Nat.ofDigitChars_cons]
    rfl
  have hdigits : ∀ c ∈ ds, c.isDigit = true := by
    intro c hc
    have hmem : c ∈ Nat.toDigits 10 n := hds ▸ mem_cons_of_mem '0' hc
    exact Nat.isDigit_of_mem_toDigits (by omega) (by omega) hmem
  by_cases hne : ds = []
  · rw [hne] at hvalue
    exact absurd hvalue hn.ne
  · obtain ⟨k, hk⟩ := eq_zeros_append_toDigits hne hdigits
    have hlen := congrArg length hk
    rw [hvalue, hds, length_append, length_cons] at hlen
    omega

theorem padded_iff (h : ReadsInt true ds rem v) :
    Lexeme.Padded (.tok (.int v) (signText true ++ ds)) ↔
      ds.head? = some '0' ∧ 0 < digitsValue ds := by
  have hv : v.toInt = -(digitsValue ds : Int) := digitsValue_le h
  obtain ⟨k, hk⟩ := eq_zeros_append_toDigits h.ne_nil h.digits
  have hdisplay : 0 < digitsValue ds →
      (displayInt v).length = (Nat.toDigits 10 (digitsValue ds)).length + 1 := by
    intro hpos
    rw [displayInt, if_pos (by omega), length_cons, hv, Int.natAbs_neg, Int.natAbs_natCast]
  have hlen := congrArg length hk
  rw [length_append, length_replicate] at hlen
  constructor
  · rintro ⟨_, _, ⟨⟩, hneg, hpadded⟩
    have hpos : 0 < digitsValue ds := by omega
    refine ⟨?_, hpos⟩
    cases k with
    | zero =>
      rw [hdisplay hpos, length_append] at hpadded
      exact absurd (by simp [signText]; omega) hpadded
    | succ k =>
      rw [hk]
      rfl
  · rintro ⟨hhead, hpos⟩
    refine ⟨v, _, rfl, by omega, ?_⟩
    rw [hdisplay hpos, length_append]
    cases k with
    | zero =>
      rw [hk] at hhead
      exact absurd hhead (head?_toDigits hpos)
    | succ k =>
      simp only [signText, if_true, length_singleton]
      omega

end Padding

section Returning

variable {lx lx' : Lexer} {t : Tok} {negative : Bool} {ds rem : List Char} {v : Int64}

theorem starts_of_int {c : Char} {cs : List Char}
    (hdrop : lx.rest.dropWhile isAsciiWhitespace = c :: cs)
    (hcs : c :: cs = signText negative ++ ds ++ rem) (h : ReadsInt negative ds rem v) :
    Starts lx negative ds rem :=
  ⟨hdrop.trans hcs, Or.inr h.ne_nil, h.digits, h.stops⟩

theorem Starts.back (h : Starts lx negative ds rem) {front back : List Char}
    (hsplit : signText negative ++ ds = front ++ back) (hlen : back.length = t.width) :
    ((lx.seek rem).back t.width) = lx.seek (back ++ rem) ∧
      (lx.seek (back ++ rem)).rest = back ++ rem := by
  have hsuffix : back ++ rem <:+ lx.rest := by
    have hdrop : signText negative ++ ds ++ rem <:+ lx.rest := h.text ▸ dropWhile_suffix _
    rw [hsplit, append_assoc] at hdrop
    exact (suffix_append _ _).trans hdrop
  exact ⟨by rw [← hlen, Lexer.back_seek], Lexer.rest_seek hsuffix⟩

theorem Starts.ofDigits {ds' : List Char} (hrest : lx.rest = ds' ++ rem) (hne : ds' ≠ [])
    (hdigits : ∀ c ∈ ds', c.isDigit = true) (hstops : ∀ c, rem.head? = some c → c.isDigit = false) :
    Starts lx false ds' rem := by
  obtain ⟨c, cs, hcs, -, hblank, -⟩ := number_start false hne hdigits rem
  refine ⟨?_, Or.inr hne, hdigits, hstops⟩
  rw [hrest]
  change (ds' ++ rem).dropWhile isAsciiWhitespace = ds' ++ rem
  have hcs' : ds' ++ rem = c :: cs := hcs
  rw [hcs', dropWhile_cons_of_neg (by simp [hblank])]

theorem Returns.scanFraction (h : Returns lx) (hstarts : Starts lx negative ds rem) :
    scanFraction rem = none := by
  cases hfrac : Relational.scanFraction rem with
  | none => rfl
  | some p =>
    obtain ⟨frac, rem'⟩ := p
    obtain ⟨x, hx⟩ := @scanDigits_fraction negative ds frac rem' rem hstarts.digits hfrac
    have hagain := h _ _ (hstarts.nextTok hx)
    exact absurd rfl (nextTok_moves hagain (by simp))

theorem Returns.not_padded (h : Returns lx) (hstarts : Starts lx negative ds rem)
    (hwhole : Relational.scanFraction rem = none) :
    ¬(negative = true ∧ ds.head? = some '0' ∧ 0 < digitsValue ds ∧
      digitsValue ds ≤ 9223372036854775808) := by
  rintro ⟨rfl, hhead, hpos, hle⟩
  have hne : ds ≠ [] := by
    rintro rfl
    cases hhead
  have hread : ReadsInt true ds rem (Int64.ofInt (-(digitsValue ds : Int))) := by
    refine ⟨hstarts.digits, hstarts.stops, hwhole, ?_⟩
    simp only [i64FromStr, List.isEmpty_iff, hne, if_false, if_true]
    rw [if_neg (by omega)]
  generalize Int64.ofInt (-(digitsValue ds : Int)) = v at hread
  have hv : v.toInt = -(digitsValue ds : Int) := digitsValue_le hread
  have hagain := h _ _ (hstarts.nextTok (scanDigits_of_readsInt hread))
  rcases back_int hread with ⟨front, hfront, -⟩ | ⟨-, front, ds', hfront, hne', hdigits, hlen⟩
  · -- the text is longer than the display, so that the sign of the display is among the digits
    obtain ⟨_, _, ⟨⟩, hneg, hlen⟩ := (padded_iff hread).mpr ⟨hhead, hpos⟩
    have hdisplay : displayInt v = '-' :: Nat.toDigits 10 v.toInt.natAbs := if_pos hneg
    cases front with
    | nil => exact hlen (congrArg length hfront)
    | cons c front =>
      have hds : ds = front ++ displayInt v := (cons.inj hfront).2
      have hsign := hread.digits '-' (by rw [hds, hdisplay]; simp)
      cases hsign
  · obtain ⟨hback, hrest⟩ := hstarts.back (t := .int v) hfront hlen
    rw [pushBack_nextTok, hback] at hagain
    cases hvalue : i64FromStr false ds' with
    | none =>
      obtain ⟨e, he⟩ := nextTok_digits hrest hne' hdigits hstarts.stops hwhole hvalue
      rw [he] at hagain
      cases hagain
    | some v' =>
      have hread' : ReadsInt false ds' rem v' := ⟨hdigits, hstarts.stops, hwhole, hvalue⟩
      have hnext := (Starts.ofDigits hrest hne' hdigits hstarts.stops).nextTok
        (scanDigits_of_readsInt hread')
      rw [hnext] at hagain
      have hsame : v' = v := Tok.int.inj (congrArg Prod.fst (Except.ok.inj hagain))
      have hv' : v'.toInt = (digitsValue ds' : Int) := digitsValue_le hread'
      rw [hsame] at hv'
      omega

theorem returns_of_isNumber {c : Char} {cs : List Char}
    (hdrop : lx.rest.dropWhile isAsciiWhitespace = c :: cs) (hscan : scan c cs = .ok (t, rem))
    (ht : t.isNumber = false) : nextTok ((lx.seek rem).back t.width) = .ok (t, lx.seek rem) := by
  have hc : isAsciiWhitespace c = false := head?_dropWhile (by rw [hdrop]; rfl)
  have hrest := rest_back hdrop hscan ht
  refine nextTok_scan ?_ hscan
  rw [hrest, dropWhile_cons_of_neg (by simp [hc])]

theorem returns_of_readsInt (hstarts : Starts lx negative ds rem) (h : ReadsInt negative ds rem v)
    (hdisplayed : Displayed negative ds rem) :
    nextTok ((lx.seek rem).back (Tok.int v).width) = .ok (.int v, lx.seek rem) := by
  rcases back_int h with ⟨front, hfront, hlex⟩ | ⟨hpadded, -⟩
  · obtain ⟨hback, hrest⟩ := hstarts.back (t := .int v) hfront rfl
    obtain ⟨c, cs, hdrop, hscan, -⟩ := lexeme_eq_tok hlex
    rw [hback]
    exact nextTok_scan (by rw [hrest, hdrop]) hscan
  · exfalso
    have hv := digitsValue_le h
    have hneg : v.toInt < 0 := by
      obtain ⟨_, _, ⟨⟩, hneg, -⟩ := hpadded
      exact hneg
    cases negative with
    | false =>
      simp only [Bool.false_eq_true, if_false] at hv
      omega
    | true =>
      obtain ⟨hhead, hpos⟩ := (padded_iff h).mp hpadded
      have hge := Int64.le_toInt v
      simp only [if_true] at hv
      refine hdisplayed.2 ⟨rfl, hhead, hpos, ?_⟩
      omega

/-- Reading a token and pushing it back leads to the same token again exactly where
no number that is spelled in another way comes next. -/
theorem returns_iff (lx : Lexer) :
    Returns lx ↔ ∀ negative ds rem, Starts lx negative ds rem → Displayed negative ds rem := by
  constructor
  · intro h negative ds rem hstarts
    have hwhole := h.scanFraction hstarts
    exact ⟨hwhole, h.not_padded hstarts hwhole⟩
  · intro h t lx' hnext
    rw [pushBack_nextTok]
    rcases nextTok_eq_ok hnext with ⟨_, rfl, rfl⟩ | ⟨c, cs, rem, hdrop, hscan, rfl⟩
    · have hempty : ((lx.seek []).back Tok.eof.width).rest = [] := Lexer.rest_seek nil_suffix
      exact nextTok_blank (by rw [hempty, dropWhile_nil])
    · cases hnumber : t.isNumber with
      | false => exact returns_of_isNumber hdrop hscan hnumber
      | true =>
        cases t with
        | int v =>
          obtain ⟨negative, ds, hcs, hread⟩ := (scan_spec hscan).2.2 v rfl
          have hstarts := starts_of_int hdrop hcs hread
          exact returns_of_readsInt hstarts hread (h negative ds rem hstarts)
        | float x =>
          obtain ⟨negative, ds, after, frac, hstarts, hfrac⟩ := starts_of_float hdrop hscan
          rw [(h negative ds after hstarts).1] at hfrac
          cases hfrac
        | _ => cases hnumber

/-- A float is lost, and `-01` comes back as `1`. -/
theorem float_not_returned : ¬Returns (Lexer.new "1.5") ∧ ¬Returns (Lexer.new "-01") := by
  refine ⟨fun h => ?_, fun h => ?_⟩
  · have hfloat := h (.float ⟨1069547520⟩) ⟨"1.5".toList, 3⟩ (by decide +kernel)
    exact absurd hfloat (by decide)
  · exact absurd (h (.int (-1)) ⟨"-01".toList, 3⟩ (by decide)) (by decide)

end Returning

end Oikos.Archon.Relational
