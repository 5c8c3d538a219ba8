/-
The variables that stand for places: no two places share one, but for the elements of
the fields of one base, and none of them stands for a place after the run as well.
-/
import Oikos.Lib.Decimal
import Oikos.Telos.Meaning

namespace Oikos.Telos

open List

section Texts

variable {A : Type} {sep : A} {l l' r r' : List A}

/-- What stands before the first separator is determined, and what stands after it. -/
theorem append_cons_inj (hl : sep ∉ l) (hl' : sep ∉ l') (h : l ++ sep :: r = l' ++ sep :: r') :
    l = l' ∧ r = r' := by
  induction l generalizing l' with
  | nil =>
    cases l' with
    | nil => exact ⟨rfl, tail_eq_of_cons_eq h⟩
    | cons a l' =>
      rw [nil_append, cons_append] at h
      exact absurd (head_eq_of_cons_eq h ▸ mem_cons_self) hl'
  | cons a l ih =>
    cases l' with
    | nil =>
      rw [nil_append, cons_append] at h
      exact absurd (head_eq_of_cons_eq h ▸ mem_cons_self) hl
    | cons a' l' =>
      rw [cons_append, cons_append] at h
      obtain ⟨rfl, rfl⟩ := ih (fun hmem => hl (mem_cons_of_mem _ hmem))
        (fun hmem => hl' (mem_cons_of_mem _ hmem)) (tail_eq_of_cons_eq h)
      exact ⟨by rw [head_eq_of_cons_eq h], rfl⟩

theorem toList_toString_natCast (n : Nat) : (toString (n : Int)).toList = Nat.toDigits 10 n :=
  Nat.toList_repr

theorem toList_toString_negSucc (n : Nat) :
    (toString (Int.negSucc n)).toList = '-' :: Nat.toDigits 10 (n + 1) := by
  change ("-" ++ Nat.repr (n + 1)).toList = _
  rw [String.toList_append, Nat.toList_repr]
  rfl

theorem toDigits_injective {m n : Nat} (h : Nat.toDigits 10 m = Nat.toDigits 10 n) : m = n := by
  have hparse := parseDigits_toDigits m
  rw [h, parseDigits_toDigits] at hparse
  exact (Option.some.inj hparse).symm

theorem toString_int_injective {i j : Int} (h : toString i = toString j) : i = j := by
  have htext := congrArg String.toList h
  cases i with
  | ofNat m =>
    cases j with
    | ofNat n =>
      rw [Int.ofNat_eq_natCast, Int.ofNat_eq_natCast, toList_toString_natCast,
        toList_toString_natCast] at htext
      rw [toDigits_injective htext]
    | negSucc n =>
      rw [Int.ofNat_eq_natCast, toList_toString_natCast, toList_toString_negSucc] at htext
      have hhead := head_toDigits_ne m (c := '-') (by decide)
      rw [htext] at hhead
      exact absurd rfl hhead
  | negSucc m =>
    cases j with
    | ofNat n =>
      rw [Int.ofNat_eq_natCast, toList_toString_natCast, toList_toString_negSucc] at htext
      have hhead := head_toDigits_ne n (c := '-') (by decide)
      rw [← htext] at hhead
      exact absurd rfl hhead
    | negSucc n =>
      rw [toList_toString_negSucc, toList_toString_negSucc] at htext
      have hdigits := toDigits_injective (tail_eq_of_cons_eq htext)
      rw [Nat.succ.inj hdigits]

theorem isNameStart_of_isDigit {c : Char} (h : c.isDigit = true) : isNameStart c = false := by
  simp only [Char.isDigit, Bool.and_eq_true, decide_eq_true_eq, UInt32.le_iff_toNat_le,
    ge_iff_le] at h
  have hnine : '9'.val.toNat = 57 := rfl
  have halpha : c.isAlpha = false := by
    delta Char.isAlpha Char.isUpper Char.isLower
    simp only [UInt32.le_iff_toNat_le, ge_iff_le,
      Bool.or_eq_false_iff, Bool.and_eq_false_imp, decide_eq_true_eq, decide_eq_false_iff_not]
    have hA : 'A'.val.toNat = 65 := rfl
    have ha : 'a'.val.toNat = 97 := rfl
    constructor <;> intro hle <;> omega
  have hunderscore : (c == '_') = false := by
    rw [beq_eq_false_iff_ne]
    rintro rfl
    exact absurd h.2 (by decide)
  rw [isNameStart, halpha, hunderscore, Bool.or_false]

theorem mem_toString_int {i : Int} {c : Char} (h : c ∈ (toString i).toList) :
    c.isDigit = true ∨ c = '-' := by
  cases i with
  | ofNat n =>
    rw [Int.ofNat_eq_natCast, toList_toString_natCast] at h
    exact Or.inl (Nat.isDigit_of_mem_toDigits (by decide) (by decide) h)
  | negSucc n =>
    rw [toList_toString_negSucc] at h
    rcases mem_cons.mp h with h | h
    · exact Or.inr h
    · exact Or.inl (Nat.isDigit_of_mem_toDigits (by decide) (by decide) h)

end Texts

namespace Name

variable {v w : Name} {c : Char}

theorem isNameChar_of_mem (h : c ∈ v.text.toList) : isNameChar c = true := by
  have hwf := v.wf
  unfold isName at hwf
  split at hwf
  · next hnil =>
    rw [hnil] at h
    cases h
  · next c' cs hcons =>
    obtain ⟨hstart, hall⟩ := Bool.and_eq_true_iff.mp hwf
    rw [hcons] at h
    rcases mem_cons.mp h with rfl | h
    · unfold isNameStart at hstart
      unfold isNameChar Char.isAlphanum
      simp only [Bool.or_eq_true] at hstart ⊢
      tauto
    · exact all_eq_true.mp hall c h

theorem not_mem_text (h : isNameChar c = false) : c ∉ v.text.toList := by
  intro hmem
  rw [isNameChar_of_mem hmem] at h
  cases h

/-- A number is not a name. -/
theorem text_ne_toString (i : Int) : v.text ≠ toString i := by
  intro h
  have hwf := v.wf
  unfold isName at hwf
  split at hwf
  · cases hwf
  · next c cs hcons =>
    have hstart := (Bool.and_eq_true_iff.mp hwf).1
    have hmem : c ∈ (toString i).toList := by
      rw [← h, hcons]
      exact mem_cons_self
    rcases mem_toString_int hmem with hdigit | rfl
    · rw [isNameStart_of_isDigit hdigit] at hstart
      cases hstart
    · exact absurd hstart (by decide)

theorem ext_text (h : v.text = w.text) : v = w := by
  cases v
  cases w
  congr

end Name

namespace Place

/-- A place up to what its name tells of it: not of which field it is an element. -/
def plain : Place → Place
  | fieldElem b _ i => varElem b i
  | p => p

theorem name_plain (p : Place) : p.plain.name preField = p.name preField := by
  cases p with
  | fieldElem b f i =>
    simp only [plain, name, preField]
  | _ => rfl

end Place

theorem toList_preField (b f : String) : (preField b f).toList = b.toList ++ '.' :: f.toList := by
  rw [preField, String.toList_append, String.toList_append, append_assoc]
  rfl

theorem preField_eq {b b' : Name} {f f' : String}
    (h : preField b.text f = preField b'.text f') : b = b' ∧ f = f' := by
  have htext := congrArg String.toList h
  rw [toList_preField, toList_preField] at htext
  obtain ⟨hb, hf⟩ := append_cons_inj (Name.not_mem_text (by decide)) (Name.not_mem_text (by decide))
    htext
  exact ⟨Name.ext_text (String.toList_inj.mp hb), String.toList_inj.mp hf⟩

theorem postField_eq {b b' f f' : Name}
    (h : postField b.text f.text = postField b'.text f'.text) : b = b' ∧ f = f' := by
  have htext := congrArg String.toList h
  unfold postField at htext
  rw [String.toList_append, String.toList_append (s := b'.text ++ "." ++ f'.text)] at htext
  have hpre := preField_eq (String.toList_inj.mp (append_cancel_right htext))
  exact ⟨hpre.1, Name.ext_text hpre.2⟩

theorem Place.plain_eq {p q : Place} (h : p.name preField = q.name preField) :
    p.plain = q.plain := by
  have hdot : ∀ {b : Name} {f : String} {v : Name}, preField b.text f ≠ v.text := by
    intro b f v h
    have hmem : '.' ∈ (preField b.text f).toList := by
      rw [toList_preField]
      simp
    rw [h] at hmem
    exact Name.not_mem_text (by decide) hmem
  rw [← name_plain p, ← name_plain q] at h
  generalize hp : p.plain = p' at h ⊢
  generalize hq : q.plain = q' at h ⊢
  cases p' with
  | var v =>
    cases q' with
    | var w => rw [Name.ext_text h]
    | field b f => exact absurd h.symm hdot
    | varElem w i => exact absurd h.symm hdot
    | fieldElem b f i => cases q <;> cases hq
  | field b f =>
    cases q' with
    | var w => exact absurd h hdot
    | field b' f' =>
      obtain ⟨rfl, hf⟩ := preField_eq h
      rw [Name.ext_text hf]
    | varElem w i => exact absurd (preField_eq h).2 (Name.text_ne_toString i)
    | fieldElem b f i => cases q <;> cases hq
  | varElem v i =>
    cases q' with
    | var w => exact absurd h hdot
    | field b f => exact absurd (preField_eq h).2.symm (Name.text_ne_toString i)
    | varElem w j =>
      obtain ⟨rfl, hi⟩ := preField_eq h
      rw [toString_int_injective hi]
    | fieldElem b f i => cases q <;> cases hq
  | fieldElem b f i => cases p <;> cases hp

theorem Place.quote_not_mem (p : Place) : '\'' ∉ (p.name preField).toList := by
  have hquote : ∀ {s : Name}, '\'' ∉ s.text.toList := Name.not_mem_text (by decide)
  have hnumber : ∀ i : Int, '\'' ∉ (toString i).toList := fun i hmem => by
    rcases mem_toString_int hmem with h | h
    · exact absurd h (by decide)
    · exact absurd h (by decide)
  intro hmem
  cases p with
  | var v => exact hquote hmem
  | field b f =>
    rw [Place.name, toList_preField] at hmem
    simp [hquote] at hmem
  | varElem v i =>
    change '\'' ∈ (preField v.text (toString i)).toList at hmem
    rw [toList_preField, mem_append, mem_cons] at hmem
    rcases hmem with hmem | hmem | hmem
    · exact hquote hmem
    · exact absurd hmem (by decide)
    · exact hnumber i hmem
  | fieldElem b f i =>
    rw [Place.name, toList_preField, mem_append, mem_cons] at hmem
    rcases hmem with hmem | hmem | hmem
    · exact hquote hmem
    · exact absurd hmem (by decide)
    · exact hnumber i hmem

theorem quote_mem_postField (b f : String) : '\'' ∈ (postField b f).toList := by
  rw [postField, String.toList_append]
  simp

theorem postField_ne {b f : Name} {p : Place} : postField b.text f.text ≠ p.name preField :=
  fun h => p.quote_not_mem (h ▸ quote_mem_postField b.text f.text)

/-- Names that agree wherever they are equal can be given their values at once. -/
theorem exists_assignment {ι : Type} (name : ι → String) (val : ι → Int)
    (h : ∀ i j, name i = name j → val i = val j) : ∃ σ : String → Int, ∀ i, σ (name i) = val i := by
  classical
  refine ⟨fun x => if hx : ∃ i, name i = x then val hx.choose else 0, fun i => ?_⟩
  have hx : ∃ j, name j = name i := ⟨i, rfl⟩
  dsimp only
  rw [dif_pos hx]
  exact h _ _ hx.choose_spec

end Oikos.Telos
