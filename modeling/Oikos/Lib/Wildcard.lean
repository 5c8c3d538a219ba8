/-
Patterns of literals and wildcards.  What a pattern matches is told by the
wildcards between two literals alone; this is used to compare the matching of
characters with the matching of their codes.
-/
import Mathlib.Algebra.BigOperators.Group.List.Basic
import Mathlib.Algebra.GroupWithZero.Nat
import Mathlib.Data.List.Count

namespace Oikos

open List

universe u v

variable {A : Type u} {B : Type v}

/-- An element of a pattern: `any` matches every sequence, `one` every element,
and a literal itself. -/
inductive Wild (A : Type u) where
  | any
  | one
  | lit (a : A)

def Wild.Fits : Wild A → List A → Prop
  | .any, _ => True
  | .one, seg => seg.length = 1
  | .lit a, seg => seg = [a]

/-- The text consists of consecutive segments for the elements of the pattern. -/
def Splits (pat : List (Wild A)) (text : List A) : Prop :=
  ∃ segs : List (List A), List.Forall₂ Wild.Fits pat segs ∧ segs.flatten = text

section Splits

variable {pat : List (Wild A)} {text word : List A} {a : A}

theorem splits_nil : Splits ([] : List (Wild A)) text ↔ text = [] := by
  constructor
  · rintro ⟨segs, hsegs, rfl⟩
    cases hsegs
    rfl
  · rintro rfl
    exact ⟨[], .nil, rfl⟩

theorem splits_cons {w : Wild A} :
    Splits (w :: pat) text ↔ ∃ seg more, text = seg ++ more ∧ w.Fits seg ∧ Splits pat more := by
  constructor
  · rintro ⟨segs, hsegs, rfl⟩
    cases hsegs with
    | cons hw hrest => exact ⟨_, _, flatten_cons, hw, _, hrest, rfl⟩
  · rintro ⟨seg, more, rfl, hw, segs, hrest, rfl⟩
    exact ⟨seg :: segs, .cons hw hrest, flatten_cons⟩

theorem splits_any :
    Splits (.any :: pat) text ↔ ∃ seg more, text = seg ++ more ∧ Splits pat more := by
  rw [splits_cons]
  constructor
  · rintro ⟨seg, more, htext, _, hmore⟩
    exact ⟨seg, more, htext, hmore⟩
  · rintro ⟨seg, more, htext, hmore⟩
    exact ⟨seg, more, htext, trivial, hmore⟩

theorem splits_one :
    Splits (.one :: pat) text ↔ ∃ a more, text = a :: more ∧ Splits pat more := by
  rw [splits_cons]
  constructor
  · rintro ⟨seg, more, rfl, hseg, hmore⟩
    obtain ⟨a, rfl⟩ := length_eq_one_iff.mp hseg
    exact ⟨a, more, rfl, hmore⟩
  · rintro ⟨a, more, rfl, hmore⟩
    exact ⟨[a], more, rfl, rfl, hmore⟩

theorem splits_lit :
    Splits (.lit a :: pat) text ↔ ∃ more, text = a :: more ∧ Splits pat more := by
  rw [splits_cons]
  constructor
  · rintro ⟨seg, more, rfl, rfl, hmore⟩
    exact ⟨more, rfl, hmore⟩
  · rintro ⟨more, rfl, hmore⟩
    exact ⟨[a], more, rfl, rfl, hmore⟩

theorem splits_word :
    Splits (word.map .lit ++ pat) text ↔ ∃ more, text = word ++ more ∧ Splits pat more := by
  induction word generalizing text with
  | nil => simp
  | cons a word ih =>
    rw [map_cons, cons_append, splits_lit]
    constructor
    · rintro ⟨rest, rfl, hrest⟩
      obtain ⟨more, rfl, hmore⟩ := ih.mp hrest
      exact ⟨more, rfl, hmore⟩
    · rintro ⟨more, rfl, hmore⟩
      exact ⟨word ++ more, rfl, ih.mpr ⟨more, rfl, hmore⟩⟩

end Splits

/-! ### Runs of wildcards -/

/-- The wildcards between two literals. -/
structure Wildcards where
  ones : Nat
  star : Bool
deriving Repr, DecidableEq

/-- A pattern as wildcards and literals in turns. -/
def runs : List (Wild A) → Wildcards × List (A × Wildcards)
  | [] => (⟨0, false⟩, [])
  | .any :: pat => (⟨(runs pat).1.ones, true⟩, (runs pat).2)
  | .one :: pat => (⟨(runs pat).1.ones + 1, (runs pat).1.star⟩, (runs pat).2)
  | .lit a :: pat => (⟨0, false⟩, (a, (runs pat).1) :: (runs pat).2)

/-- The total weight of a segment. -/
def weigh (weight : A → Nat) (seg : List A) : Nat :=
  (seg.map weight).sum

def Wildcards.Fills (weight : A → Nat) (r : Wildcards) (seg : List A) : Prop :=
  if r.star then r.ones ≤ weigh weight seg else weigh weight seg = r.ones

/-- The text consists of segments for the runs of wildcards, with the codes of
the literals between them. -/
def Covers (enc : A → List B) (weight : B → Nat) :
    Wildcards → List (A × Wildcards) → List B → Prop
  | r, [], text => r.Fills weight text
  | r, (a, r') :: rest, text =>
    ∃ seg more, text = seg ++ (enc a ++ more) ∧ r.Fills weight seg ∧
      Covers enc weight r' rest more

section Weight

variable {weight : A → Nat}

@[simp] theorem weigh_nil : weigh weight [] = 0 := rfl

@[simp] theorem weigh_cons (a : A) (seg : List A) :
    weigh weight (a :: seg) = weight a + weigh weight seg := by
  rw [weigh, map_cons, sum_cons]
  rfl

@[simp] theorem weigh_one (seg : List A) : weigh (fun _ => 1) seg = seg.length := by
  induction seg with
  | nil => rfl
  | cons a seg ih =>
    rw [weigh_cons, ih, length_cons]
    omega

@[simp] theorem weigh_replicate (n : Nat) (a : A) :
    weigh weight (replicate n a) = n * weight a := by
  induction n with
  | zero => simp
  | succ n ih => rw [replicate_succ, weigh_cons, ih, Nat.succ_mul, Nat.add_comm]

theorem weigh_congr {weight' : A → Nat} {seg : List A} (h : ∀ a ∈ seg, weight a = weight' a) :
    weigh weight seg = weigh weight' seg := by
  rw [weigh, weigh, map_congr_left h]

theorem length_le_weigh (hpos : ∀ a, 0 < weight a) (seg : List A) :
    seg.length ≤ weigh weight seg := by
  induction seg with
  | nil => exact Nat.le_refl 0
  | cons a seg ih =>
    have ha := hpos a
    rw [length_cons, weigh_cons]
    omega

end Weight

section Covers

variable {enc : A → List B} {weight : B → Nat} {rest : List (A × Wildcards)} {text : List B}
  {n : Nat} {star : Bool}

theorem fills_one (seg : List B) :
    Wildcards.Fills (fun _ => 1) ⟨n + 1, star⟩ seg ↔
      ∃ b more, seg = b :: more ∧ Wildcards.Fills (fun _ => 1) ⟨n, star⟩ more := by
  constructor
  · intro h
    cases seg with
    | nil => cases star <;> simp [Wildcards.Fills] at h
    | cons b more =>
      refine ⟨b, more, rfl, ?_⟩
      cases star <;> simp [Wildcards.Fills] at h ⊢ <;> omega
  · rintro ⟨b, more, rfl, hmore⟩
    cases star <;> simp [Wildcards.Fills] at hmore ⊢ <;> omega

theorem fills_any (seg : List B) :
    Wildcards.Fills (fun _ => 1) ⟨n, true⟩ seg ↔
      ∃ before more, seg = before ++ more ∧ Wildcards.Fills (fun _ => 1) ⟨n, star⟩ more := by
  constructor
  · intro h
    have hle : n ≤ seg.length := by simpa [Wildcards.Fills] using h
    refine ⟨seg.take (seg.length - n), seg.drop (seg.length - n), (take_append_drop _ _).symm,
      ?_⟩
    have hdrop : seg.length - (seg.length - n) = n := by omega
    cases star <;> simp [Wildcards.Fills, hdrop]
  · rintro ⟨before, more, rfl, hmore⟩
    have hle : n ≤ more.length := by
      cases star with
      | false => exact Nat.le_of_eq (by simpa [Wildcards.Fills] using hmore.symm)
      | true => simpa [Wildcards.Fills] using hmore
    simp only [Wildcards.Fills, if_true, weigh_one, length_append]
    omega

theorem covers_one :
    Covers enc (fun _ => 1) ⟨n + 1, star⟩ rest text ↔
      ∃ b more, text = b :: more ∧ Covers enc (fun _ => 1) ⟨n, star⟩ rest more := by
  cases rest with
  | nil => exact fills_one text
  | cons p rest =>
    constructor
    · rintro ⟨seg, more, rfl, hseg, hmore⟩
      obtain ⟨b, seg', rfl, hseg'⟩ := (fills_one seg).mp hseg
      exact ⟨b, _, rfl, seg', more, rfl, hseg', hmore⟩
    · rintro ⟨b, more, rfl, seg, more', rfl, hseg, hmore⟩
      exact ⟨b :: seg, more', rfl, (fills_one _).mpr ⟨b, seg, rfl, hseg⟩, hmore⟩

theorem covers_any :
    Covers enc (fun _ => 1) ⟨n, true⟩ rest text ↔
      ∃ before more, text = before ++ more ∧ Covers enc (fun _ => 1) ⟨n, star⟩ rest more := by
  cases rest with
  | nil => exact fills_any text
  | cons p rest =>
    constructor
    · rintro ⟨seg, more, rfl, hseg, hmore⟩
      obtain ⟨before, seg', rfl, hseg'⟩ := (@fills_any _ n star seg).mp hseg
      exact ⟨before, _, append_assoc _ _ _, seg', more, rfl, hseg', hmore⟩
    · rintro ⟨before, more, rfl, seg, more', rfl, hseg, hmore⟩
      exact ⟨before ++ seg, more', (append_assoc _ _ _).symm,
        fills_any _ |>.mpr ⟨before, seg, rfl, hseg⟩, hmore⟩

theorem covers_none {a : A} {r : Wildcards} :
    Covers enc (fun _ => 1) ⟨0, false⟩ ((a, r) :: rest) text ↔
      ∃ more, text = enc a ++ more ∧ Covers enc (fun _ => 1) r rest more := by
  constructor
  · rintro ⟨seg, more, rfl, hseg, hmore⟩
    obtain rfl : seg = [] := by simpa [Wildcards.Fills] using hseg
    exact ⟨more, rfl, hmore⟩
  · rintro ⟨more, rfl, hmore⟩
    exact ⟨[], more, rfl, rfl, hmore⟩

/-- The code of a pattern. -/
def encodeWild (enc : A → List B) : Wild A → List (Wild B)
  | .any => [.any]
  | .one => [.one]
  | .lit a => (enc a).map .lit

theorem splits_iff_covers {pat : List (Wild A)} :
    Splits (pat.flatMap (encodeWild enc)) text ↔
      Covers enc (fun _ => 1) (runs pat).1 (runs pat).2 text := by
  induction pat generalizing text with
  | nil =>
    rw [flatMap_nil, splits_nil]
    simp [runs, Covers, Wildcards.Fills]
  | cons w pat ih =>
    cases w with
    | any =>
      rw [flatMap_cons, encodeWild, singleton_append, splits_any, runs,
        @covers_any _ _ _ _ _ _ (runs pat).1.star]
      simp only [ih]
    | one =>
      rw [flatMap_cons, encodeWild, singleton_append, splits_one, runs, covers_one]
      simp only [ih]
    | lit a =>
      rw [flatMap_cons, encodeWild, splits_word, runs, covers_none]
      simp only [ih]

end Covers

/-! ### Codes -/

/-- A code whose first elements are told from the others, and in which no word
begins with another one. -/
structure SelfSync (enc : A → List B) (lead : B → Prop) : Prop where
  ne_nil : ∀ a, enc a ≠ []
  lead_iff : ∀ a i (h : i < (enc a).length), lead (enc a)[i] ↔ i = 0
  eq_of_append : ∀ {a b x y}, enc a ++ x = enc b ++ y → a = b

section Codes

variable {enc : A → List B} {lead : B → Prop} {text : List A} {seg more : List B} {a : A}

theorem SelfSync.cut (h : SelfSync enc lead) (htext : text.flatMap enc = seg ++ (enc a ++ more)) :
    ∃ before after, text = before ++ a :: after ∧ before.flatMap enc = seg ∧
      after.flatMap enc = more := by
  induction text generalizing seg with
  | nil =>
    have hnil := append_eq_nil_iff.mp htext.symm
    exact absurd (append_eq_nil_iff.mp hnil.2).1 (h.ne_nil a)
  | cons d text ih =>
    have hskip : ∀ seg', seg = enc d ++ seg' → text.flatMap enc = seg' ++ (enc a ++ more) →
        ∃ before after, d :: text = before ++ a :: after ∧ before.flatMap enc = seg ∧
          after.flatMap enc = more := by
      rintro seg' rfl hrest
      obtain ⟨before, after, rfl, rfl, rfl⟩ := ih hrest
      exact ⟨d :: before, after, rfl, rfl, rfl⟩
    rw [flatMap_cons] at htext
    rcases append_eq_append_iff.mp htext with ⟨seg', hseg, hrest⟩ | ⟨tail, hd, hrest⟩
    · exact hskip seg' hseg hrest
    · cases tail with
      | nil => exact hskip [] (by rw [hd, append_nil, append_nil]) hrest.symm
      | cons b tail =>
        cases seg with
        | nil =>
          rw [nil_append] at hd
          rw [← hd] at hrest
          obtain rfl := h.eq_of_append hrest
          exact ⟨[], text, rfl, rfl, (append_cancel_left hrest).symm⟩
        | cons b' seg =>
          -- the word would begin inside of the word of `d`
          exfalso
          obtain ⟨c, word, hword⟩ := exists_cons_of_ne_nil (h.ne_nil a)
          rw [hword] at hrest
          obtain rfl := (cons.inj hrest).1
          have hfirst := (h.lead_iff a 0 (by rw [hword]; exact Nat.succ_pos _)).mpr rfl
          simp only [hword, getElem_cons_zero] at hfirst
          have hlt : seg.length + 1 < (enc d).length := by
            rw [hd, length_append, length_cons, length_cons]
            omega
          have hinside := h.lead_iff d (seg.length + 1) hlt
          have hget : (enc d)[seg.length + 1] = c := by
            simp [hd]
          rw [hget] at hinside
          exact absurd (hinside.mp hfirst) (Nat.succ_ne_zero _)

/-- A code word of one element is in no other word. -/
theorem SelfSync.eq_of_mem (h : SelfSync enc lead) {c d : A} {b : B} (hd : enc d = [b])
    (hb : b ∈ enc c) : c = d := by
  obtain ⟨i, hi, rfl⟩ := mem_iff_getElem.mp hb
  have hlead : lead ((enc c)[i]) := by
    have hfirst := (h.lead_iff d 0 (by rw [hd]; exact Nat.zero_lt_one)).mpr rfl
    simpa only [hd, getElem_cons_zero] using hfirst
  obtain rfl := (h.lead_iff c i hi).mp hlead
  obtain ⟨b, word, hword⟩ := exists_cons_of_ne_nil (h.ne_nil c)
  simp only [hword, getElem_cons_zero] at hd
  apply @SelfSync.eq_of_append _ _ _ _ h c d [] word
  rw [append_nil, hd, hword]
  rfl

theorem length_flatMap_enc (text : List A) :
    (text.flatMap enc).length = weigh (fun a => (enc a).length) text := by
  rw [length_flatMap, weigh]

/-- To match codes is to match elements that weigh as much as their codes are long. -/
theorem SelfSync.covers_flatMap (h : SelfSync enc lead) {r : Wildcards}
    {rest : List (A × Wildcards)} :
    Covers enc (fun _ => 1) r rest (text.flatMap enc) ↔
      Covers (fun a => [a]) (fun a => (enc a).length) r rest text := by
  induction rest generalizing r text with
  | nil =>
    simp only [Covers, Wildcards.Fills, weigh_one, length_flatMap_enc]
  | cons p rest ih =>
    constructor
    · rintro ⟨seg, more, htext, hseg, hmore⟩
      obtain ⟨before, after, rfl, rfl, rfl⟩ := h.cut htext
      refine ⟨before, after, rfl, ?_, ih.mp hmore⟩
      simpa only [Wildcards.Fills, weigh_one, length_flatMap_enc] using hseg
    · rintro ⟨before, after, rfl, hseg, hmore⟩
      refine ⟨before.flatMap enc, after.flatMap enc, ?_, ?_, ih.mpr hmore⟩
      · rw [flatMap_append, singleton_append, flatMap_cons]
      · simpa only [Wildcards.Fills, weigh_one, length_flatMap_enc] using hseg

end Codes

/-! ### Weights -/

section Weights

variable {weight : A → Nat} {r : Wildcards} {rest : List (A × Wildcards)} {text : List A}

def allRuns (r : Wildcards) (rest : List (A × Wildcards)) : List Wildcards :=
  r :: rest.map Prod.snd

theorem covers_congr {weight' : A → Nat}
    (h : ∀ r' ∈ allRuns r rest, ∀ seg : List A, (∀ a ∈ seg, a ∈ text) →
      (r'.Fills weight seg ↔ r'.Fills weight' seg)) :
    Covers (fun a => [a]) weight r rest text ↔ Covers (fun a => [a]) weight' r rest text := by
  induction rest generalizing r text with
  | nil => exact h r mem_cons_self text fun a ha => ha
  | cons p rest ih =>
    refine exists_congr fun seg => exists_congr fun more => and_congr_right fun htext => ?_
    refine and_congr (h r mem_cons_self seg ?_) (ih ?_)
    · exact fun a ha => htext ▸ mem_append_left _ ha
    · intro r' hr' seg' hseg'
      refine h r' (mem_cons_of_mem _ hr') seg' fun a ha => ?_
      rw [htext]
      exact mem_append_right _ (mem_cons_of_mem _ (hseg' a ha))

/-- Wildcards that ask for nothing, or for one element and more. -/
def Wildcards.Plain (r : Wildcards) : Prop :=
  r.ones = 0 ∨ r.ones = 1 ∧ r.star = true

instance : DecidablePred Wildcards.Plain := fun r =>
  inferInstanceAs (Decidable (r.ones = 0 ∨ r.ones = 1 ∧ r.star = true))

theorem Wildcards.Plain.fills_iff (h : r.Plain) (hpos : ∀ a, 0 < weight a) (seg : List A) :
    r.Fills weight seg ↔ r.Fills (fun _ => 1) seg := by
  have hle := length_le_weigh hpos seg
  have hzero : seg.length = 0 → weigh weight seg = 0 := by
    intro hlen
    rw [length_eq_zero_iff.mp hlen, weigh_nil]
  obtain ⟨n, star⟩ := r
  cases star with
  | true =>
    simp only [Wildcards.Fills, if_true, weigh_one]
    rcases h with h | ⟨h, _⟩
    · dsimp only at h
      omega
    · dsimp only at h
      omega
  | false =>
    simp only [Wildcards.Fills, Bool.false_eq_true, if_false, weigh_one]
    rcases h with h | ⟨_, h⟩
    · dsimp only at h
      omega
    · cases h

/-- The number of elements that a pattern asks for. -/
def needed (r : Wildcards) (rest : List (A × Wildcards)) : Nat :=
  r.ones + (rest.map fun p => 1 + p.2.ones).sum

theorem needed_cons (r : Wildcards) (p : A × Wildcards) (rest : List (A × Wildcards)) :
    needed r (p :: rest) = r.ones + 1 + needed p.2 rest := by
  rw [needed, needed, map_cons, sum_cons]
  omega

theorem needed_le_length (h : Covers (fun a => [a]) (fun _ => 1) r rest text) :
    needed r rest ≤ text.length := by
  have hfills : ∀ {r : Wildcards} {seg : List A}, r.Fills (fun _ => 1) seg →
      r.ones ≤ seg.length := by
    intro r seg hseg
    unfold Wildcards.Fills at hseg
    rw [weigh_one] at hseg
    split at hseg
    · exact hseg
    · exact Nat.le_of_eq hseg.symm
  induction rest generalizing r text with
  | nil => simpa [needed] using hfills h
  | cons p rest ih =>
    obtain ⟨seg, more, rfl, hseg, hmore⟩ := h
    have hle := hfills hseg
    have hrest := ih hmore
    rw [needed_cons]
    simp only [length_append, length_cons, length_nil]
    omega

theorem Wildcards.fills_light {x : A} (hx : weight x = 1) (r : Wildcards) :
    r.Fills weight (replicate r.ones x) := by
  unfold Wildcards.Fills
  rw [weigh_replicate, hx, Nat.mul_one]
  split
  · exact Nat.le_refl _
  · rfl

theorem exists_covers {x : A} (hx : weight x = 1) (r : Wildcards) (rest : List (A × Wildcards)) :
    ∃ text, Covers (fun a => [a]) weight r rest text ∧ text.length = needed r rest := by
  induction rest generalizing r with
  | nil => exact ⟨_, r.fills_light hx, by simp [needed]⟩
  | cons p rest ih =>
    obtain ⟨more, hmore, hlen⟩ := ih p.2
    refine ⟨_, ⟨_, more, rfl, r.fills_light hx, hmore⟩, ?_⟩
    rw [needed_cons]
    simp only [length_append, length_replicate, length_cons, length_nil, hlen]
    omega

/-- A heavy element takes the place of two. -/
theorem exists_covers_short {x y : A} (hx : weight x = 1) (hy : weight y = 2)
    (h : ∃ r' ∈ allRuns r rest, 2 ≤ r'.ones) :
    ∃ text, Covers (fun a => [a]) weight r rest text ∧ text.length + 1 = needed r rest := by
  have hheavy : ∀ r : Wildcards, 2 ≤ r.ones →
      r.Fills weight (y :: replicate (r.ones - 2) x) := by
    intro r hones
    unfold Wildcards.Fills
    rw [weigh_cons, weigh_replicate, hx, hy]
    split <;> omega
  obtain ⟨r', hr', hones⟩ := h
  induction rest generalizing r with
  | nil =>
    obtain rfl := mem_singleton.mp hr'
    refine ⟨_, hheavy r' hones, ?_⟩
    simp only [length_cons, length_replicate, needed, map_nil, sum_nil]
    omega
  | cons p rest ih =>
    rcases mem_cons.mp hr' with rfl | hr'
    · obtain ⟨more, hmore, hlen⟩ := exists_covers hx p.2 rest
      refine ⟨_, ⟨_, more, rfl, hheavy r' hones, hmore⟩, ?_⟩
      rw [needed_cons]
      simp only [length_append, length_replicate, length_cons, length_nil,
        hlen]
      omega
    · obtain ⟨more, hmore, hlen⟩ := ih hr'
      refine ⟨_, ⟨_, more, rfl, r.fills_light hx, hmore⟩, ?_⟩
      rw [needed_cons]
      simp only [length_append, length_replicate, length_cons, length_nil]
      omega

/-- The literals of the pattern with `y` wherever it asks for an element. -/
def spread (y : A) : Wildcards → List (A × Wildcards) → List A
  | r, [] => List.replicate r.ones y
  | r, (a, r') :: rest => List.replicate r.ones y ++ ([a] ++ spread y r' rest)

theorem covers_spread (y : A) (r : Wildcards) (rest : List (A × Wildcards)) :
    Covers (fun a => [a]) (fun _ => 1) r rest (spread y r rest) := by
  have hfills : ∀ r : Wildcards, r.Fills (fun _ => 1) (replicate r.ones y) :=
    Wildcards.fills_light rfl
  induction rest generalizing r with
  | nil => exact hfills r
  | cons p rest ih => exact ⟨_, _, rfl, hfills r, ih p.2⟩

variable [DecidableEq A]

theorem count_spread {d y : A} (h : d ≠ y) (r : Wildcards) (rest : List (A × Wildcards)) :
    (spread y r rest).count d = (rest.map Prod.fst).count d := by
  have hzero : ∀ n, (replicate n y).count d = 0 := fun n =>
    count_eq_zero_of_not_mem fun hmem => h (eq_of_mem_replicate hmem)
  induction rest generalizing r with
  | nil => exact hzero r.ones
  | cons p rest ih =>
    rw [spread, count_append, hzero, map_cons, singleton_append, count_cons,
      count_cons, ih, Nat.zero_add]

theorem count_le_of_covers (h : Covers (fun a => [a]) weight r rest text) (d : A) :
    (rest.map Prod.fst).count d ≤ text.count d := by
  induction rest generalizing r text with
  | nil => exact Nat.zero_le _
  | cons p rest ih =>
    obtain ⟨seg, more, rfl, _, hmore⟩ := h
    have hle := ih hmore
    rw [map_cons, singleton_append, count_append, count_cons,
      count_cons]
    omega

/-- Where the literals use up every element but `y`, only `y` is left to the wildcards. -/
theorem fills_replicate {y : A} (h : Covers (fun a => [a]) weight r rest text)
    (hcount : ∀ d, d ≠ y → text.count d ≤ (rest.map Prod.fst).count d) :
    ∀ r' ∈ allRuns r rest, ∃ n, r'.Fills weight (replicate n y) := by
  have hall : ∀ seg : List A, (∀ d, d ≠ y → seg.count d = 0) →
      seg = replicate seg.length y := by
    intro seg hseg
    refine eq_replicate_of_mem fun d hd => ?_
    by_contra hne
    exact count_eq_zero.mp (hseg d hne) hd
  induction rest generalizing r text with
  | nil =>
    intro r' hr'
    obtain rfl := mem_singleton.mp hr'
    refine ⟨text.length, ?_⟩
    rw [← hall text fun d hd => Nat.le_zero.mp (hcount d hd)]
    exact h
  | cons p rest ih =>
    obtain ⟨seg, more, rfl, hseg, hmore⟩ := h
    have hsplit : ∀ d, d ≠ y → seg.count d = 0 ∧ more.count d ≤ (rest.map Prod.fst).count d := by
      intro d hd
      have hle := hcount d hd
      have hge := count_le_of_covers hmore d
      rw [map_cons, singleton_append, count_append, count_cons,
        count_cons] at hle
      omega
    intro r' hr'
    rcases mem_cons.mp hr' with rfl | hr'
    · refine ⟨seg.length, ?_⟩
      rw [← hall seg fun d hd => (hsplit d hd).1]
      exact hseg
    · exact ih hmore (fun d hd => (hsplit d hd).2) r' hr'

theorem covers_iff_plain {x y : A} (hpos : ∀ a, 0 < weight a) (hx : weight x = 1)
    (hy : weight y = 2) :
    (∀ text, Covers (fun a => [a]) weight r rest text ↔
        Covers (fun a => [a]) (fun _ => 1) r rest text) ↔
      ∀ r' ∈ allRuns r rest, r'.Plain := by
  constructor
  · intro h
    by_cases htwo : ∃ r' ∈ allRuns r rest, 2 ≤ r'.ones
    · obtain ⟨text, hcovers, hlen⟩ := exists_covers_short hx hy htwo
      have hle := needed_le_length ((h text).mp hcovers)
      omega
    · intro r' hr'
      have hones : r'.ones < 2 := Nat.lt_of_not_le fun hle => htwo ⟨r', hr', hle⟩
      have hcovers := (h _).mpr (covers_spread y r rest)
      obtain ⟨n, hn⟩ := fills_replicate hcovers
        (fun d hd => Nat.le_of_eq (count_spread hd r rest)) r' hr'
      unfold Wildcards.Fills at hn
      rw [weigh_replicate, hy] at hn
      split at hn
      · next hstar =>
        rcases Nat.eq_zero_or_pos r'.ones with hzero | hone
        · exact Or.inl hzero
        · exact Or.inr ⟨by omega, hstar⟩
      · exact Or.inl (by omega)
  · intro h text
    exact covers_congr fun r' hr' seg _ => (h r' hr').fills_iff hpos seg

end Weights

end Oikos
