/-
Fenced chains in the manner of Lehman and Yao.  Nodes are arranged in levels; each is
responsible for a half-open key range and links to the node of its level that begins where
it ends, so that a search can always recover by going right.  The separators of an inner
node cut its range into one piece for each child.
-/
import Mathlib.Order.Basic
import Mathlib.Data.Finset.Card
import Mathlib.Data.Finset.Range
import Mathlib.Tactic.Common
import Mathlib.Algebra.Order.Ring.Nat
import Mathlib.Data.List.Nodup

namespace Oikos

open List

section Fences

universe u

variable {K : Type u} [LinearOrder K]

/-- A lower fence, absent at the left end of a level. -/
def LowLe : Option K → K → Prop
  | none, _ => True
  | some l, k => l ≤ k

/-- An upper fence, absent at the right end of a level. -/
def LtHigh : K → Option K → Prop
  | _, none => True
  | k, some h => k < h

/-- Strict order of lower fences. -/
def LowLt : Option K → Option K → Prop
  | _, none => False
  | none, some _ => True
  | some a, some b => a < b

/-- The range that ends at the first fence ends before the range that starts
at the second. -/
def EndsBy : Option K → Option K → Prop
  | some h, some l => h ≤ l
  | _, _ => False

@[simp] theorem lowLe_none (k : K) : LowLe none k := trivial

@[simp] theorem lowLe_some {l k : K} : LowLe (some l) k ↔ l ≤ k := Iff.rfl

@[simp] theorem ltHigh_none (k : K) : LtHigh k none := trivial

@[simp] theorem ltHigh_some {k h : K} : LtHigh k (some h) ↔ k < h := Iff.rfl

@[simp] theorem lowLt_none (a : Option K) : ¬ LowLt a none := by
  cases a <;> exact id

@[simp] theorem none_lowLt_some (b : K) : LowLt none (some b) := trivial

@[simp] theorem some_lowLt_some {a b : K} : LowLt (some a) (some b) ↔ a < b := Iff.rfl

@[simp] theorem some_endsBy_some {h l : K} : EndsBy (some h) (some l) ↔ h ≤ l := Iff.rfl

@[simp] theorem not_none_endsBy (l : Option K) : ¬ EndsBy none l := by
  cases l <;> exact id

@[simp] theorem not_endsBy_none (h : Option K) : ¬ EndsBy h none := by
  cases h <;> exact id

theorem lowLt_irrefl (a : Option K) : ¬ LowLt a a := by
  cases a <;> simp

theorem lowLt_trans {a b c : Option K} (hab : LowLt a b) (hbc : LowLt b c) : LowLt a c := by
  cases c with
  | none => exact absurd hbc (lowLt_none b)
  | some c =>
    cases b with
    | none => exact absurd hab (lowLt_none a)
    | some b =>
      cases a with
      | none => trivial
      | some a => exact lt_trans (some_lowLt_some.mp hab) hbc

theorem lowLe_of_lowLt {a : Option K} {b k : K} (h : LowLt a (some b)) (hk : b ≤ k) :
    LowLe a k := by
  cases a with
  | none => trivial
  | some a => exact (le_of_lt h).trans hk

theorem lowLt_of_lowLe {a : Option K} {b k : K} (h : LowLe a k) (hk : k < b) :
    LowLt a (some b) := by
  cases a with
  | none => trivial
  | some a => exact lt_of_le_of_lt h hk

/-- Levels of fenced nodes: node ids are the numbers below `size`. -/
structure Fences (K : Type u) where
  size : Nat
  level : Nat → Nat
  low : Nat → Option K
  high : Nat → Option K
  right : Nat → Option Nat

namespace Fences

variable {f f' : Fences K} {n m r : Nat} {k sep : K}

/-- What keeps a level searchable. -/
structure Ok (f : Fences K) : Prop where
  /-- A right-link leads to the node of the same level that starts at the high
  key, and the two are absent together. -/
  link : ∀ n < f.size, (f.right n = none ∧ f.high n = none) ∨
    ∃ r h, f.right n = some r ∧ f.high n = some h ∧ r < f.size ∧
      f.level r = f.level n ∧ f.low r = some h
  /-- Ranges are not empty. -/
  nonempty : ∀ n < f.size, ∀ h, f.high n = some h → LowLt (f.low n) (some h)
  /-- Two nodes of one level have disjoint ranges. -/
  apart : ∀ n < f.size, ∀ m < f.size, f.level n = f.level m → n ≠ m →
    EndsBy (f.high n) (f.low m) ∨ EndsBy (f.high m) (f.low n)

/-- `n` is responsible for `k`. -/
def Covers (f : Fences K) (n : Nat) (k : K) : Prop :=
  LowLe (f.low n) k ∧ LtHigh k (f.high n)

theorem Ok.lowLt_of_endsBy (h : f.Ok) (hn : n < f.size)
    (hb : EndsBy (f.high n) (f.low m)) : LowLt (f.low n) (f.low m) := by
  cases hh : f.high n with
  | none => rw [hh] at hb; exact absurd hb (not_none_endsBy _)
  | some a =>
    cases hl : f.low m with
    | none => rw [hl] at hb; exact absurd hb (not_endsBy_none _)
    | some b =>
      rw [hh, hl] at hb
      have hna := h.nonempty n hn a hh
      cases hn' : f.low n with
      | none => trivial
      | some c =>
        rw [hn'] at hna
        exact lt_of_lt_of_le (some_lowLt_some.mp hna) hb

/-- The node with the smaller lower fence ends before the other begins. -/
theorem Ok.endsBy_of_lowLt (h : f.Ok) (hn : n < f.size) (hm : m < f.size)
    (hlevel : f.level n = f.level m) (hlt : LowLt (f.low n) (f.low m)) :
    EndsBy (f.high n) (f.low m) := by
  have hne : n ≠ m := by
    rintro rfl
    exact lowLt_irrefl _ hlt
  rcases h.apart n hn m hm hlevel hne with hb | hb
  · exact hb
  · exact absurd (lowLt_trans hlt (h.lowLt_of_endsBy hm hb)) (lowLt_irrefl _)

theorem Ok.covers_unique (h : f.Ok) (hn : n < f.size) (hm : m < f.size)
    (hlevel : f.level n = f.level m) (hcn : f.Covers n k) (hcm : f.Covers m k) : n = m := by
  have clash : ∀ {a b : Nat}, f.Covers a k → f.Covers b k →
      ¬ EndsBy (f.high a) (f.low b) := by
    intro a b ha hb he
    cases hh : f.high a with
    | none => rw [hh] at he; exact not_none_endsBy _ he
    | some x =>
      cases hl : f.low b with
      | none => rw [hl] at he; exact not_endsBy_none _ he
      | some y =>
        rw [hh, hl] at he
        have hx : k < x := by simpa [hh] using ha.2
        have hy : y ≤ k := by simpa [hl] using hb.1
        exact absurd (lt_of_lt_of_le hx (he.trans hy)) (lt_irrefl k)
  by_contra hne
  rcases h.apart n hn m hm hlevel hne with he | he
  · exact clash hcn hcm he
  · exact clash hcm hcn he

theorem Ok.eq_of_low_eq (h : f.Ok) (hn : n < f.size) (hm : m < f.size)
    (hlevel : f.level n = f.level m) (hlow : f.low n = f.low m) : n = m := by
  by_contra hne
  rcases h.apart n hn m hm hlevel hne with he | he
  · exact lowLt_irrefl _ (hlow ▸ h.lowLt_of_endsBy hn he)
  · exact lowLt_irrefl _ (hlow ▸ h.lowLt_of_endsBy hm he)

theorem Ok.not_lowLt_of_right_none (h : f.Ok) (hn : n < f.size) (hr : f.right n = none)
    (hm : m < f.size) (hlevel : f.level m = f.level n) : ¬ LowLt (f.low n) (f.low m) := by
  intro hlt
  have he := h.endsBy_of_lowLt hn hm hlevel.symm hlt
  rcases h.link n hn with ⟨_, hhigh⟩ | ⟨r, hi, hr', _⟩
  · rw [hhigh] at he
    exact not_none_endsBy _ he
  · simp [hr] at hr'

theorem Ok.right_next (h : f.Ok) (hn : n < f.size) (hr : f.right n = some r) :
    r < f.size ∧ f.level r = f.level n ∧ LowLt (f.low n) (f.low r) ∧
      f.high n = f.low r ∧
      ∀ m < f.size, f.level m = f.level n → LowLt (f.low n) (f.low m) →
        m = r ∨ LowLt (f.low r) (f.low m) := by
  rcases h.link n hn with ⟨hr', _⟩ | ⟨r', hi, hr', hhigh, hsize, hlevel, hlow⟩
  · simp [hr] at hr'
  · obtain rfl : r = r' := by simpa [hr] using hr'
    refine ⟨hsize, hlevel, hlow ▸ h.nonempty n hn hi hhigh, hhigh.trans hlow.symm, ?_⟩
    intro m hm hml hlt
    have he := h.endsBy_of_lowLt hn hm hml.symm hlt
    rw [hhigh] at he
    cases hl : f.low m with
    | none => rw [hl] at he; exact absurd he (not_endsBy_none _)
    | some l =>
      rw [hl] at he
      rcases (some_endsBy_some.mp he).lt_or_eq with hlt' | heq
      · exact Or.inr (by rw [hlow]; exact hlt')
      · left
        refine h.eq_of_low_eq hm hsize (hml.trans hlevel.symm) ?_
        rw [hl, hlow, heq]

/-! ### Searching -/

/-- One move of a search for `k`: to the right past the high key, or down. -/
inductive Move (f : Fences K) (k : K) : Nat → Nat → Prop
  | across {n r : Nat} {h : K} : f.high n = some h → h ≤ k → f.right n = some r → Move f k n r
  | down {n c : Nat} : c < f.size → f.level c < f.level n → LowLe (f.low c) k → Move f k n c

/-- The nodes a search standing at `n` has yet to come to. -/
noncomputable def ahead (f : Fences K) (n : Nat) : Finset Nat := by
  classical
  exact (Finset.range f.size).filter fun m =>
    f.level m < f.level n ∨ (f.level m = f.level n ∧ LowLt (f.low n) (f.low m))

theorem mem_ahead : m ∈ f.ahead n ↔ m < f.size ∧
    (f.level m < f.level n ∨ (f.level m = f.level n ∧ LowLt (f.low n) (f.low m))) := by
  simp [ahead]

theorem not_mem_ahead_self : n ∉ f.ahead n := by
  rw [mem_ahead]
  rintro ⟨_, hlt | ⟨_, hlt⟩⟩
  · exact lt_irrefl _ hlt
  · exact lowLt_irrefl _ hlt

theorem card_ahead_lt_of_mem (h : m ∈ f.ahead n) : (f.ahead m).card < (f.ahead n).card := by
  apply Finset.card_lt_card
  rw [Finset.ssubset_iff_of_subset]
  · exact ⟨m, h, not_mem_ahead_self⟩
  · intro x hx
    rw [mem_ahead] at h hx ⊢
    refine ⟨hx.1, ?_⟩
    rcases h.2 with hm | ⟨hm, hlm⟩ <;> rcases hx.2 with hx' | ⟨hx', hlx⟩
    · exact Or.inl (hx'.trans hm)
    · exact Or.inl (hx'.trans_lt hm)
    · exact Or.inl (hx'.trans_eq hm)
    · exact Or.inr ⟨hx'.trans hm, lowLt_trans hlm hlx⟩

/-- A search makes fewer moves than there are nodes. -/
theorem card_ahead_lt_size (hn : n < f.size) : (f.ahead n).card < f.size := by
  have hsub : f.ahead n ⊂ Finset.range f.size := by
    rw [Finset.ssubset_iff_of_subset]
    · exact ⟨n, Finset.mem_range.mpr hn, not_mem_ahead_self⟩
    · intro x hx
      exact Finset.mem_range.mpr (mem_ahead.mp hx).1
  simpa using Finset.card_lt_card hsub

theorem Ok.mem_ahead_of_right (h : f.Ok) (hn : n < f.size) (hr : f.right n = some r) :
    r ∈ f.ahead n := by
  obtain ⟨hsize, hlevel, hlt, _⟩ := h.right_next hn hr
  exact mem_ahead.mpr ⟨hsize, Or.inr ⟨hlevel, hlt⟩⟩

theorem Move.mem_ahead (hm : f.Move k n m) (h : f.Ok) (hn : n < f.size) : m ∈ f.ahead n := by
  cases hm with
  | across _ _ hr => exact h.mem_ahead_of_right hn hr
  | down hsize hlevel _ => exact Fences.mem_ahead.mpr ⟨hsize, Or.inl hlevel⟩

theorem Move.lowLe (hm : f.Move k n m) (h : f.Ok) (hn : n < f.size) : LowLe (f.low m) k := by
  cases hm with
  | across hhigh hle hr =>
    obtain ⟨_, _, _, hlow, _⟩ := h.right_next hn hr
    rw [← hlow, hhigh]
    exact hle
  | down _ _ hlow => exact hlow

/-! ### Growing -/

/-- `f'` arises from `f` by splitting `n` at `sep`; the upper half becomes a
new node. -/
structure Split (f f' : Fences K) (n : Nat) (sep : K) : Prop where
  size : f'.size = f.size + 1
  level_old : ∀ m < f.size, f'.level m = f.level m
  level_new : f'.level f.size = f.level n
  low_old : ∀ m < f.size, f'.low m = f.low m
  low_new : f'.low f.size = some sep
  high_other : ∀ m < f.size, m ≠ n → f'.high m = f.high m
  high_left : f'.high n = some sep
  high_new : f'.high f.size = f.high n
  right_other : ∀ m < f.size, m ≠ n → f'.right m = f.right m
  right_left : f'.right n = some f.size
  right_new : f'.right f.size = f.right n

omit [LinearOrder K] in
theorem Split.lt_cases (hs : Split f f' n sep) (hm : m < f'.size) : m < f.size ∨ m = f.size := by
  have := hs.size
  omega

theorem Split.link (hs : Split f f' n sep) (h : f.Ok) (hn : n < f.size) :
    ∀ m < f'.size, (f'.right m = none ∧ f'.high m = none) ∨
      ∃ r h, f'.right m = some r ∧ f'.high m = some h ∧ r < f'.size ∧
        f'.level r = f'.level m ∧ f'.low r = some h := by
  have hsize := hs.size
  -- links of `f` carry over to any node of the same level that inherits them
  have inherit : ∀ a < f.size, ∀ b, f'.right b = f.right a → f'.high b = f.high a →
      f'.level b = f.level a → (f'.right b = none ∧ f'.high b = none) ∨
      ∃ r h, f'.right b = some r ∧ f'.high b = some h ∧ r < f'.size ∧
        f'.level r = f'.level b ∧ f'.low r = some h := by
    intro a ha b hr hh hl
    rcases h.link a ha with ⟨hr', hh'⟩ | ⟨r, x, hr', hh', hrs, hrl, hrlow⟩
    · exact Or.inl ⟨hr.trans hr', hh.trans hh'⟩
    · exact Or.inr ⟨r, x, hr.trans hr', hh.trans hh', by omega,
        by rw [hs.level_old r hrs, hl, hrl], by rw [hs.low_old r hrs, hrlow]⟩
  intro m hm
  rcases hs.lt_cases hm with hm | rfl
  · by_cases hmn : m = n
    · subst hmn
      exact Or.inr ⟨f.size, sep, hs.right_left, hs.high_left, by omega,
        by rw [hs.level_new, hs.level_old m hm], hs.low_new⟩
    · exact inherit m hm m (hs.right_other m hm hmn) (hs.high_other m hm hmn)
        (hs.level_old m hm)
  · exact inherit n hn f.size hs.right_new hs.high_new hs.level_new

theorem Split.nonempty (hs : Split f f' n sep) (h : f.Ok) (hn : n < f.size)
    (hlow : LowLt (f.low n) (some sep)) (hhigh : LtHigh sep (f.high n)) :
    ∀ m < f'.size, ∀ x, f'.high m = some x → LowLt (f'.low m) (some x) := by
  intro m hm x hx
  rcases hs.lt_cases hm with hm | rfl
  · rw [hs.low_old m hm]
    by_cases hmn : m = n
    · subst hmn
      obtain rfl : sep = x := by simpa [hs.high_left] using hx
      exact hlow
    · exact h.nonempty m hm x (by rw [← hs.high_other m hm hmn, hx])
  · rw [hs.low_new]
    rw [hs.high_new] at hx
    rw [hx] at hhigh
    exact hhigh

theorem Split.apart (hs : Split f f' n sep) (h : f.Ok) (hn : n < f.size)
    (hlow : LowLt (f.low n) (some sep)) (hhigh : LtHigh sep (f.high n)) :
    ∀ a < f'.size, ∀ b < f'.size, f'.level a = f'.level b → a ≠ b →
      EndsBy (f'.high a) (f'.low b) ∨ EndsBy (f'.high b) (f'.low a) := by
  -- the left half ends no later than `n` did
  have left : ∀ {l : Option K}, EndsBy (f.high n) l → EndsBy (some sep) l := by
    intro l he
    cases hh : f.high n with
    | none => rw [hh] at he; exact absurd he (not_none_endsBy _)
    | some x =>
      rw [hh] at he hhigh
      cases l with
      | none => exact absurd he (not_endsBy_none _)
      | some l => exact (le_of_lt (ltHigh_some.mp hhigh)).trans (some_endsBy_some.mp he)
  -- the right half starts no earlier than `n` did
  have right : ∀ {x : Option K}, EndsBy x (f.low n) → EndsBy x (some sep) := by
    intro x he
    cases x with
    | none => exact absurd he (not_none_endsBy _)
    | some x =>
      cases hl : f.low n with
      | none => rw [hl] at he; exact absurd he (not_endsBy_none _)
      | some l =>
        rw [hl] at he hlow
        exact (some_endsBy_some.mp he).trans (le_of_lt (some_lowLt_some.mp hlow))
  have old : ∀ a < f.size, ∀ b < f.size, f.level a = f.level b → a ≠ b →
      EndsBy (f.high a) (f.low b) → EndsBy (f'.high a) (f'.low b) := by
    intro a ha b hb _ _ he
    rw [hs.low_old b hb]
    by_cases han : a = n
    · subst han; rw [hs.high_left]; exact left he
    · rw [hs.high_other a ha han]; exact he
  have fresh : ∀ a < f.size, f'.level a = f'.level f.size →
      EndsBy (f'.high a) (f'.low f.size) ∨ EndsBy (f'.high f.size) (f'.low a) := by
    intro a ha hl
    rw [hs.level_old a ha, hs.level_new] at hl
    by_cases han : a = n
    · subst han
      left
      rw [hs.high_left, hs.low_new]
      exact le_refl sep
    · rw [hs.low_new, hs.high_other a ha han, hs.high_new, hs.low_old a ha]
      rcases h.apart a ha n hn hl han with he | he
      · exact Or.inl (right he)
      · exact Or.inr he
  intro a ha b hb hl hne
  rcases hs.lt_cases ha with ha | rfl <;> rcases hs.lt_cases hb with hb | rfl
  · have hl' : f.level a = f.level b := by rw [← hs.level_old a ha, ← hs.level_old b hb, hl]
    rcases h.apart a ha b hb hl' hne with he | he
    · exact Or.inl (old a ha b hb hl' hne he)
    · exact Or.inr (old b hb a ha hl'.symm hne.symm he)
  · exact fresh a ha hl
  · exact (fresh b hb hl.symm).symm
  · exact absurd rfl hne

/-- Splitting a node inside its range keeps every level searchable. -/
theorem Ok.split (h : f.Ok) (hn : n < f.size) (hlow : LowLt (f.low n) (some sep))
    (hhigh : LtHigh sep (f.high n)) (hs : Split f f' n sep) : f'.Ok where
  link := hs.link h hn
  nonempty := hs.nonempty h hn hlow hhigh
  apart := hs.apart h hn hlow hhigh

/-- `f'` arises from `f` by adding a node for the whole key range. -/
structure Crown (f f' : Fences K) : Prop where
  size : f'.size = f.size + 1
  level_old : ∀ m < f.size, f'.level m = f.level m
  low_old : ∀ m < f.size, f'.low m = f.low m
  high_old : ∀ m < f.size, f'.high m = f.high m
  right_old : ∀ m < f.size, f'.right m = f.right m
  high_new : f'.high f.size = none
  right_new : f'.right f.size = none
  level_new : ∀ m < f.size, f.level m < f'.level f.size

/-- A new top node keeps every level searchable. -/
theorem Ok.crown (h : f.Ok) (hc : Crown f f') : f'.Ok := by
  have hsize := hc.size
  refine ⟨?_, ?_, ?_⟩
  · intro n hn
    rcases (show n < f.size ∨ n = f.size by omega) with hn | rfl
    · rw [hc.right_old n hn, hc.high_old n hn, hc.level_old n hn]
      rcases h.link n hn with hnone | ⟨r, x, hr, hx, hrs, hrl, hrlow⟩
      · exact Or.inl hnone
      · exact Or.inr ⟨r, x, hr, hx, by omega, by rw [hc.level_old r hrs, hrl],
          by rw [hc.low_old r hrs, hrlow]⟩
    · exact Or.inl ⟨hc.right_new, hc.high_new⟩
  · intro n hn x hx
    rcases (show n < f.size ∨ n = f.size by omega) with hn | rfl
    · rw [hc.high_old n hn] at hx
      rw [hc.low_old n hn]
      exact h.nonempty n hn x hx
    · simp [hc.high_new] at hx
  · intro a ha b hb hl hne
    rcases (show a < f.size ∨ a = f.size by omega) with ha | rfl <;>
      rcases (show b < f.size ∨ b = f.size by omega) with hb | rfl
    · rw [hc.level_old a ha, hc.level_old b hb] at hl
      rw [hc.high_old a ha, hc.high_old b hb, hc.low_old a ha, hc.low_old b hb]
      exact h.apart a ha b hb hl hne
    · have hlt := hc.level_new a ha
      rw [← hl, hc.level_old a ha] at hlt
      exact absurd hlt (lt_irrefl _)
    · have hlt := hc.level_new b hb
      rw [hl, hc.level_old b hb] at hlt
      exact absurd hlt (lt_irrefl _)
    · exact absurd rfl hne

end Fences

end Fences

section Separators

universe u v

variable {K : Type u} {N : Type v} {P P' : Option K → N → Option K → Prop}
  {lo hi : Option K} {l r : List K} {a b : List N} {c new : N} {sep : K}

/-- Child `i` of `cs` satisfies `P` with the bounds that the separators give it. -/
def Spans (P : Option K → N → Option K → Prop) : Option K → List K → List N → Option K → Prop
  | lo, [], [c], hi => P lo c hi
  | lo, s :: ss, c :: cs, hi => P lo c (some s) ∧ Spans P (some s) ss cs hi
  | _, _, _, _ => False

variable {cs : List N} {keys : List K}

theorem spans_nil : Spans P lo [] cs hi ↔ ∃ c, cs = [c] ∧ P lo c hi := by
  match cs with
  | [] => simp [Spans]
  | [c] => simp [Spans]
  | c :: d :: cs => simp [Spans]

theorem spans_cons {s : K} {ss : List K} : Spans P lo (s :: ss) cs hi ↔
      ∃ c cs', cs = c :: cs' ∧ P lo c (some s) ∧ Spans P (some s) ss cs' hi := by
  cases cs with
  | nil => simp [Spans]
  | cons c cs => simp [Spans]

theorem Spans.length (h : Spans P lo keys cs hi) : cs.length = keys.length + 1 := by
  induction keys generalizing lo cs with
  | nil =>
    obtain ⟨c, rfl, _⟩ := spans_nil.mp h
    rfl
  | cons s ss ih =>
    obtain ⟨c, cs', rfl, _, h'⟩ := spans_cons.mp h
    simp [ih h']

theorem Spans.mono (h : Spans P lo keys cs hi)
    (hP : ∀ lo, ∀ c ∈ cs, ∀ hi, P lo c hi → P' lo c hi) : Spans P' lo keys cs hi := by
  induction keys generalizing lo cs with
  | nil =>
    obtain ⟨c, rfl, hc⟩ := spans_nil.mp h
    exact spans_nil.mpr ⟨c, rfl, hP _ c (by simp) _ hc⟩
  | cons s ss ih =>
    obtain ⟨c, cs', rfl, hc, h'⟩ := spans_cons.mp h
    refine spans_cons.mpr ⟨c, cs', rfl, hP _ c (by simp) _ hc, ih h' ?_⟩
    intro lo x hx hi
    exact hP lo x (mem_cons_of_mem c hx) hi

/-- The bounds of a child are separators or the bounds of the node. -/
theorem Spans.exists_of_mem (h : Spans P lo keys cs hi) (hc : c ∈ cs) : ∃ lo' hi', P lo' c hi' ∧
      (lo' = lo ∨ ∃ x ∈ keys, lo' = some x) ∧ (hi' = hi ∨ ∃ y ∈ keys, hi' = some y) := by
  induction keys generalizing lo cs with
  | nil =>
    obtain ⟨d, rfl, hd⟩ := spans_nil.mp h
    obtain rfl : c = d := by simpa using hc
    exact ⟨lo, hi, hd, Or.inl rfl, Or.inl rfl⟩
  | cons s ss ih =>
    obtain ⟨d, cs', rfl, hd, h'⟩ := spans_cons.mp h
    rcases mem_cons.mp hc with rfl | hc
    · exact ⟨lo, some s, hd, Or.inl rfl, Or.inr ⟨s, mem_cons_self, rfl⟩⟩
    · obtain ⟨lo', hi', hP, hlo, hhi⟩ := ih h' hc
      refine ⟨lo', hi', hP, Or.inr ?_, ?_⟩
      · rcases hlo with rfl | ⟨x, hx, rfl⟩
        · exact ⟨s, mem_cons_self, rfl⟩
        · exact ⟨x, mem_cons_of_mem s hx, rfl⟩
      · rcases hhi with rfl | ⟨y, hy, rfl⟩
        · exact Or.inl rfl
        · exact Or.inr ⟨y, mem_cons_of_mem s hy, rfl⟩

/-- The first child starts where the node does. -/
theorem Spans.head (h : Spans P lo keys cs hi) : ∃ c cs' hi', cs = c :: cs' ∧ P lo c hi' := by
  cases keys with
  | nil =>
    obtain ⟨c, rfl, hc⟩ := spans_nil.mp h
    exact ⟨c, [], hi, rfl, hc⟩
  | cons s ss =>
    obtain ⟨c, cs', rfl, hc, _⟩ := spans_cons.mp h
    exact ⟨c, cs', some s, rfl, hc⟩

/-- Cutting sorted separators at a gap singles out one child; its bounds are
the two ends of the gap. -/
theorem Spans.focus [LinearOrder K] (h : Spans P lo (l ++ r) cs hi)
    (hsorted : (l ++ r).Pairwise (· < ·)) :
    ∃ a c b lo' hi', cs = a ++ c :: b ∧ a.length = l.length ∧ P lo' c hi' ∧
      (lo' = lo ∨ ∃ x ∈ l, lo' = some x) ∧ (hi' = hi ∨ ∃ y ∈ r, hi' = some y) ∧
      (∀ x ∈ l, ∃ y, lo' = some y ∧ x ≤ y) ∧ ∀ y ∈ r, ∃ x, hi' = some x ∧ x ≤ y := by
  induction l generalizing lo cs with
  | nil =>
    cases r with
    | nil =>
      obtain ⟨c, rfl, hc⟩ := spans_nil.mp h
      exact ⟨[], c, [], lo, hi, rfl, rfl, hc, Or.inl rfl, Or.inl rfl, by simp, by simp⟩
    | cons s r =>
      obtain ⟨c, cs', rfl, hc, _⟩ := spans_cons.mp h
      refine ⟨[], c, cs', lo, some s, rfl, rfl, hc, Or.inl rfl,
        Or.inr ⟨s, mem_cons_self, rfl⟩, by simp, ?_⟩
      intro y hy
      rcases mem_cons.mp hy with rfl | hy
      · exact ⟨y, rfl, le_refl y⟩
      · exact ⟨s, rfl, le_of_lt ((pairwise_cons.mp hsorted).1 y hy)⟩
  | cons s l ih =>
    obtain ⟨d, cs', rfl, _, h'⟩ := spans_cons.mp h
    obtain ⟨hs, hsorted'⟩ := pairwise_cons.mp hsorted
    obtain ⟨a, c, b, lo', hi', rfl, hlen, hc, hlo, hhi, hleft, hright⟩ := ih h' hsorted'
    refine ⟨d :: a, c, b, lo', hi', rfl, by simp [hlen], hc, Or.inr ?_, hhi, ?_, hright⟩
    · rcases hlo with rfl | ⟨x, hx, rfl⟩
      · exact ⟨s, mem_cons_self, rfl⟩
      · exact ⟨x, mem_cons_of_mem s hx, rfl⟩
    · intro x hx
      rcases mem_cons.mp hx with rfl | hx
      · rcases hlo with rfl | ⟨y, hy, rfl⟩
        · exact ⟨x, rfl, le_refl x⟩
        · exact ⟨y, rfl, le_of_lt (hs y (mem_append_left r hy))⟩
      · exact hleft x hx

/-- Giving one child a new right neighbour that takes over the upper part of
its piece. -/
theorem Spans.insert (h : Spans P lo (l ++ r) (a ++ c :: b) hi) (hlen : a.length = l.length)
    (hother : ∀ lo, ∀ x ∈ a ++ b, ∀ hi, P lo x hi → P' lo x hi)
    (hsplit : ∀ lo hi, P lo c hi → P' lo c (some sep) ∧ P' (some sep) new hi) :
    Spans P' lo (l ++ sep :: r) (a ++ c :: new :: b) hi := by
  induction l generalizing lo a with
  | nil =>
    obtain rfl : a = [] := length_eq_zero_iff.mp (by simpa using hlen)
    cases r with
    | nil =>
      obtain ⟨d, hcs, hd⟩ := spans_nil.mp h
      obtain ⟨rfl, rfl⟩ : c = d ∧ b = [] := by simpa using hcs
      exact ⟨(hsplit _ _ hd).1, (hsplit _ _ hd).2⟩
    | cons s r =>
      obtain ⟨d, cs', hcs, hd, h'⟩ := spans_cons.mp h
      obtain ⟨rfl, rfl⟩ : c = d ∧ b = cs' := by simpa using hcs
      refine ⟨(hsplit _ _ hd).1, (hsplit _ _ hd).2, h'.mono ?_⟩
      intro lo x hx hi
      exact hother lo x (by simpa using hx) hi
  | cons s l ih =>
    cases a with
    | nil => simp at hlen
    | cons d a =>
      obtain ⟨hd, h'⟩ : P lo d (some s) ∧ Spans P (some s) (l ++ r) (a ++ c :: b) hi := h
      refine ⟨hother _ d (by simp) _ hd, ih h' (by simpa using hlen) ?_⟩
      intro lo x hx hi
      exact hother lo x (mem_cons_of_mem d hx) hi

/-- Cutting at a separator cuts the children into those of the two halves. -/
theorem spans_append (hlen : a.length = l.length + 1) :
    Spans P lo (l ++ sep :: r) (a ++ b) hi ↔
      Spans P lo l a (some sep) ∧ Spans P (some sep) r b hi := by
  induction l generalizing lo a with
  | nil =>
    obtain ⟨c, rfl⟩ := length_eq_one_iff.mp (by simpa using hlen)
    simp [Spans]
  | cons s l ih =>
    cases a with
    | nil => simp at hlen
    | cons d a =>
      simp only [cons_append, Spans]
      rw [ih (by simpa using hlen), and_assoc]

theorem Spans.map_low {low : N → Option K}
    (h : Spans P lo keys cs hi) (hP : ∀ lo c hi, P lo c hi → low c = lo) :
    cs.map low = lo :: keys.map some := by
  induction keys generalizing lo cs with
  | nil =>
    obtain ⟨c, rfl, hc⟩ := spans_nil.mp h
    simp [hP _ _ _ hc]
  | cons s ss ih =>
    obtain ⟨c, cs', rfl, hc, h'⟩ := spans_cons.mp h
    simp [hP _ _ _ hc, ih h']

/-- Children told apart by their lower fences are all different. -/
theorem Spans.nodup [LinearOrder K] {low : N → Option K}
    (h : Spans P lo keys cs hi) (hP : ∀ lo c hi, P lo c hi → low c = lo)
    (hsorted : keys.Pairwise (· < ·)) (hlo : ∀ k ∈ keys, LowLt lo (some k)) : cs.Nodup := by
  apply Nodup.of_map low
  rw [h.map_low hP, nodup_cons]
  constructor
  · intro hmem
    obtain ⟨k, hk, rfl⟩ := mem_map.mp hmem
    exact lowLt_irrefl _ (hlo k hk)
  · exact (hsorted.imp ne_of_lt).map some (fun _ _ hne heq => hne (Option.some.inj heq))

end Separators

end Oikos
