/-
The first occurrence of a pattern in a text, and the reading of chains of infix operators
that associate to the left.
-/
import Mathlib.Data.List.Basic
import Mathlib.Data.List.Infix

namespace Oikos

open List

section Chains

variable {τ β : Type}

/-- Takes a value off the front of a list of tokens. -/
abbrev Reader (τ β : Type) := List τ → Option (β × List τ)

def leftAssocLoop (opOf : τ → Option (β → β → β)) (next : Reader τ β) : Nat → β → Reader τ β
  | _, lhs, [] => some (lhs, [])
  | fuel, lhs, t :: ts =>
    match opOf t with
    | none => some (lhs, t :: ts)
    | some op =>
      match fuel with
      | 0 => none
      | fuel + 1 =>
        (next ts).bind fun r => leftAssocLoop opOf next fuel (op lhs r.1) r.2

/-- A value, and after each operator one more; each operator takes all before it for
its left side. -/
def leftAssoc (opOf : τ → Option (β → β → β)) (next : Reader τ β) : Reader τ β :=
  fun ts => (next ts).bind fun r => leftAssocLoop opOf next ts.length r.1 r.2

/-- The reader takes exactly these tokens, for this value, when one of `follow` comes next. -/
def ReadsOff (follow : Option τ → Prop) (p : Reader τ β) (ts : List τ) (e : β) : Prop :=
  ∀ rest, follow rest.head? → p (ts ++ rest) = some (e, rest)

/-- A chain of `n` operators between operands, grouped to the left. -/
inductive Chain (opOf : τ → Option (β → β → β)) (operand : List τ → β → Prop) :
    Nat → List τ → β → Prop where
  | one {ts : List τ} {e : β} (h : operand ts e) : Chain opOf operand 0 ts e
  | snoc {n : Nat} {ts ts' : List τ} {t : τ} {op : β → β → β} {lhs rhs : β}
      (hlhs : Chain opOf operand n ts lhs) (hop : opOf t = some op) (hrhs : operand ts' rhs) :
      Chain opOf operand (n + 1) (ts ++ t :: ts') (op lhs rhs)

section Chains

variable {opOf : τ → Option (β → β → β)} {next : Reader τ β} {follow follow' : Option τ → Prop}
  {operand : List τ → β → Prop} {ts rest : List τ} {e : β} {n : Nat}

theorem leftAssocLoop_stop {lhs : β} (fuel : Nat) (h : ∀ t, rest.head? = some t → opOf t = none) :
    leftAssocLoop opOf next fuel lhs rest = some (lhs, rest) := by
  cases rest with
  | nil => rw [leftAssocLoop]
  | cons t rest => rw [leftAssocLoop, h t rfl]

theorem leftAssocLoop_step {t : τ} {op : β → β → β} {lhs rhs : β} {fuel : Nat} {ts : List τ}
    (hop : opOf t = some op) (hnext : next ts = some (rhs, rest)) :
    leftAssocLoop opOf next (fuel + 1) lhs (t :: ts) =
      leftAssocLoop opOf next fuel (op lhs rhs) rest := by
  rw [leftAssocLoop, hop]
  simp only [hnext, Option.bind_some]

theorem Chain.le_length (h : Chain opOf operand n ts e) : n ≤ ts.length := by
  induction h with
  | one _ => exact Nat.zero_le _
  | snoc _ _ _ ih =>
    rw [length_append, length_cons]
    omega

theorem Chain.loop (h : Chain opOf operand n ts e)
    (hoperand : ∀ ts e, operand ts e → ReadsOff follow next ts e)
    (hop : ∀ t op, opOf t = some op → follow (some t)) (hrest : follow rest.head?) (fuel : Nat) :
    ((next (ts ++ rest)).bind fun r => leftAssocLoop opOf next (n + fuel) r.1 r.2) =
      leftAssocLoop opOf next fuel e rest := by
  induction h generalizing rest fuel with
  | one h => rw [hoperand _ _ h rest hrest, Option.bind_some, Nat.zero_add]
  | @snoc n ts ts' t op lhs rhs _ ht hrhs ih =>
    have hnext : follow (t :: (ts' ++ rest)).head? := hop t op ht
    rw [append_assoc, cons_append, Nat.add_assoc, Nat.add_comm 1 fuel,
      ih hnext (fuel + 1),
      leftAssocLoop_step ht (hoperand _ _ hrhs rest hrest)]

theorem Chain.readsOff (h : Chain opOf operand n ts e)
    (hoperand : ∀ ts e, operand ts e → ReadsOff follow next ts e)
    (hop : ∀ t op, opOf t = some op → follow (some t)) (hfollow : ∀ t, follow' t → follow t)
    (hstop : ∀ t, follow' (some t) → opOf t = none) :
    ReadsOff follow' (leftAssoc opOf next) ts e := by
  intro rest hrest
  have hfuel : (ts ++ rest).length = n + (ts.length - n + rest.length) := by
    have hle := h.le_length
    rw [length_append]
    omega
  rw [leftAssoc, hfuel, h.loop hoperand hop (hfollow _ hrest)]
  exact leftAssocLoop_stop _ fun t ht => hstop t (ht ▸ hrest)

end Chains

end Chains

section Occurrences

universe u

variable {α : Type u} [DecidableEq α]

/-- What stands before and after the first occurrence of a pattern. -/
def splitFirst (pat : List α) : List α → Option (List α × List α)
  | [] => if pat.isPrefixOf [] then some ([], []) else none
  | c :: cs =>
    if pat.isPrefixOf (c :: cs) then some ([], (c :: cs).drop pat.length)
    else (splitFirst pat cs).map fun parts => (c :: parts.1, parts.2)

omit [DecidableEq α] in
/-- Whether a pattern begins a text shows in as many elements as the pattern has. -/
theorem prefix_append_iff {pat l r : List α} (h : pat.length ≤ l.length) :
    pat <+: l ++ r ↔ pat <+: l :=
  ⟨fun hpre => prefix_of_prefix_length_le hpre (prefix_append l r) h,
    fun hpre => hpre.trans (prefix_append l r)⟩

/-- The pattern does not occur in what precedes, not even so that it overlaps with an
occurrence right after it. -/
def Fresh (pat before : List α) : Prop :=
  ¬pat <:+: before ++ pat.dropLast

variable {pat before after text : List α}

omit [DecidableEq α] in
theorem fresh_nil (hpat : pat ≠ []) : Fresh pat [] := by
  intro hwithin
  have hlength := hwithin.length_le
  have hpos := length_pos_of_ne_nil hpat
  simp only [nil_append, length_dropLast] at hlength
  omega

omit [DecidableEq α] in
theorem fresh_cons {c : α} (hpat : pat ≠ []) (after : List α) :
    Fresh pat (c :: before) ↔ ¬pat <+: c :: before ++ pat ++ after ∧ Fresh pat before := by
  have hlength : pat.length ≤ (c :: before ++ pat.dropLast).length := by
    simp only [cons_append, length_cons, length_append, length_dropLast]
    omega
  have hsplit : c :: before ++ pat ++ after = (c :: before ++ pat.dropLast) ++
    (pat.getLast hpat :: after) := by
    conv_lhs => rw [← dropLast_append_getLast hpat]
    simp
  rw [Fresh, Fresh, cons_append, infix_cons_iff, hsplit,
    prefix_append_iff hlength, not_or]
  rfl

theorem splitFirst_eq_some (hpat : pat ≠ []) :
    splitFirst pat text = some (before, after) ↔ text = before ++ pat ++ after ∧
    Fresh pat before := by
  induction text generalizing before with
  | nil =>
    have hfalse : ¬pat.isPrefixOf [] = true := by
      rw [List.isPrefixOf_iff_prefix, prefix_nil]
      exact hpat
    rw [splitFirst, if_neg hfalse]
    simp [hpat]
  | cons c cs ih =>
    rw [splitFirst]
    by_cases hpre : pat.isPrefixOf (c :: cs) = true
    · rw [if_pos hpre]
      rw [List.isPrefixOf_iff_prefix] at hpre
      obtain ⟨rest, hrest⟩ := hpre
      have hdrop : (c :: cs).drop pat.length = rest := by rw [← hrest, drop_left]
      rw [hdrop]
      constructor
      · intro h
        cases h
        exact ⟨hrest.symm, fresh_nil hpat⟩
      · rintro ⟨htext, hfresh⟩
        cases before with
        | nil =>
          rw [← hrest, nil_append] at htext
          rw [append_cancel_left htext]
        | cons b before =>
          obtain ⟨hno, _⟩ := (fresh_cons hpat after).mp hfresh
          rw [← htext] at hno
          exact absurd ⟨rest, hrest⟩ hno
    · rw [if_neg hpre]
      rw [List.isPrefixOf_iff_prefix] at hpre
      constructor
      · intro h
        obtain ⟨⟨before', after'⟩, hparts, heq⟩ := Option.map_eq_some_iff.mp h
        cases heq
        obtain ⟨rfl, hfresh⟩ := ih.mp hparts
        refine ⟨rfl, (fresh_cons hpat after').mpr ⟨?_, hfresh⟩⟩
        simpa using hpre
      · rintro ⟨htext, hfresh⟩
        cases before with
        | nil =>
          rw [htext] at hpre
          exact absurd (prefix_append pat after) hpre
        | cons b before =>
          obtain ⟨rfl, rfl⟩ := cons_eq_cons.mp htext
          obtain ⟨_, hfresh⟩ := (fresh_cons hpat after).mp hfresh
          rw [ih.mpr ⟨rfl, hfresh⟩]
          rfl

omit [DecidableEq α] in
/-- An element that the pattern does not have separates its occurrences. -/
theorem infix_append_cons_iff {sep : α} {l r : List α} (hsep : sep ∉ pat) :
    pat <:+: l ++ sep :: r ↔ pat <:+: l ∨ pat <:+: r := by
  constructor
  · rintro ⟨x, y, hxy⟩
    rw [append_assoc] at hxy
    rcases append_eq_append_iff.mp hxy with ⟨z, hl, hz⟩ | ⟨z, hx, hz⟩
    · -- the occurrence begins before the end of `l`
      rcases append_eq_append_iff.mp hz with ⟨w, hw, hrest⟩ | ⟨w, hw, hrest⟩
      · exact Or.inl ⟨x, w, by rw [hl, hw, append_assoc]⟩
      · cases w with
        | nil =>
          rw [append_nil] at hw
          exact Or.inl ⟨x, [], by rw [hl, ← hw, append_nil]⟩
        | cons c w =>
          obtain ⟨rfl, _⟩ := cons_eq_cons.mp hrest
          exact absurd (by rw [hw]; simp) hsep
    · cases z with
      | nil =>
        rw [nil_append] at hz
        cases pat with
        | nil => exact Or.inl (List.nil_infix)
        | cons c pat =>
          obtain ⟨rfl, _⟩ := cons_eq_cons.mp hz
          exact absurd mem_cons_self hsep
      | cons c z =>
        obtain ⟨rfl, hr⟩ := cons_eq_cons.mp hz
        exact Or.inr ⟨z, y, (append_assoc z pat y).trans hr.symm⟩
  · rintro (h | h)
    · exact h.trans (prefix_append l _).isInfix
    · exact h.trans ((suffix_cons sep r).trans (suffix_append l _)).isInfix

end Occurrences

end Oikos
