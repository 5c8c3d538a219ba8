/-
What the text of an expression is read back as. No printer writes parentheses, so
every chain of operators of one tightness comes back grouped to the left.
-/
import Oikos.Telos.Reading

namespace Oikos.Telos

open List Option

namespace Expr

/-- How tightly the text of an expression holds together. A minus sign in front of a
product is read as one in front of its first factor. -/
def tightness : Expr → Nat
  | .bin op _ _ => op.tightness
  | .unary _ e => min 6 e.tightness
  | _ => 7

/-- The expressions that are read back: numbers, variables, fields, elements and
operators. A number is what the lexer makes of digits. -/
def Readable : Expr → Prop
  | .int n => 0 ≤ n ∧ n < 2 ^ 63
  | .var _ | .field _ _ => True
  | .index (.var _) (.int n) | .index (.field _ _) (.int n) => 0 ≤ n ∧ n < 2 ^ 63
  | .unary _ e => e.Readable
  | .bin _ lhs rhs => lhs.Readable ∧ rhs.Readable
  | _ => False

/-- No operator stands under one that binds tighter, and no comparison under another. -/
def Layered : Expr → Prop
  | .unary _ e => e.Layered ∧ 5 ≤ e.tightness
  | .bin op lhs rhs =>
    (lhs.Layered ∧ op.tightness ≤ lhs.tightness ∧ (op.tightness = 3 → lhs.tightness ≠ 3)) ∧
      rhs.Layered ∧ op.tightness ≤ rhs.tightness ∧ (op.tightness = 3 → rhs.tightness ≠ 3)
  | _ => True

/-- Puts an operator and its left side in front of the first operand of a chain. -/
def graft (op : BinOp) (lhs : Expr) : Expr → Expr
  | .bin op' l r =>
    if op'.tightness = op.tightness then .bin op' (graft op lhs l) r
    else .bin op lhs (.bin op' l r)
  | e => .bin op lhs e

/-- Puts a minus sign in front of the first factor of a product. -/
def negate : Expr → Expr
  | .bin op l r => if op.tightness = 5 then .bin op l.negate r else .unary .neg (.bin op l r)
  | e => .unary .neg e

/-- The expression that stands in the text: every chain grouped to the left. -/
def regroup : Expr → Expr
  | .unary _ e => e.regroup.negate
  | .bin op lhs rhs => graft op lhs.regroup rhs.regroup
  | e => e

def tokens : Expr → List Token
  | .int n => [.int n]
  | .var v => [.word v]
  | .field b f => [.word b, .dot, .word f]
  | .index receiver i => receiver.tokens ++ .lsquare :: (i.tokens ++ [.rsquare])
  | .unary _ e => .bin .sub :: e.tokens
  | .bin op lhs rhs => lhs.tokens ++ .bin op :: rhs.tokens
  | _ => []

theorem one_le_tightness (e : Expr) : 1 ≤ e.tightness := by
  induction e using Expr.operatorInduction with
  | unary op e ih => exact Nat.le_min.mpr ⟨by decide, ih⟩
  | bin op lhs rhs _ _ =>
    change 1 ≤ op.tightness
    cases op <;> decide
  | _ => exact Nat.le_add_left 1 6

section Grouping

variable {op op' : BinOp} {e lhs rhs : Expr}

theorem graft_of_ne (h : e.tightness ≠ op.tightness) : graft op lhs e = .bin op lhs e := by
  cases e with
  | bin op' l r => exact if_neg h
  | _ => rfl

theorem negate_of_ne (h : e.tightness ≠ 5) : negate e = .unary .neg e := by
  cases e with
  | bin op' l r => exact if_neg h
  | _ => rfl

theorem tightness_graft : (graft op lhs e).tightness = op.tightness := by
  cases e with
  | bin op' l r =>
    rw [graft]
    split
    · next h => exact h
    · rfl
  | _ => rfl

theorem tightness_negate (h : 5 ≤ e.tightness) : e.negate.tightness = min 6 e.tightness := by
  by_cases hfive : e.tightness = 5
  · cases e with
    | bin op l r =>
      have hop : op.tightness = 5 := hfive
      rw [negate, if_pos hop]
      exact hop.trans (by rw [tightness, hop]; rfl)
    | unary op e => cases op; rfl
    | _ => rfl
  · rw [negate_of_ne hfive]
    rfl

theorem tightness_regroup (h : e.Layered) : e.regroup.tightness = e.tightness := by
  induction e using Expr.operatorInduction with
  | unary op e ih =>
    have hregroup := ih h.1
    rw [regroup, tightness_negate (hregroup ▸ h.2), hregroup]
    rfl
  | bin op lhs rhs _ _ => exact tightness_graft
  | _ => rfl

theorem graft_graft (h : op'.tightness = op.tightness) (z : Expr) :
    graft op lhs (graft op' e z) = graft op' (graft op lhs e) z := by
  induction z using Expr.operatorInduction with
  | bin op'' l r ihl _ =>
    by_cases hop : op''.tightness = op'.tightness
    · rw [graft, if_pos hop, graft, if_pos (hop.trans h), ihl, graft, if_pos hop]
    · have hne : (Expr.bin op'' l r).tightness ≠ op'.tightness := hop
      rw [graft_of_ne hne, graft_of_ne hne, graft, if_pos h]
  | _ => exact if_pos h

theorem negate_graft (h : op.tightness = 5) (z : Expr) :
    negate (graft op e z) = graft op e.negate z := by
  induction z using Expr.operatorInduction with
  | bin op' l r ihl _ =>
    by_cases hop : op'.tightness = op.tightness
    · rw [graft, if_pos hop, negate, if_pos (hop.trans h), ihl, graft, if_pos hop]
    · have hne : (Expr.bin op' l r).tightness ≠ op.tightness := hop
      rw [graft_of_ne hne, graft_of_ne hne, negate, if_pos h]
  | _ => exact if_pos h

end Grouping

end Expr

/-! ### Lexing a text -/

/-- The lexer makes these tokens of these characters. -/
def Lexes (cs : List Char) (ts : List Token) : Prop :=
  ∀ fuel, cs.length ≤ fuel → lex fuel cs = some ts

/-- No word and no number goes on here. -/
def Breaks (cs : List Char) : Prop :=
  ∀ c, cs.head? = some c → isNameChar c = false

section Lexing

variable {c : Char} {cs ds rest : List Char} {t : Token} {ts : List Token}

theorem lexes_nil : Lexes [] [] := by
  intro fuel _
  cases fuel <;> rfl

theorem Lexes.blank (h : Lexes cs ts) (hc : c.isWhitespace = true) : Lexes (c :: cs) ts := by
  intro fuel hfuel
  cases fuel with
  | zero => exact absurd hfuel (Nat.not_succ_le_zero _)
  | succ fuel =>
    rw [lex, if_pos hc]
    exact h fuel (Nat.le_of_succ_le_succ hfuel)

theorem Lexes.token (h : Lexes rest ts) (hblank : c.isWhitespace = false)
    (hcomment : (c == '/' && cs.head? == some '/') = false) (hscan : scan c cs = some (t, rest))
    (hle : rest.length ≤ cs.length) : Lexes (c :: cs) (t :: ts) := by
  intro fuel hfuel
  cases fuel with
  | zero => exact absurd hfuel (Nat.not_succ_le_zero _)
  | succ fuel =>
    have hrest := h fuel (hle.trans (Nat.le_of_succ_le_succ hfuel))
    rw [lex, if_neg (by simp [hblank]), if_neg (by simp [hcomment]), hscan, bind_some, hrest]
    rfl

theorem takeWhile_append {p : Char → Bool} (hds : ∀ d ∈ ds, p d = true)
    (hrest : ∀ c, rest.head? = some c → p c = false) :
    (ds ++ rest).takeWhile p = ds ∧ (ds ++ rest).dropWhile p = rest := by
  induction ds with
  | nil =>
    cases rest with
    | nil => exact ⟨rfl, rfl⟩
    | cons c rest => simp [hrest c rfl]
  | cons d ds ih =>
    obtain ⟨htake, hdrop⟩ := ih fun c hc => hds c (mem_cons_of_mem d hc)
    simp [hds d mem_cons_self, htake, hdrop]

theorem not_isWhitespace (h : isNameChar c = true) : c.isWhitespace = false := by
  by_contra hblank
  rw [Bool.not_eq_false] at hblank
  simp only [Char.isWhitespace, Bool.or_eq_true, decide_eq_true_eq] at hblank
  rcases hblank with ((rfl | rfl) | rfl) | rfl <;> exact absurd h (by decide)

theorem ne_slash (h : isNameChar c = true) : (c == '/' && cs.head? == some '/') = false := by
  have hne : (c == '/') = false := by
    rw [beq_eq_false_iff_ne]
    rintro rfl
    exact absurd h (by decide)
  rw [hne, Bool.false_and]

theorem isNameChar_of_isNameStart (h : isNameStart c = true) : isNameChar c = true := by
  rw [isNameStart, Bool.or_eq_true] at h
  rw [isNameChar, Char.isAlphanum, Bool.or_eq_true, Bool.or_eq_true]
  exact h.imp Or.inl id

theorem isNameChar_of_isDigit (h : c.isDigit = true) : isNameChar c = true := by
  rw [isNameChar, Char.isAlphanum, h, Bool.or_true, Bool.true_or]

theorem Lexes.word {v : Name} (h : Lexes rest ts) (hrest : Breaks rest) :
    Lexes (v.text.toList ++ rest) (.word v :: ts) := by
  obtain ⟨c, cs, htext⟩ := v.exists_cons
  have hstart := Name.isNameStart_of_cons htext
  have hchars : ∀ d ∈ cs, isNameChar d = true := fun d hd =>
    Name.isNameChar_of_mem (htext ▸ mem_cons_of_mem c hd)
  obtain ⟨htake, hdrop⟩ := takeWhile_append hchars hrest
  have hscan : scan c (cs ++ rest) = some (.word v, rest) := by
    rw [scan, dif_pos hstart]
    congr 2
    · congr 1
      apply Name.ext_text
      change String.ofList (c :: (cs ++ rest).takeWhile isNameChar) = v.text
      rw [htake, ← htext, String.ofList_toList]
  rw [htext, cons_append]
  have hc := isNameChar_of_isNameStart hstart
  have hle : rest.length ≤ (cs ++ rest).length := by
    rw [length_append]
    exact Nat.le_add_left _ _
  exact h.token (not_isWhitespace hc) (ne_slash hc) hscan hle

theorem Lexes.int {n : Int} (h : Lexes rest ts) (hrest : Breaks rest) (hn : 0 ≤ n ∧ n < 2 ^ 63) :
    Lexes ((toString n).toList ++ rest) (.int n :: ts) := by
  obtain ⟨m, rfl⟩ := Int.eq_ofNat_of_zero_le hn.1
  have hm : m < 2 ^ 63 := by
    have hlt := hn.2
    norm_cast at hlt
  rw [toList_toString_natCast]
  have hdigits : ∀ d ∈ Nat.toDigits 10 m, d.isDigit = true := fun d hd =>
    Nat.isDigit_of_mem_toDigits (by decide) (by decide) hd
  have hparse := parseDigits_toDigits m
  cases htext : Nat.toDigits 10 m with
  | nil =>
    rw [htext] at hparse
    cases hparse
  | cons c cs =>
    rw [htext] at hdigits hparse
    have hc : c.isDigit = true := hdigits c mem_cons_self
    have hstop : ∀ d, rest.head? = some d → d.isDigit = false := by
      intro d hd
      by_contra hdigit
      rw [Bool.not_eq_false] at hdigit
      have hname := isNameChar_of_isDigit hdigit
      rw [hrest d hd] at hname
      cases hname
    obtain ⟨htake, hdrop⟩ :=
      takeWhile_append (fun d hd => hdigits d (mem_cons_of_mem c hd)) hstop
    have hscan : scan c (cs ++ rest) = some (.int m, rest) := by
      rw [scan, dif_neg (by simp [isNameStart_of_isDigit hc]), if_pos hc, htake, hdrop, intToken,
        hparse, bind_some, if_pos hm]
      rfl
    have hchar := isNameChar_of_isDigit hc
    have hle : rest.length ≤ (cs ++ rest).length := by
      rw [length_append]
      exact Nat.le_add_left _ _
    exact h.token (not_isWhitespace hchar) (ne_slash hchar) hscan hle

/-- An operator between two blanks. -/
theorem Lexes.op (h : Lexes rest ts) (op : BinOp) :
    Lexes (" ".toList ++ (op.text.toList ++ (" ".toList ++ rest))) (.bin op :: ts) := by
  have hrest : Lexes (' ' :: rest) ts := h.blank rfl
  refine Lexes.blank ?_ rfl
  cases op
  all_goals
    first
    | exact hrest.token rfl rfl rfl (le_refl _)
    | exact hrest.token rfl rfl rfl (Nat.le_succ _)

/-- A character that begins neither a word nor a number stands alone in front of what it
makes no pair with. -/
theorem scan_symbol {c d : Char} {cs : List Char} (hstart : isNameStart c = false)
    (hdigit : c.isDigit = false) (htwo : twoCharToken c d = none) :
    scan c (d :: cs) = (charToken c).map (·, d :: cs) := by
  have hnone : (d :: cs).head?.bind (twoCharToken c) = none := htwo
  rw [scan, dif_neg (Bool.eq_false_iff.mp hstart), if_neg (Bool.eq_false_iff.mp hdigit), hnone]

/-- A minus sign in front of no `=` and no `>`. -/
theorem Lexes.minus (h : Lexes (c :: cs) ts) (hc : isNameChar c = true ∨ c = '-') :
    Lexes ('-' :: c :: cs) (.bin .sub :: ts) := by
  refine h.token rfl rfl ?_ (le_refl _)
  have htwo : twoCharToken '-' c = none := by
    rcases hc with hc | rfl
    · unfold twoCharToken
      split
      all_goals first | rfl | (cases hc)
    · rfl
  exact scan_symbol rfl rfl htwo

end Lexing

/-- A text starts with a character of a word or with a minus sign. -/
theorem head_renderExpr {e : Expr} (h : e.Readable) :
    ∃ c cs, (renderExpr e).toList = c :: cs ∧ (isNameChar c = true ∨ c = '-') := by
  induction e using Expr.operatorInduction with
  | int n =>
    obtain ⟨m, rfl⟩ := Int.eq_ofNat_of_zero_le h.1
    cases htext : Nat.toDigits 10 m with
    | nil =>
      have hparse := parseDigits_toDigits m
      rw [htext] at hparse
      cases hparse
    | cons c cs =>
      have hdigit : c.isDigit = true :=
        Nat.isDigit_of_mem_toDigits (by decide) (by decide) (htext ▸ mem_cons_self)
      exact ⟨c, cs, (toList_toString_natCast m).trans htext,
        Or.inl (isNameChar_of_isDigit hdigit)⟩
  | var v =>
    obtain ⟨c, cs, htext⟩ := v.exists_cons
    exact ⟨c, cs, htext, Or.inl (isNameChar_of_isNameStart (Name.isNameStart_of_cons htext))⟩
  | field b f =>
    obtain ⟨c, cs, htext⟩ := b.exists_cons
    refine ⟨c, cs ++ (".".toList ++ f.text.toList), ?_,
      Or.inl (isNameChar_of_isNameStart (Name.isNameStart_of_cons htext))⟩
    rw [renderExpr, String.toList_append, String.toList_append, htext, append_assoc,
      cons_append]
  | unary op e _ =>
    cases op
    refine ⟨'-', (renderExpr e).toList, ?_, Or.inr rfl⟩
    rw [renderExpr, String.toList_append]
    rfl
  | bin op lhs rhs ihl _ =>
    obtain ⟨c, cs, htext, hc⟩ := ihl h.1
    refine ⟨c, cs ++ (" ".toList ++ (op.text.toList ++ (" ".toList ++ (renderExpr rhs).toList))),
      ?_, hc⟩
    rw [renderExpr]
    simp only [String.toList_append, htext, cons_append, append_assoc]
  | index receiver i =>
    cases receiver with
    | var v =>
      obtain ⟨c, cs, htext⟩ := v.exists_cons
      refine ⟨c, cs ++ ("[".toList ++ ((renderExpr i).toList ++ "]".toList)), ?_,
        Or.inl (isNameChar_of_isNameStart (Name.isNameStart_of_cons htext))⟩
      rw [renderExpr, renderExpr]
      simp only [String.toList_append, htext, cons_append, append_assoc]
    | field b f =>
      obtain ⟨c, cs, htext⟩ := b.exists_cons
      refine ⟨c, cs ++ (".".toList ++ (f.text.toList ++
        ("[".toList ++ ((renderExpr i).toList ++ "]".toList)))), ?_,
        Or.inl (isNameChar_of_isNameStart (Name.isNameStart_of_cons htext))⟩
      rw [renderExpr, renderExpr]
      simp only [String.toList_append, htext, cons_append, append_assoc]
    | _ => exact h.elim
  | _ => exact h.elim

theorem breaks_cons {c : Char} {cs : List Char} (h : isNameChar c = false) : Breaks (c :: cs) := by
  intro d hd
  cases hd
  exact h

theorem Lexes.field {b f : Name} {rest : List Char} {ts : List Token} (h : Lexes rest ts)
    (hrest : Breaks rest) :
    Lexes (b.text.toList ++ (".".toList ++ (f.text.toList ++ rest)))
      (.word b :: .dot :: .word f :: ts) := by
  have hfield : Lexes (f.text.toList ++ rest) (.word f :: ts) := h.word hrest
  obtain ⟨c, cs, htext⟩ := f.exists_cons
  have hc := isNameChar_of_isNameStart (Name.isNameStart_of_cons htext)
  rw [htext, cons_append] at hfield ⊢
  have htwo : twoCharToken '.' c = none := by
    unfold twoCharToken
    split
    all_goals first | rfl | (cases hc)
  have hscan : scan '.' (c :: (cs ++ rest)) = some (.dot, c :: (cs ++ rest)) :=
    scan_symbol rfl rfl htwo
  exact (hfield.token rfl rfl hscan (le_refl _)).word (breaks_cons rfl)

theorem Lexes.element {n : Int} {rest : List Char} {ts : List Token} (h : Lexes rest ts)
    (hn : 0 ≤ n ∧ n < 2 ^ 63) :
    Lexes ("[".toList ++ ((toString n).toList ++ ("]".toList ++ rest)))
      (.lsquare :: .int n :: .rsquare :: ts) := by
  have hclose : Lexes (']' :: rest) (.rsquare :: ts) := by
    refine h.token rfl rfl ?_ (le_refl _)
    cases rest <;> rfl
  have hnumber := hclose.int (breaks_cons rfl) hn
  refine hnumber.token rfl rfl ?_ (le_refl _)
  change scan '[' ((toString n).toList ++ (']' :: rest)) = some (.lsquare, _)
  cases (toString n).toList ++ (']' :: rest) <;> rfl

/-- The text of an expression, in front of whatever is no part of a word. -/
theorem Lexes.renderExpr {e : Expr} (he : e.Readable) {rest : List Char} {ts : List Token}
    (h : Lexes rest ts) (hrest : Breaks rest) :
    Lexes ((renderExpr e).toList ++ rest) (e.tokens ++ ts) := by
  induction e using Expr.operatorInduction generalizing rest ts with
  | int n => exact h.int hrest he
  | var v => exact h.word hrest
  | field b f =>
    have hfield := h.field hrest (b := b) (f := f)
    rw [Telos.renderExpr]
    simpa only [String.toList_append, append_assoc, Expr.tokens, cons_append,
      nil_append] using hfield
  | unary op e ih =>
    cases op
    obtain ⟨c, cs, htext, hc⟩ := head_renderExpr (e := e) he
    have hinner := ih he h hrest
    rw [htext, cons_append] at hinner
    have hminus := hinner.minus hc
    rw [Telos.renderExpr, String.toList_append, htext]
    exact hminus
  | bin op lhs rhs ihl ihr =>
    have hrhs := (ihr he.2 h hrest).op op
    have hlhs := ihl he.1 hrhs (breaks_cons rfl)
    rw [Telos.renderExpr]
    simpa only [String.toList_append, append_assoc, Expr.tokens, cons_append] using hlhs
  | index receiver i =>
    cases receiver with
    | var v =>
      cases i with
      | int n =>
        have hword := (h.element he).word (v := v) (breaks_cons rfl)
        rw [Telos.renderExpr, Telos.renderExpr, Telos.renderExpr]
        simpa only [String.toList_append, append_assoc, Expr.tokens, cons_append,
          nil_append] using hword
      | _ => exact he.elim
    | field b f =>
      cases i with
      | int n =>
        have hfield := (h.element he).field (breaks_cons rfl) (b := b) (f := f)
        rw [Telos.renderExpr, Telos.renderExpr, Telos.renderExpr]
        simpa only [String.toList_append, append_assoc, Expr.tokens, cons_append,
          nil_append] using hfield
      | _ => exact he.elim
    | _ => exact he.elim
  | _ => exact he.elim

theorem lex_renderExpr {e : Expr} (h : e.Readable) :
    lex (renderExpr e).toList.length (renderExpr e).toList = some e.tokens := by
  have hlex := lexes_nil.renderExpr h (fun _ hc => by cases hc)
  rw [append_nil, append_nil] at hlex
  exact hlex _ (le_refl _)

/-! ### Parsing the tokens -/

def Token.tightness : Token → Nat
  | .bin op => op.tightness
  | .dot | .dotDot | .lsquare | .lparen | .question => 7
  | _ => 0

/-- What binds less tightly than `k` may come next. -/
def FollowAt (k : Nat) (t : Option Token) : Prop :=
  ∀ t', t = some t' → t'.tightness < k

theorem FollowAt.mono {j k : Nat} {t : Option Token} (h : FollowAt j t) (hle : j ≤ k) :
    FollowAt k t :=
  fun t' ht => (h t' ht).trans_le hle

theorem binOpAt_eq_none {k : Nat} {t : Token} (h : t.tightness < k) : binOpAt k t = none := by
  cases t with
  | bin op => exact if_neg (ne_of_lt h)
  | _ => rfl

theorem tightness_of_binOpAt {k : Nat} {t : Token} {op : Expr → Expr → Expr}
    (h : binOpAt k t = some op) : t.tightness = k := by
  cases t with
  | bin op' =>
    rw [binOpAt] at h
    split at h
    · next heq => exact heq
    · cases h
  | _ => cases h

/-- The parser of the operators that bind with tightness `k` or more. -/
def parseAt (inner : Reader Token Expr) : Nat → Reader Token Expr
  | 1 => parseOr inner
  | 2 => parseAnd inner
  | 3 => parseCmp inner
  | 4 => parseAdd inner
  | 5 => parseMul inner
  | _ => parseUnary inner

section Parsing

variable {inner : Reader Token Expr} {ts : List Token} {e : Expr} {k n : Nat} {op : BinOp}

/-- An operand of a chain of operators of tightness `k`. -/
abbrev Operand (inner : Reader Token Expr) (k : Nat) : List Token → Expr → Prop :=
  ReadsOff (FollowAt (k + 1)) (parseAt inner (k + 1))

def ChainAt (inner : Reader Token Expr) (k : Nat) (ts : List Token) (e : Expr) : Prop :=
  ∃ n, Chain (binOpAt k) (Operand inner k) n ts e

theorem readsOff_chain (h : Chain (binOpAt k) (Operand inner k) n ts e)
    (hparse : parseAt inner k = leftAssoc (binOpAt k) (parseAt inner (k + 1))) :
    ReadsOff (FollowAt k) (parseAt inner k) ts e := by
  rw [hparse]
  refine h.readsOff (fun _ _ h => h) ?_ (fun _ ht => ht.mono (Nat.le_succ k)) ?_
  · intro t _ ht t' htoken
    cases htoken
    rw [tightness_of_binOpAt ht]
    exact Nat.lt_succ_self k
  · intro t ht
    exact binOpAt_eq_none (ht t rfl)

/-- The tightnesses at which operators chain; comparisons do not. -/
def Chains (k : Nat) : Prop := k = 1 ∨ k = 2 ∨ k = 4 ∨ k = 5

theorem parseAt_chains (h : Chains k) :
    parseAt inner k = leftAssoc (binOpAt k) (parseAt inner (k + 1)) := by
  rcases h with rfl | rfl | rfl | rfl <;> rfl

theorem ChainAt.readsOff (h : ChainAt inner k ts e) (hk : Chains k) :
    ReadsOff (FollowAt k) (parseAt inner k) ts e := by
  obtain ⟨n, h⟩ := h
  exact readsOff_chain h (parseAt_chains hk)

theorem Operand.readsOff (h : Operand inner k ts e) (hk : 1 ≤ k) (hle : k ≤ 5) :
    ReadsOff (FollowAt k) (parseAt inner k) ts e := by
  by_cases hcmp : k = 3
  · subst hcmp
    intro rest hrest
    have hlhs := h rest (hrest.mono (Nat.le_succ 3))
    change (parseAdd inner (ts ++ rest)).bind _ = _
    change parseAdd inner (ts ++ rest) = _ at hlhs
    rw [hlhs, bind_some]
    cases rest with
    | nil => rfl
    | cons t rest => simp only [binOpAt_eq_none (hrest t rfl)]
  · have hchains : Chains k := by
      unfold Chains
      omega
    exact ChainAt.readsOff ⟨0, .one h⟩ hchains

theorem readsOff_lower {j : Nat} (h : ReadsOff (FollowAt k) (parseAt inner k) ts e) (hj : 1 ≤ j)
    (hle : j ≤ k) (hk : k ≤ 6) : ReadsOff (FollowAt j) (parseAt inner j) ts e := by
  obtain ⟨d, rfl⟩ := Nat.exists_eq_add_of_le hle
  induction d with
  | zero => exact h
  | succ d ih =>
    have hlower : ReadsOff (FollowAt (j + d)) (parseAt inner (j + d)) ts e :=
      Operand.readsOff h (by omega) (by omega)
    exact ih hlower (Nat.le_add_right j d) (by omega)

theorem parsePostfixLoop_stop {rest : List Token} (fuel : Nat) (h : FollowAt 6 rest.head?) :
    parsePostfixLoop inner fuel e rest = some (e, rest) := by
  cases rest with
  | nil => cases fuel <;> rfl
  | cons t rest =>
    have ht := h t rfl
    cases t with
    | dot => exact absurd ht (by decide)
    | dotDot => exact absurd ht (by decide)
    | lsquare => exact absurd ht (by decide)
    | lparen => exact absurd ht (by decide)
    | question => exact absurd ht (by decide)
    | _ => cases fuel <;> rfl

theorem readsOff_int (n : Int) : ReadsOff (FollowAt 6) (parseUnary inner) [.int n] (.int n) := by
  intro rest hrest
  change parsePostfixLoop inner _ (.int n) rest = _
  exact parsePostfixLoop_stop _ hrest

theorem readsOff_var (v : Name) : ReadsOff (FollowAt 6) (parseUnary inner) [.word v] (.var v) := by
  intro rest hrest
  have hprimary : parsePrimary inner (.word v :: rest) = some (.var v, rest) := by
    cases rest with
    | nil => rfl
    | cons t rest =>
      cases t with
      | dot => exact absurd (hrest .dot rfl) (by decide)
      | _ => rfl
  change (parsePrimary inner (.word v :: rest)).bind _ = _
  rw [hprimary, bind_some]
  exact parsePostfixLoop_stop _ hrest

theorem readsOff_field (b f : Name) :
    ReadsOff (FollowAt 6) (parseUnary inner) [.word b, .dot, .word f] (.field b f) := by
  intro rest hrest
  change parsePostfixLoop inner _ (.field b f) rest = _
  exact parsePostfixLoop_stop _ hrest

theorem readsOff_element {receiver : Expr} {i : Int}
    (hinner : ReadsOff (FollowAt 1) inner [.int i] (.int i))
    (hreceiver : ∀ rest, parsePrimary inner (receiver.tokens ++ .lsquare :: rest) =
      some (receiver, .lsquare :: rest))
    (hunary : ∀ rest, parseUnary inner (receiver.tokens ++ rest) =
      parsePostfix inner (receiver.tokens ++ rest)) :
    ReadsOff (FollowAt 6) (parseUnary inner) (Expr.index receiver (.int i)).tokens
      (.index receiver (.int i)) := by
  intro rest hrest
  have htokens : (Expr.index receiver (.int i)).tokens ++ rest =
      receiver.tokens ++ .lsquare :: .int i :: .rsquare :: rest := by
    simp only [Expr.tokens, append_assoc, cons_append, nil_append]
  have hindex : inner (.int i :: .rsquare :: rest) = some (.int i, .rsquare :: rest) :=
    hinner (.rsquare :: rest) fun t ht => by
      cases ht
      decide
  rw [htokens, hunary, parsePostfix, hreceiver, bind_some]
  obtain ⟨fuel, hfuel⟩ : ∃ fuel, (receiver.tokens ++
      Token.lsquare :: .int i :: .rsquare :: rest).length = fuel + 1 := by
    refine ⟨receiver.tokens.length + (rest.length + 2), ?_⟩
    simp only [length_append, length_cons]
    omega
  rw [hfuel, parsePostfixLoop, hindex, bind_some]
  exact parsePostfixLoop_stop _ hrest

structure Continues (inner : Reader Token Expr) (k : Nat) (before : List Token)
    (g : Expr → Expr) : Prop where
  operand : ∀ ts e, Operand inner k ts e → k < e.tightness → ChainAt inner k (before ++ ts) (g e)
  graft : ∀ op lhs rhs, op.tightness = k →
    g (Expr.graft op lhs rhs) = Expr.graft op (g lhs) rhs

theorem continues_nil : Continues inner k [] id where
  operand _ _ h _ := ⟨0, .one h⟩
  graft _ _ _ _ := rfl

theorem Continues.bin {lhs : Expr} (h : ChainAt inner k ts lhs) (hop : op.tightness = k) :
    Continues inner k (ts ++ [.bin op]) (Expr.graft op lhs) where
  operand ts' e he hk := by
    obtain ⟨n, h⟩ := h
    have htoken : binOpAt k (.bin op) = some (Expr.bin op) := if_pos hop
    rw [append_assoc, singleton_append,
      Expr.graft_of_ne (fun heq => Nat.ne_of_gt hk (heq.trans hop))]
    exact ⟨n + 1, h.snoc htoken he⟩
  graft op' l r hop' := Expr.graft_graft (hop'.trans hop.symm) r

theorem Continues.minus {before : List Token} {g : Expr → Expr}
    (h : Continues inner 5 before g) :
    Continues inner 5 (before ++ [.bin .sub]) fun e => g e.negate where
  operand ts e he hk := by
    have hminus : Operand inner 5 (.bin .sub :: ts) (.unary .neg e) := by
      intro rest hrest
      change (parseUnary inner (ts ++ rest)).map _ = _
      have hread : parseUnary inner (ts ++ rest) = some (e, rest) := he rest hrest
      rw [hread]
      rfl
    rw [append_assoc, singleton_append, Expr.negate_of_ne (Nat.ne_of_gt hk)]
    refine h.operand _ _ hminus ?_
    change 5 < min 6 e.tightness
    omega
  graft op l r hop := by rw [Expr.negate_graft hop, h.graft op _ _ hop]

structure Reads (inner : Reader Token Expr) (e : Expr) : Prop where
  read : ReadsOff (FollowAt (min 6 e.tightness)) (parseAt inner (min 6 e.tightness)) e.tokens
    e.regroup
  chain : ∀ k, Chains k → k ≤ e.tightness → ∀ before g, Continues inner k before g →
    ChainAt inner k (before ++ e.tokens) (g e.regroup)

theorem Chains.bounds (h : Chains k) : 1 ≤ k ∧ k ≤ 5 := by
  unfold Chains at h
  omega

theorem not_chains (h : 6 ≤ k) : ¬Chains k := by
  intro hk
  have hle := hk.bounds.2
  omega

theorem chain_of_read (he : e.Layered)
    (hread : ReadsOff (FollowAt (min 6 e.tightness)) (parseAt inner (min 6 e.tightness)) e.tokens
      e.regroup) (hk : Chains k) (hlt : k < e.tightness) {before : List Token} {g : Expr → Expr}
    (h : Continues inner k before g) : ChainAt inner k (before ++ e.tokens) (g e.regroup) := by
  have hbounds := hk.bounds
  refine h.operand _ _ (readsOff_lower hread (by omega) (by omega) (by omega)) ?_
  rw [Expr.tightness_regroup he]
  exact hlt

theorem Reads.of_read (he : e.Layered)
    (hread : ReadsOff (FollowAt (min 6 e.tightness)) (parseAt inner (min 6 e.tightness)) e.tokens
      e.regroup) (hne : ¬Chains e.tightness) : Reads inner e where
  read := hread
  chain k hk hle before g h := by
    refine chain_of_read he hread hk (Nat.lt_of_le_of_ne hle ?_) h
    rintro rfl
    exact hne hk

theorem Reads.of_chain (he : e.Layered) (hchains : Chains e.tightness)
    (hchain : ∀ before g, Continues inner e.tightness before g →
      ChainAt inner e.tightness (before ++ e.tokens) (g e.regroup)) : Reads inner e := by
  have hmin : min 6 e.tightness = e.tightness := by
    have hbounds := hchains.bounds
    omega
  have hread : ReadsOff (FollowAt (min 6 e.tightness)) (parseAt inner (min 6 e.tightness)) e.tokens
      e.regroup := by
    rw [hmin]
    exact (hchain [] id continues_nil).readsOff hchains
  refine ⟨hread, fun k hk hle before g h => ?_⟩
  rcases Nat.lt_or_eq_of_le hle with hlt | rfl
  · exact chain_of_read he hread hk hlt h
  · exact hchain before g h

theorem Reads.unary {op : UnOp} (ih : Reads inner e) (he : (Expr.unary op e).Layered) :
    Reads inner (.unary op e) := by
  by_cases hfive : e.tightness = 5
  · have htight : (Expr.unary op e).tightness = 5 := by rw [Expr.tightness, hfive]; rfl
    refine Reads.of_chain he (by rw [htight]; exact .inr (.inr (.inr rfl))) ?_
    rw [htight]
    intro before g h
    have hchain := ih.chain 5 (.inr (.inr (.inr rfl))) (le_of_eq hfive.symm) _ _ h.minus
    rw [append_assoc] at hchain
    exact hchain
  · have hsix : 6 ≤ e.tightness := by
      have hle := he.2
      omega
    have htight : (Expr.unary op e).tightness = 6 := Nat.min_eq_left hsix
    have hread := ih.read
    rw [Nat.min_eq_left hsix] at hread
    refine Reads.of_read he ?_ (not_chains htight.ge)
    rw [htight, Expr.regroup, Expr.negate_of_ne (by rw [Expr.tightness_regroup he.1]; exact hfive)]
    intro rest hrest
    change (parseUnary inner (e.tokens ++ rest)).map _ = _
    have hinner : parseUnary inner (e.tokens ++ rest) = some (e.regroup, rest) := hread rest hrest
    rw [hinner]
    rfl

theorem Reads.bin {lhs rhs : Expr} (ihl : Reads inner lhs) (ihr : Reads inner rhs)
    (he : (Expr.bin op lhs rhs).Layered) : Reads inner (.bin op lhs rhs) := by
  have hl := he.1
  have hr := he.2
  by_cases hcmp : op.tightness = 3
  · have hlhs : ReadsOff (FollowAt 4) (parseAt inner 4) lhs.tokens lhs.regroup := by
      have hne := hl.2.2 hcmp
      exact readsOff_lower ihl.read (by decide) (by omega) (by omega)
    have hrhs : ReadsOff (FollowAt 4) (parseAt inner 4) rhs.tokens rhs.regroup := by
      have hne := hr.2.2 hcmp
      exact readsOff_lower ihr.read (by decide) (by omega) (by omega)
    have htight : (Expr.bin op lhs rhs).tightness = 3 := hcmp
    refine Reads.of_read he ?_ (by rw [htight]; unfold Chains; omega)
    rw [htight, Expr.regroup, Expr.graft_of_ne (by
      rw [Expr.tightness_regroup hr.1, hcmp]
      exact hr.2.2 hcmp)]
    intro rest hrest
    have htokens : (Expr.bin op lhs rhs).tokens ++ rest =
        lhs.tokens ++ .bin op :: (rhs.tokens ++ rest) := by
      simp only [Expr.tokens, append_assoc, cons_append]
    have hfirst : parseAdd inner (lhs.tokens ++ .bin op :: (rhs.tokens ++ rest)) =
        some (lhs.regroup, .bin op :: (rhs.tokens ++ rest)) :=
      hlhs _ fun t ht => by
        cases ht
        change op.tightness < 4
        omega
    have hsecond : parseAdd inner (rhs.tokens ++ rest) = some (rhs.regroup, rest) :=
      hrhs rest (hrest.mono (Nat.le_succ 3))
    have hop : binOpAt 3 (.bin op) = some (Expr.bin op) := if_pos hcmp
    rw [htokens]
    change (parseAdd inner _).bind _ = _
    rw [hfirst, bind_some]
    simp only [hop, hsecond, map_some]
  · have hchains : Chains op.tightness := by
      unfold Chains
      cases op <;> simp_all [BinOp.tightness]
    refine Reads.of_chain he hchains fun before g h => ?_
    have hlhs := ihl.chain _ hchains hl.2.1 before g h
    have hrhs := ihr.chain _ hchains hr.2.1 _ _ (Continues.bin hlhs rfl)
    rw [Expr.regroup, h.graft op _ _ rfl]
    rw [append_assoc, append_assoc] at hrhs
    exact hrhs

theorem reads_of_layered (hinner : ∀ i, ReadsOff (FollowAt 1) inner [.int i] (.int i))
    (hread : e.Readable) (he : e.Layered) : Reads inner e := by
  induction e using Expr.operatorInduction with
  | int n => exact .of_read he (readsOff_int n) (not_chains (Nat.le_succ 6))
  | var v => exact .of_read he (readsOff_var v) (not_chains (Nat.le_succ 6))
  | field b f => exact .of_read he (readsOff_field b f) (not_chains (Nat.le_succ 6))
  | unary op e ih => exact (ih hread he.1).unary he
  | bin op lhs rhs ihl ihr => exact (ihl hread.1 he.1.1).bin (ihr hread.2 he.2.1) he
  | index receiver i =>
    refine .of_read he ?_ (not_chains (Nat.le_succ 6))
    cases receiver with
    | var v =>
      cases i with
      | int n => exact readsOff_element (hinner n) (fun rest => rfl) (fun rest => rfl)
      | _ => exact hread.elim
    | field b f =>
      cases i with
      | int n => exact readsOff_element (hinner n) (fun rest => rfl) (fun rest => rfl)
      | _ => exact hread.elim
    | _ => exact hread.elim
  | _ => exact hread.elim

end Parsing

theorem Expr.tokens_ne_nil {e : Expr} (h : e.Readable) : e.tokens ≠ [] := by
  induction e using Expr.operatorInduction with
  | bin op lhs rhs _ _ => exact append_ne_nil_of_right_ne_nil _ (cons_ne_nil _ _)
  | index receiver i => exact append_ne_nil_of_right_ne_nil _ (cons_ne_nil _ _)
  | int n => exact cons_ne_nil _ _
  | var v => exact cons_ne_nil _ _
  | field b f => exact cons_ne_nil _ _
  | unary op e _ => exact cons_ne_nil _ _
  | _ => exact h.elim

theorem parseExpr_int (depth : Nat) (i : Int) :
    ReadsOff (FollowAt 1) (parseExpr (depth + 1)) [.int i] (.int i) := by
  have hunary : ReadsOff (FollowAt 6) (parseAt (parseExpr depth) 6) [.int i] (.int i) :=
    readsOff_int i
  exact readsOff_lower hunary (le_refl 1) (by decide) (le_refl 6)

theorem readsOff_parseExpr {e : Expr} (hread : e.Readable) (he : e.Layered) (depth : Nat) :
    ReadsOff (FollowAt 1) (parseExpr (depth + 2)) e.tokens e.regroup :=
  readsOff_lower (reads_of_layered (parseExpr_int depth) hread he).read (le_refl 1)
    (Nat.le_min.mpr ⟨by decide, e.one_le_tightness⟩) (Nat.min_le_left 6 _)

theorem Expr.exists_length {e : Expr} (h : e.Readable) :
    ∃ depth, e.tokens.length = depth + 1 :=
  Nat.exists_eq_succ_of_ne_zero fun hzero => e.tokens_ne_nil h (length_eq_zero_iff.mp hzero)

theorem readBack_renderExpr {e : Expr} (hread : e.Readable) (he : e.Layered) :
    readBack (renderExpr e) = some e.regroup := by
  obtain ⟨depth, hdepth⟩ := Expr.exists_length hread
  have hall := readsOff_parseExpr hread he depth [] (fun t ht => by cases ht)
  rw [append_nil] at hall
  rw [readBack, lex_renderExpr hread, bind_some, hdepth, hall]
  rfl

end Oikos.Telos
