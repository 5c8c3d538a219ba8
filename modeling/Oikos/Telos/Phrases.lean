/-
How the tokens that are written back compare with those that were read: they are the same
where nothing was noted, and where something was noted they differ in number, or in that
they cannot stand in a source.

What the tokenizer makes of the texts of callees: the text of an expression has the tokens
of the expression where it shows all of it, and tokens that no source has otherwise.
-/
import Mathlib.Data.List.Chain
import Oikos.Telos.WriteBack

namespace Oikos.Telos.Parser

open List

/-! ### What may stand next to another -/

/-- The token may stand at the start. -/
def Opens (t : Token) : Prop :=
  t ≠ .dot ∧ t ≠ .question

/-- A field or a question mark may follow the token. -/
def Closes (t : Token) : Prop :=
  t ≠ .gt ∧ t ≠ .dotDot

/-- In a source no field and no question mark follows an angle bracket or two dots. -/
def Joins (t u : Token) : Prop :=
  Closes t ∨ Opens u

def Legal (tokens : List Token) : Prop :=
  tokens.IsChain Joins

instance (t : Token) : Decidable (Opens t) :=
  inferInstanceAs (Decidable (t ≠ .dot ∧ t ≠ .question))

instance (t : Token) : Decidable (Closes t) :=
  inferInstanceAs (Decidable (t ≠ .gt ∧ t ≠ .dotDot))

instance : DecidableRel Joins := fun t u =>
  inferInstanceAs (Decidable (Closes t ∨ Opens u))

/-- There are tokens, and a field may follow them. -/
def Final (tokens : List Token) : Prop :=
  ∃ t, tokens.getLast? = some t ∧ Closes t

section Tokens

variable {s s' : List Token} {t : Token}

theorem final_singleton (h : Closes t) : Final [t] :=
  ⟨t, rfl, h⟩

theorem Final.ne_nil (h : Final s) : s ≠ [] := by
  rintro rfl
  obtain ⟨t, ht, -⟩ := h
  cases ht

theorem Final.append_right (h : Final s') : Final (s ++ s') := by
  obtain ⟨t, ht, hcloses⟩ := h
  exact ⟨t, by rw [getLast?_append, ht]; rfl, hcloses⟩

theorem Final.append (h : Final s) (h' : s' = [] ∨ Final s') : Final (s ++ s') := by
  rcases h' with rfl | h'
  · rwa [append_nil]
  · exact h'.append_right

theorem Legal.append_final (h : Legal s) (hs : Final s) (h' : Legal s') : Legal (s ++ s') := by
  obtain ⟨t, ht, hcloses⟩ := hs
  refine h.append h' fun x hx _ _ => Or.inl ?_
  rw [ht] at hx
  cases hx
  exact hcloses

theorem Legal.append_opens (h : Legal s) (h' : Legal s') (ho : ∀ t ∈ s'.head?, Opens t) :
    Legal (s ++ s') :=
  h.append h' fun _ _ u hu => Or.inr (ho u hu)

theorem not_legal_append (h : ¬Legal s ∨ ¬Legal s') : ¬Legal (s ++ s') := fun hlegal =>
  h.elim (· hlegal.left_of_append) (· hlegal.right_of_append)

end Tokens

/-! ### Read and written -/

/-- The tokens `w` are written for the tokens `s` that were read, with these notes. -/
structure Kept (s w : List Token) (notes : List Slip) : Prop where
  exact : notes = [] → s = w
  /-- Every statement that is made an assignment is written with one more sign. -/
  assigns : w.count .assign = s.count .assign + notes.count .expressionStatement
  /-- Any other slip leaves out tokens, unless it writes what no source has. -/
  shorter : .expressionStatement ∉ notes → Legal w → notes ≠ [] → w.length < s.length
  legal : Legal s
  opens : ∀ t ∈ s.head?, Opens t

namespace Kept

variable {s s' w w' : List Token} {notes notes' : List Slip} {t : Token}

theorem nil : Kept [] [] [] where
  exact _ := rfl
  assigns := rfl
  shorter _ _ h := absurd rfl h
  legal := .nil
  opens := nofun

theorem token (h : Opens t) : Kept [t] [t] [] where
  exact _ := rfl
  assigns := rfl
  shorter _ _ h := absurd rfl h
  legal := .singleton t
  opens := by
    rintro u hu
    cases hu
    exact h

theorem length_le (h : Kept s w notes) (hstmt : .expressionStatement ∉ notes) (hw : Legal w) :
    w.length ≤ s.length := by
  by_cases hnotes : notes = []
  · rw [h.exact hnotes]
  · exact (h.shorter hstmt hw hnotes).le

theorem append (h : Kept s w notes) (h' : Kept s' w' notes') :
    Kept (s ++ s') (w ++ w') (notes ++ notes') where
  exact hnotes := by
    obtain ⟨hnil, hnil'⟩ := append_eq_nil_iff.mp hnotes
    rw [h.exact hnil, h'.exact hnil']
  assigns := by
    rw [count_append, count_append, count_append, h.assigns, h'.assigns]
    omega
  shorter hstmt hw hnotes := by
    rw [mem_append, not_or] at hstmt
    have hle := h.length_le hstmt.1 hw.left_of_append
    have hle' := h'.length_le hstmt.2 hw.right_of_append
    rw [length_append, length_append]
    by_cases hnil : notes = []
    · have hne : notes' ≠ [] := fun hnil' => hnotes (by rw [hnil, hnil']; rfl)
      have := h'.shorter hstmt.2 hw.right_of_append hne
      omega
    · have := h.shorter hstmt.1 hw.left_of_append hnil
      omega
  legal := h.legal.append_opens h'.legal h'.opens
  opens t ht := by
    rw [head?_append] at ht
    cases hhead : s.head? with
    | none =>
      rw [hhead] at ht
      exact h'.opens t ht
    | some u =>
      rw [hhead] at ht
      cases ht
      exact h.opens _ hhead

theorem cons (ht : Opens t) (h : Kept s w notes) : Kept (t :: s) (t :: w) notes :=
  (token ht).append h

theorem snoc (h : Kept s w notes) (ht : Opens t) : Kept (s ++ [t]) (w ++ [t]) notes := by
  have := h.append (token ht)
  rwa [append_nil] at this

theorem leftOut {slip : Slip} (h : Kept s w notes) (hslip : slip ≠ .expressionStatement)
    (hlen : s.length < s'.length) (hassign : s'.count .assign = s.count .assign) (hlegal : Legal s')
    (hopens : ∀ t ∈ s'.head?, Opens t) : Kept s' w (notes ++ [slip]) where
  exact hnotes := by simp at hnotes
  assigns := by
    rw [h.assigns, hassign, count_append, count_singleton, if_neg (by simp [hslip])]
    rfl
  shorter hstmt hw _ := by
    have hle := h.length_le (fun hmem => hstmt (mem_append_left _ hmem)) hw
    omega
  legal := hlegal
  opens := hopens

theorem eq_iff (h : Kept s w notes) : s = w ↔ notes = [] := by
  refine ⟨fun heq => ?_, h.exact⟩
  have hassigns := h.assigns
  subst heq
  have hstmt : .expressionStatement ∉ notes := by
    rw [← count_eq_zero]
    omega
  by_contra hnotes
  exact absurd (h.shorter hstmt h.legal hnotes) (lt_irrefl _)

end Kept

structure Quiet (s w : List Token) (notes : List Slip) : Prop extends Kept s w notes where
  noAssign : .assign ∉ s
  calm : .expressionStatement ∉ notes

namespace Quiet

variable {s s' w w' : List Token} {notes notes' : List Slip} {t : Token}

theorem nil : Quiet [] [] [] :=
  ⟨.nil, nofun, nofun⟩

theorem append (h : Quiet s w notes) (h' : Quiet s' w' notes') :
    Quiet (s ++ s') (w ++ w') (notes ++ notes') where
  toKept := h.toKept.append h'.toKept
  noAssign hmem := (mem_append.mp hmem).elim h.noAssign h'.noAssign
  calm hmem := (mem_append.mp hmem).elim h.calm h'.calm

theorem token (ht : Opens t) (ha : t ≠ .assign) : Quiet [t] [t] [] where
  toKept := .token ht
  noAssign hmem := ha (mem_singleton.mp hmem).symm
  calm := nofun

theorem cons (ht : Opens t) (ha : t ≠ .assign) (h : Quiet s w notes) :
    Quiet (t :: s) (t :: w) notes :=
  (token ht ha).append h

theorem snoc (h : Quiet s w notes) (ht : Opens t) (ha : t ≠ .assign) :
    Quiet (s ++ [t]) (w ++ [t]) notes := by
  have := h.append (token ht ha)
  rwa [append_nil] at this

theorem behind {tail : List Token} (h : Quiet s w notes) (hs : Final s) (htail : Legal tail)
    (ha : .assign ∉ tail) : Quiet (s ++ tail) (w ++ tail) notes where
  exact hnotes := by rw [h.exact hnotes]
  assigns := by
    rw [count_append, count_append, h.assigns]
    omega
  shorter hstmt hw hnotes := by
    have := h.shorter hstmt hw.left_of_append hnotes
    rw [length_append, length_append]
    omega
  legal := h.legal.append_final hs htail
  opens t ht := by
    rw [head?_append_of_ne_nil s hs.ne_nil] at ht
    exact h.opens t ht
  noAssign hmem := (mem_append.mp hmem).elim h.noAssign ha
  calm := h.calm

/-- Something else is written, with a note of it. -/
theorem instead {slip : Slip} (h : Quiet s w notes) (hslip : slip ≠ .expressionStatement)
    (ha : .assign ∉ w') (hshort : Legal w' → w'.length < s.length) :
    Quiet s w' (notes ++ [slip]) where
  exact hnotes := by simp at hnotes
  assigns := by
    rw [count_eq_zero.mpr ha, count_eq_zero.mpr h.noAssign, count_append,
      count_eq_zero.mpr h.calm, count_singleton, if_neg (by simp [hslip])]
  shorter _ hw _ := hshort hw
  legal := h.legal
  opens := h.opens
  noAssign := h.noAssign
  calm hmem := (mem_append.mp hmem).elim h.calm fun hmem =>
    hslip (mem_singleton.mp hmem).symm

end Quiet

/-! ### Words -/

section Words

variable {v : Name}

theorem wordToken_cases (v : Name) :
    (∃ k, wordToken v = .kw k) ∨ wordToken v = .underScore ∨ ∃ i, wordToken v = .ident i := by
  unfold wordToken
  split
  · next k _ => exact Or.inl ⟨k, rfl⟩
  · split
    · exact Or.inr (Or.inl rfl)
    · exact Or.inr (Or.inr ⟨_, rfl⟩)

@[simp] theorem wordToken_ident (i : Ident) : wordToken i.name = .ident i := by
  obtain ⟨hfree, hunder⟩ := i.free
  unfold wordToken
  split
  · next k hk =>
    rw [hfree] at hk
    cases hk
  · rw [dif_neg hunder]

@[simp] theorem isSeparator_wordToken : (wordToken v).isSeparator = false := by
  rcases wordToken_cases v with ⟨k, h⟩ | h | ⟨i, h⟩ <;> rw [h] <;> rfl

theorem opens_wordToken : Opens (wordToken v) := by
  rcases wordToken_cases v with ⟨k, h⟩ | h | ⟨i, h⟩ <;> rw [h] <;> exact ⟨nofun, nofun⟩

theorem closes_wordToken : Closes (wordToken v) := by
  rcases wordToken_cases v with ⟨k, h⟩ | h | ⟨i, h⟩ <;> rw [h] <;> exact ⟨nofun, nofun⟩

theorem wordToken_ne_assign : wordToken v ≠ .assign := by
  rcases wordToken_cases v with ⟨k, h⟩ | h | ⟨i, h⟩ <;> rw [h] <;> exact nofun

end Words

/-! ### Tokens without separators -/

attribute [simp] Token.isSeparator

section Bare

variable {tokens tokens' : List Token} {t : Token}

@[simp] theorem bare_nil : bare [] = [] := rfl

@[simp] theorem bare_append : bare (tokens ++ tokens') = bare tokens ++ bare tokens' :=
  filter_append ..

theorem bare_cons_of_keep (h : t.isSeparator = false) : bare (t :: tokens) = t :: bare tokens :=
  filter_cons_of_pos (by rw [h]; rfl)

theorem bare_cons_of_drop (h : t.isSeparator = true) : bare (t :: tokens) = bare tokens :=
  filter_cons_of_neg (by rw [h]; decide)

@[simp] theorem bare_cons :
    bare (t :: tokens) = if t.isSeparator then bare tokens else t :: bare tokens := by
  by_cases h : t.isSeparator = true
  · rw [bare_cons_of_drop h, if_pos h]
  · rw [bare_cons_of_keep (Bool.eq_false_iff.mpr h), if_neg h]

theorem bare_wordToken {v : Name} : bare [wordToken v] = [wordToken v] :=
  bare_cons_of_keep isSeparator_wordToken

end Bare

/-! ### Rounds of the tokenizer -/

def tokensFrom (offset : Nat) (cs : List Char) : Result String (List Token) :=
  (lexFrom 0 offset cs).map (List.map Lexeme.token)

theorem lexFrom_skip (xs cs : List Char) (offset : Nat) :
    lexFrom xs.length offset (xs ++ cs) = lexFrom 0 (offset + xs.length) cs := by
  induction xs generalizing offset with
  | nil => rfl
  | cons x xs ih =>
    change lexFrom xs.length (offset + 1) (xs ++ cs) = _
    rw [ih, length_cons, add_assoc, add_comm 1]

theorem tokensFrom_round {offset : Nat} {c : Char} {xs cs : List Char} {tok : Token}
    (h : lexOne offset c (xs ++ cs) = .ok (some tok, xs.length)) :
    tokensFrom offset (c :: (xs ++ cs)) =
      (tokensFrom (offset + (c :: xs).length) cs).map ([tok] ++ ·) := by
  have hoffset : offset + 1 + xs.length = offset + (c :: xs).length := by
    rw [length_cons]
    omega
  rw [tokensFrom, lexFrom, h, ok_bind]
  dsimp only
  rw [lexFrom_skip, hoffset, tokensFrom]
  cases lexFrom 0 (offset + (c :: xs).length) cs with
  | ok lexemes => rfl
  | error stop => rfl

section Rounds

variable {offset : Nat} {c : Char} {cs : List Char}

theorem lexOne_char {tok : Token}
    (hc : isWhitespace c = false ∧ c ≠ '/' ∧ isNameStart c = false ∧ c.isDigit = false)
    (htwo : cs.head?.bind (twoCharToken c) = none) (hone : charToken c = some tok) :
    lexOne offset c cs = .ok (some tok, 0) := by
  obtain ⟨hspace, hslash, hstart, hdigit⟩ := hc
  rw [lexOne, if_neg (by rw [hspace]; decide), if_neg fun h => hslash h.1,
    dif_neg (by rw [hstart]; decide), if_neg (by rw [hdigit]; decide), htwo]
  dsimp only
  rw [hone]

theorem notSpace_of_range (h : (48 ≤ c.toNat ∧ c.toNat ≤ 57) ∨ (65 ≤ c.toNat ∧ c.toNat ≤ 90) ∨
    (97 ≤ c.toNat ∧ c.toNat ≤ 122) ∨ c.toNat = 95) : isWhitespace c = false := by
  rw [isWhitespace]
  simp only [Bool.or_eq_false_iff, Bool.and_eq_false_iff, decide_eq_false_iff_not]
  refine ⟨⟨by omega, by omega⟩, ?_⟩
  rw [Bool.eq_false_iff]
  intro hmem
  simp only [contains_eq_mem, mem_cons, not_mem_nil, or_false,
    decide_eq_true_eq] at hmem
  omega

theorem notSpace_of_isNameStart (h : isNameStart c = true) : isWhitespace c = false := by
  rw [isNameStart] at h
  delta Char.isAlpha Char.isUpper Char.isLower at h
  simp only [Bool.or_eq_true, Bool.and_eq_true,
    decide_eq_true_eq, beq_iff_eq, UInt32.le_iff_toNat_le, ge_iff_le] at h
  change ((65 ≤ c.toNat ∧ c.toNat ≤ 90) ∨ (97 ≤ c.toNat ∧ c.toNat ≤ 122)) ∨ c = '_' at h
  rcases h with (h | h) | rfl
  · exact notSpace_of_range (by omega)
  · exact notSpace_of_range (by omega)
  · decide

theorem notSpace_of_isDigit (h : c.isDigit = true) : isWhitespace c = false := by
  simp only [Char.isDigit, Bool.and_eq_true, decide_eq_true_eq, UInt32.le_iff_toNat_le,
    ge_iff_le] at h
  exact notSpace_of_range (Or.inl h)

end Rounds

/-! ### Phrases -/

/-- The characters that may follow a phrase. -/
def breakChars : List Char :=
  ['(', ')', '[', ']', '.', '?', '>', '-']

/-- A phrase may stand in front of these characters. -/
def Breaks (cs : List Char) : Prop :=
  ∀ c ∈ cs.head?, c ∈ breakChars

/-- The characters have these tokens, whatever follows. -/
def Phrase (cs : List Char) (tokens : List Token) : Prop :=
  ∀ offset rest, Breaks rest →
    tokensFrom offset (cs ++ rest) = (tokensFrom (offset + cs.length) rest).map (tokens ++ ·)

theorem Breaks.append {cs rest : List Char} (h : Breaks cs) (h' : Breaks rest) :
    Breaks (cs ++ rest) := by
  cases cs with
  | nil => exact h'
  | cons c cs => exact h

theorem Breaks.nil : Breaks [] := nofun

theorem breaks_cons {c : Char} {cs : List Char} (h : c ∈ breakChars) : Breaks (c :: cs) := by
  intro d hd
  cases hd
  exact h

namespace Phrase

variable {cs cs' : List Char} {tokens tokens' : List Token} {v : Name} {c : Char}

theorem append (h : Phrase cs tokens) (h' : Phrase cs' tokens') (hbreaks : Breaks cs') :
    Phrase (cs ++ cs') (tokens ++ tokens') := by
  intro offset rest hrest
  rw [append_assoc, h offset (cs' ++ rest) (hbreaks.append hrest),
    h' (offset + cs.length) rest hrest, length_append, add_assoc]
  cases tokensFrom (offset + (cs.length + cs'.length)) rest with
  | ok ts =>
    change Except.ok (tokens ++ (tokens' ++ ts)) = Except.ok (tokens ++ tokens' ++ ts)
    rw [append_assoc]
  | error stop => rfl

theorem round {xs : List Char} {tok : Token}
    (hround : ∀ offset rest, Breaks rest →
      lexOne offset c (xs ++ (cs ++ rest)) = .ok (some tok, xs.length))
    (h : Phrase cs tokens) : Phrase (c :: (xs ++ cs)) (tok :: tokens) := by
  intro offset rest hrest
  have hlen : (c :: (xs ++ cs)).length = (c :: xs).length + cs.length := by
    rw [length_cons, length_append, length_cons]
    omega
  rw [cons_append, append_assoc, tokensFrom_round (hround offset rest hrest),
    h _ rest hrest, hlen, add_assoc]
  cases tokensFrom (offset + ((c :: xs).length + cs.length)) rest with
  | ok ts => rfl
  | error stop => rfl

theorem textTokens {text : String} (h : Phrase text.toList tokens) :
    textTokens text = bare tokens := by
  have hrun : (lex text).map (map Lexeme.token) = .ok (tokens ++ [.eof]) := by
    have hall := h 0 [] .nil
    rw [append_nil] at hall
    exact hall
  unfold Parser.textTokens
  cases hlex : lex text with
  | error stop =>
    rw [hlex] at hrun
    cases hrun
  | ok lexemes =>
    rw [hlex] at hrun
    have htokens : lexemes.map Lexeme.token = tokens ++ [.eof] := Except.ok.inj hrun
    change sourceTokens lexemes = _
    rw [sourceTokens, htokens, bare_append]
    exact append_nil _

/-- Neither a name nor a number goes on in what follows a phrase. -/
theorem takeWhile_eq {p : Char → Bool} {rest : List Char} (hall : ∀ d ∈ cs, p d = true)
    (hbreak : breakChars.all (fun d => !p d) = true) (hrest : Breaks rest) :
    (cs ++ rest).takeWhile p = cs := by
  induction cs with
  | nil =>
    cases rest with
    | nil => rfl
    | cons d rest =>
      have hd : p d = false := by
        simpa only [Bool.not_eq_true'] using all_eq_true.mp hbreak d (hrest d rfl)
      rw [nil_append, takeWhile_cons, hd]
      rfl
  | cons d cs ih =>
    rw [cons_append, takeWhile_cons, if_pos (hall d mem_cons_self),
      ih fun e he => hall e (mem_cons_of_mem d he)]

theorem lexOne_name {offset : Nat} {rest : List Char} (htext : v.text.toList = c :: cs)
    (hrest : Breaks rest) : lexOne offset c (cs ++ rest) = .ok (some (wordToken v), cs.length) := by
  have hstart : isNameStart c = true := Name.isNameStart_of_cons htext
  have hmore : (cs ++ rest).takeWhile isNameChar = cs := by
    refine takeWhile_eq (fun d hd => ?_) (by decide) hrest
    exact Name.isNameChar_of_mem (htext ▸ mem_cons_of_mem c hd)
  have hslash : c ≠ '/' := by
    rintro rfl
    exact absurd hstart (by decide)
  have hname : ∀ {more : List Char} (h : isName (String.ofList (c :: more)) = true), more = cs →
      (⟨String.ofList (c :: more), h⟩ : Name) = v := by
    rintro more h rfl
    obtain ⟨text, hwf⟩ := v
    have : String.ofList (c :: more) = text := by
      rw [← htext, String.ofList_toList]
    cases this
    rfl
  rw [lexOne, if_neg (by rw [notSpace_of_isNameStart hstart]; decide), if_neg fun h => hslash h.1,
    dif_pos hstart]
  dsimp only
  rw [hname _ hmore, hmore]

theorem name (v : Name) : Phrase v.text.toList [wordToken v] := by
  intro offset rest hrest
  obtain ⟨c, cs, htext⟩ := v.exists_cons
  rw [htext]
  exact tokensFrom_round (lexOne_name htext hrest)

theorem digits (n : Fin (2 ^ 63)) : Phrase (Nat.toDigits 10 n.val) [.int n] := by
  intro offset rest hrest
  have hall : ∀ d ∈ Nat.toDigits 10 n.val, d.isDigit = true := fun d hd =>
    Nat.isDigit_of_mem_toDigits (by decide) (by decide) hd
  have hvalue : Nat.ofDigitChars 10 (Nat.toDigits 10 n.val) 0 = n.val := by
    have := parseDigits_toDigits n.val
    rw [parseDigits] at this
    split at this
    · cases this
    · exact Option.some.inj this
  cases htext : Nat.toDigits 10 n.val with
  | nil => exact absurd htext Nat.toDigits_ne_nil
  | cons c cs =>
    rw [htext] at hall hvalue
    have hdigit := hall c mem_cons_self
    have hmore : (cs ++ rest).takeWhile Char.isDigit = cs :=
      takeWhile_eq (fun d hd => hall d (mem_cons_of_mem c hd)) (by decide) hrest
    have hslash : c ≠ '/' := by
      rintro rfl
      exact absurd hdigit (by decide)
    refine tokensFrom_round ?_
    have hlt : Nat.ofDigitChars 10 (c :: cs) 0 < 2 ^ 63 := hvalue ▸ n.isLt
    have hfin : (⟨Nat.ofDigitChars 10 (c :: cs) 0, hlt⟩ : Fin (2 ^ 63)) = n := Fin.ext hvalue
    rw [lexOne, if_neg (by rw [notSpace_of_isDigit hdigit]; decide), if_neg fun h => hslash h.1,
      dif_neg (by rw [isNameStart_of_isDigit hdigit]; decide), if_pos hdigit]
    dsimp only
    rw [hmore, dif_pos hlt, hfin]
    rfl

theorem char {tok : Token}
    (hc : isWhitespace c = false ∧ c ≠ '/' ∧ isNameStart c = false ∧ c.isDigit = false)
    (htwo : breakChars.all (fun d => (twoCharToken c d).isNone) = true)
    (hone : charToken c = some tok) : Phrase [c] [tok] := by
  intro offset rest hrest
  refine @tokensFrom_round offset c [] rest tok (lexOne_char hc ?_ hone)
  cases rest with
  | nil => rfl
  | cons d rest => exact Option.isNone_iff_eq_none.mp (all_eq_true.mp htwo d (hrest d rfl))

theorem charName {tok : Token} (v : Name)
    (hc : isWhitespace c = false ∧ c ≠ '/' ∧ isNameStart c = false ∧ c.isDigit = false)
    (htwo : ∀ d, isNameStart d = true → twoCharToken c d = none) (hone : charToken c = some tok) :
    Phrase (c :: v.text.toList) [tok, wordToken v] := by
  obtain ⟨d, ds, htext⟩ := v.exists_cons
  have hname := name v
  rw [htext] at hname ⊢
  have hnext : twoCharToken c d = none := htwo d (Name.isNameStart_of_cons htext)
  exact @round _ _ c [] tok (fun _ _ _ => lexOne_char hc hnext hone) hname

end Phrase

end Oikos.Telos.Parser
