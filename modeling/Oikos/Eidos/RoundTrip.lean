/-
The text of an expression with all of its operands in parentheses, and when reading it gives
the expression back.
-/
import Oikos.Eidos.SplicedText

namespace Oikos.Eidos

open List

/-! ### Texts -/

def BinOp.chars : BinOp → List Char
  | .add => ['+']
  | .sub => ['-']
  | .mul => ['*']
  | .div => ['/']
  | .rem => ['%']
  | .lt => ['<']
  | .gt => ['>']
  | .le => ['<', '=']
  | .ge => ['>', '=']
  | .eq => ['=', '=']
  | .ne => ['!', '=']
  | .and => ['&', '&']
  | .or => ['|', '|']

theorem BinOp.toList_text (op : BinOp) : op.text.toList = op.chars := by
  cases op <;> decide

def UnOp.char : UnOp → Char
  | .neg => '-'
  | .not => '!'

def commaSpace : List Char :=
  [',', ' ']

def enclosedText (cs : List Char) : List Char :=
  '(' :: (cs ++ [')'])

mutual

def patternText : Pattern → List Char
  | .var v => v.toList
  | .tuple ps => enclosedText (separated commaSpace (patternsText ps))

def patternsText : List Pattern → List (List Char)
  | [] => []
  | q :: qs => patternText q :: patternsText qs

end

section Texts

variable (lit : F64 → String)

mutual

/-- The text of an expression, with a text for every number; no `if`, `let` and `return` is
written. -/
def exprText : Expr → List Char
  | .num n => (lit n).toList
  | .bool b => (if b then "true" else "false").toList
  | .var v => v.toList
  | .arrayLit es => '[' :: (separated commaSpace (operandsText es) ++ [']'])
  | .bin op a b =>
    enclosedText (exprText a) ++ ' ' :: (op.text.toList ++ ' ' :: enclosedText (exprText b))
  | .un op a => op.text.toList ++ enclosedText (exprText a)
  | .call f args => f.toList ++ enclosedText (separated commaSpace (operandsText args))
  | .method recv name args =>
    enclosedText (exprText recv) ++
      '.' :: (name.toList ++ enclosedText (separated commaSpace (operandsText args)))
  | .lambda params body =>
    '|' :: (separated commaSpace (patternsText params) ++ '|' :: ' ' :: enclosedText
      (exprText body))
  | .record fields => '\x7b' :: (separated commaSpace (fieldsText fields) ++ ['\x7d'])
  | .cast value ty =>
    enclosedText (exprText value) ++ ' ' :: 'a' :: 's' :: ' ' :: (typeName ty).toList
  | .ifThen _ _ _ | .letIn _ _ _ | .ret _ => []

def operandsText : List Expr → List (List Char)
  | [] => []
  | e :: es => enclosedText (exprText e) :: operandsText es

def fieldsText : List (String × Expr) → List (List Char)
  | [] => []
  | (name, e) :: fields =>
    (name.toList ++ ':' :: ' ' :: enclosedText (exprText e)) :: fieldsText fields

end

/-- The expression with all of its operands in parentheses. -/
def rendering (e : Expr) : String :=
  String.ofList (exprText lit e)

end Texts

theorem patternsText_eq (qs : List Pattern) : patternsText qs = qs.map patternText := by
  induction qs with
  | nil => rw [patternsText, map_nil]
  | cons q qs ih => rw [patternsText, ih, map_cons]

section Texts

variable {lit : F64 → String}

theorem operandsText_eq (es : List Expr) :
    operandsText lit es = es.map fun e => enclosedText (exprText lit e) := by
  induction es with
  | nil => rw [operandsText, map_nil]
  | cons e es ih => rw [operandsText, ih, map_cons]

theorem fieldsText_eq (fields : List (String × Expr)) :
    fieldsText lit fields =
      fields.map fun f => f.1.toList ++ ':' :: ' ' :: enclosedText (exprText lit f.2) := by
  induction fields with
  | nil => rw [fieldsText, map_nil]
  | cons f fields ih => rw [fieldsText, ih, map_cons]

end Texts

/-! ### Names and numbers -/

def IsIdent (u : Unicode) (s : String) : Prop :=
  (∃ c cs, s.toList = c :: cs ∧ u.startsName c = true ∧ ∀ d ∈ cs, u.inName d = true) ∧
    keyword s = none

/-- The number has a text of digits and points that stands for it. -/
def IsLiteral (lit : F64 → String) (n : F64) : Prop :=
  (∀ d ∈ (lit n).toList, inNumber d = true) ∧ parseF64 (lit n).toList = some n

theorem IsIdent.ne_array {u : Unicode} {s : String} (h : IsIdent u s) : s ≠ "Array" := by
  rintro rfl
  exact absurd h.2 (by decide)

namespace Lexer

variable {u : Unicode} {c : Char} {cs : List Char} {toks : List Tok} {lit : F64 → String}

theorem spells_ident {s : String} (h : IsIdent u s) : Spells u Ends s.toList [Tok.ident s] := by
  obtain ⟨⟨c, cs, htext, hstart, hmore⟩, hkeyword⟩ := h
  have hs : String.ofList (c :: cs) = s := by
    rw [← htext, String.ofList_toList]
  have hname := Spells.name hstart hmore
  rwa [hs, wordTok, hkeyword, ← htext] at hname

theorem digit_of_parseF64 {n : F64} {rest : List Char} (hc : inNumber c = true)
    (hparse : parseF64 (c :: cs) = some n) :
    c.isDigit = true ∨ c = '.' ∧ (cs ++ rest).head?.any Char.isDigit = true := by
  rcases Bool.or_eq_true_iff.mp hc with hdigit | hdot
  · exact Or.inl hdigit
  · cases beq_iff_eq.mp hdot
    unfold parseF64 at hparse
    rw [takeWhile_cons_of_neg (by decide), dropWhile_cons_of_neg (by decide)] at hparse
    dsimp only at hparse
    split at hparse
    · rename_i hdigits
      obtain ⟨-, hall, hne⟩ := hdigits
      cases cs with
      | nil => exact absurd rfl hne
      | cons d cs =>
        rw [all_cons, Bool.and_eq_true] at hall
        exact Or.inr ⟨rfl, hall.1⟩
    · cases hparse

theorem notSpace_of_inNumber (h : inNumber c = true) : isWhitespace c = false ∧ c ≠ '/' := by
  rcases Bool.or_eq_true_iff.mp h with hdigit | hdot
  · have hrange : 48 ≤ c.toNat ∧ c.toNat ≤ 57 := by
      simpa [Char.isDigit, UInt32.le_iff_toNat_le] using hdigit
    constructor
    · rw [isWhitespace]
      simp only [Bool.or_eq_false_iff, Bool.and_eq_false_iff, decide_eq_false_iff_not,
        contains_eq_mem, mem_cons, not_mem_nil, or_false]
      omega
    · rintro rfl
      exact absurd hrange.1 (by decide)
  · rw [beq_iff_eq.mp hdot]
    exact ⟨by decide, by decide⟩

theorem spells_literal {n : F64} (h : IsLiteral lit n) :
    Spells u Ends (lit n).toList [Tok.num n] := by
  obtain ⟨hall, hparse⟩ := h
  cases htext : (lit n).toList with
  | nil =>
    rw [htext] at hparse
    cases hparse
  | cons c cs =>
    rw [htext] at hall hparse
    intro rest hrest
    have hc := hall c mem_cons_self
    obtain ⟨hspace, hslash⟩ := notSpace_of_inNumber hc
    have hmore : (cs ++ rest).takeWhile inNumber = cs :=
      takeWhile_stops (fun d hd => hall d (mem_cons_of_mem c hd))
        fun d hd => inNumber_of_mem_endChars (hrest d hd)
    have hround : lexOne u c (cs ++ rest) = .ok (some (.num n), cs.length) := by
      unfold lexOne
      rw [if_neg (by rw [hspace]; exact Bool.false_ne_true), if_neg fun h => hslash h.1,
        if_pos (digit_of_parseF64 hc hparse)]
      dsimp only
      rw [hmore, hparse]
    exact lexFrom_round hround

/-! ### Symbols around -/

theorem spells_enclosed (h : Spells u Ends cs toks) :
    Spells u Any (enclosedText cs) (enclosed toks) := by
  have hopen : Spells u Any ['('] [Tok.lParen] := .symbol (by decide) (by decide) rfl
  have hclose : Spells u Any [')'] [Tok.rParen] := .symbol (by decide) (by decide) rfl
  exact hopen.before (h.upTo (by decide) hclose)

theorem spells_separated {α : Type} {text : α → List Char} {toksOf : α → List Tok} {xs : List α}
    (h : ∀ x ∈ xs, Spells u Ends (text x) (toksOf x)) :
    Spells u Ends (separated commaSpace (xs.map text)) (separated [Tok.comma] (xs.map toksOf)) := by
  have hcomma : Spells u Any [','] [Tok.comma] := .symbol (by decide) (by decide) rfl
  induction xs with
  | nil => exact Spells.nil.weaken
  | cons x xs ih =>
    have hx := h x mem_cons_self
    cases xs with
    | nil => exact hx
    | cons y xs =>
      have hmore := ih fun z hz => h z (mem_cons_of_mem x hz)
      exact hx.upTo (by decide) (hcomma.before hmore.space)

theorem spells_op {op : BinOp} (hor : op ≠ .or) : Spells u Any (op.chars ++ [' ']) [op.tok] := by
  have hspace : Spells u Any [' '] [] := Spells.nil.space
  cases op with
  | add | sub | mul | div | rem | lt | gt => exact .symbolSpace (by decide) rfl
  | le | ge | eq | ne | and =>
    exact Spells.before (.two (by decide) (by decide) rfl : Spells u Any [_, _] [_]) hspace
  | or => exact absurd rfl hor

theorem spells_sign {op : UnOp} (h : Spells u Ends cs toks) :
    Spells u Any (op.text.toList ++ enclosedText cs) (op.tok :: enclosed toks) := by
  have hsign : ∀ {d t}, d ∈ ['-', '!'] → charToken d = some t →
      Spells u (fun rest => rest.head? = some '(') [d] [t] := by
    intro d t hd hone rest hrest
    change lexFrom u 0 (d :: rest) = _
    refine lexFrom_one (isSymbol_of_mem ?_) ?_ ?_ ?_ hone
    · rcases mem_pair.mp hd with rfl | rfl <;> decide
    · rw [hrest]
      exact fun h => nomatch h.2
    · rw [hrest]
      exact fun h => nomatch h.2
    · rw [hrest]
      rintro e ⟨⟩
      rcases mem_pair.mp hd with rfl | rfl <;> decide
  have htext : op.text.toList = [op.char] := by cases op <;> decide
  rw [htext]
  refine (hsign (t := op.tok) ?_ ?_).append (spells_enclosed h) fun _ _ => rfl
  · cases op <;> decide
  · cases op <;> rfl

/-- A point in front of a name. -/
theorem spells_dot {s : String} {cs' : List Char} {toks' : List Tok} (hs : IsIdent u s)
    (h : Spells u Any (s.toList ++ cs') toks') :
    Spells u Any ('.' :: (s.toList ++ cs')) (Tok.dot :: toks') := by
  obtain ⟨⟨c, cs, htext, hstart, -⟩, -⟩ := hs
  have hdot : Spells u (fun rest => rest.head? = some c) ['.'] [Tok.dot] := by
    intro rest hrest
    change lexFrom u 0 ('.' :: rest) = _
    refine lexFrom_one (isSymbol_of_mem (by decide)) ?_ ?_ ?_ rfl
    · exact fun h => nomatch h.1
    · rw [hrest, Option.any_some, Unicode.isDigit_of_startsName hstart]
      exact fun h => nomatch h.2
    · intro d _
      simp [twoCharToken]
  refine hdot.append h fun rest _ => ?_
  rw [htext]
  rfl

mutual

theorem spells_pattern : (q : Pattern) → (∀ v, patternBindsOne q v = true → IsIdent u v) →
    Spells u Ends (patternText q) (patternToks q)
  | .var v, h => by
    rw [patternText, patternToks]
    exact spells_ident (h v (by rw [patternBindsOne, beq_self_eq_true]))
  | .tuple qs, h => by
    rw [patternText, patternToks, patternsText_eq, patternsToks_eq]
    exact (spells_enclosed (spells_separated (spells_patterns qs fun v hv => h v (by
      rwa [patternBindsOne])))).weaken

theorem spells_patterns : (qs : List Pattern) → (∀ v, patternBinds qs v = true → IsIdent u v) →
    ∀ q ∈ qs, Spells u Ends (patternText q) (patternToks q)
  | [], _, _, hr => nomatch hr
  | q :: qs, h, r, hr => by
    rcases mem_cons.mp hr with heq | hr
    · rw [heq]
      exact spells_pattern q fun v hv => h v (by rw [patternBinds, hv, Bool.true_or])
    · exact spells_patterns qs (fun v hv => h v (by rw [patternBinds, hv, Bool.or_true])) r hr

end

theorem spells_params {params : List Pattern}
    (h : ∀ v, patternBinds params v = true → IsIdent u v) :
    Spells u Ends (separated commaSpace (patternsText params))
      (separated [Tok.comma] (patternsToks params)) := by
  rw [patternsText_eq, patternsToks_eq]
  exact spells_separated (spells_patterns params h)

theorem spells_operands {es : List Expr}
    (h : ∀ e ∈ es, Spells u Ends (exprText lit e) (exprToks e)) :
    Spells u Ends (separated commaSpace (operandsText lit es))
    (separated [Tok.comma] (operandsToks es)) := by
  rw [operandsText_eq, operandsToks_eq]
  exact spells_separated fun e he => (spells_enclosed (h e he)).weaken

theorem spells_fields {fields : List (String × Expr)} (hnames : ∀ f ∈ fields, IsIdent u f.1)
    (h : ∀ f ∈ fields, Spells u Ends (exprText lit f.2) (exprToks f.2)) :
    Spells u Ends (separated commaSpace (fieldsText lit fields))
    (separated [Tok.comma] (fieldsToks fields)) := by
  have hcolon : Spells u Any [':'] [Tok.colon] := .symbol (by decide) (by decide) rfl
  rw [fieldsText_eq, fieldsToks_eq]
  refine spells_separated fun f hf => ?_
  exact ((spells_ident (hnames f hf)).upTo (by decide)
    (hcolon.before (spells_enclosed (h f hf)).space)).weaken

theorem spells_bracketed (h : Spells u Ends cs toks) :
    Spells u Any ('[' :: (cs ++ [']'])) (Tok.lBracket :: (toks ++ [Tok.rBracket])) := by
  have hopen : Spells u Any ['['] [Tok.lBracket] := .symbol (by decide) (by decide) rfl
  have hclose : Spells u Any [']'] [Tok.rBracket] := .symbol (by decide) (by decide) rfl
  exact hopen.before (h.upTo (by decide) hclose)

theorem spells_braces (h : Spells u Ends cs toks) :
    Spells u Any ('\x7b' :: (cs ++ ['\x7d'])) (Tok.lBrace :: (toks ++ [Tok.rBrace])) := by
  have hopen : Spells u Any ['\x7b'] [Tok.lBrace] := .symbol (by decide) (by decide) rfl
  have hclose : Spells u Any ['\x7d'] [Tok.rBrace] := .symbol (by decide) (by decide) rfl
  exact hopen.before (h.upTo (by decide) hclose)

theorem spells_pipes {cs' : List Char} {toks' : List Tok} (h : Spells u Ends cs toks)
    (h' : Spells u Any cs' toks') :
    Spells u Any ('|' :: (cs ++ '|' :: ' ' :: cs')) (Tok.pipe :: (toks ++ Tok.pipe :: toks')) := by
  have hpipe : Spells u Any ['|'] [Tok.pipe] := .symbol (by decide) (by decide) rfl
  exact hpipe.before (h.upTo (by decide) (hpipe.before h'.space))

/-- A name with arguments. -/
theorem spells_call {s : String} (hs : IsIdent u s) (h : Spells u Ends cs toks) :
    Spells u Any (s.toList ++ enclosedText cs) (Tok.ident s :: enclosed toks) :=
  (spells_ident hs).upTo (by decide) (spells_enclosed h)

theorem spells_as (h : Spells u Ends cs toks) :
    Spells u Ends (' ' :: 'a' :: 's' :: ' ' :: cs) (Tok.as_ :: toks) := by
  have has : Spells u Ends ['a', 's'] [Tok.as_] := .asciiName (by decide) (by decide) (by decide)
  exact (has.upTo (by decide) h.space).space

/-- What is written is tokenized as it is meant. -/
theorem spells_expr {k : Nat} {e : Expr} (hnested : Nested (IsIdent u) (IsLiteral lit) k e)
    (hw : Writable e) : Spells u Ends (exprText lit e) (exprToks e) := by
  induction hnested with
  | num hn =>
    rw [exprText, exprToks]
    exact spells_literal hn
  | @bool _ b =>
    rw [exprText, exprToks]
    cases b with
    | true =>
      have htext : "true".toList = ['t', 'r', 'u', 'e'] := by decide
      rw [if_pos rfl, htext]
      exact .asciiName (by decide) (by decide) (by decide)
    | false =>
      have htext : "false".toList = ['f', 'a', 'l', 's', 'e'] := by decide
      rw [if_neg Bool.false_ne_true, htext]
      exact .asciiName (by decide) (by decide) (by decide)
  | var hv =>
    rw [exprText, exprToks]
    exact spells_ident hv
  | arrayLit _ ih =>
    cases hw with
    | arrayLit hes =>
      rw [exprText, exprToks]
      exact (spells_bracketed (spells_operands fun e he => ih e he (hes e he))).weaken
  | bin _ _ iha ihb =>
    cases hw with
    | @bin op _ _ hor hwa hwb =>
      rw [exprText, exprToks, BinOp.toList_text]
      have hop := (spells_op hor).before (spells_enclosed (ihb hwb))
      rw [append_assoc] at hop
      exact ((spells_enclosed (iha hwa)).before hop.space).weaken
  | un _ ih =>
    cases hw with
    | un hwa =>
      rw [exprText, exprToks]
      exact (spells_sign (ih hwa)).weaken
  | call hf _ ih =>
    cases hw with
    | call _ _ hargs =>
      rw [exprText, exprToks]
      exact (spells_call hf (spells_operands fun e he => ih e he (hargs e he))).weaken
  | method _ hname _ ihr ih =>
    cases hw with
    | method hwr hargs =>
      rw [exprText, exprToks]
      exact ((spells_enclosed (ihr hwr)).before (spells_dot hname (spells_call hname
        (spells_operands fun e he => ih e he (hargs e he))))).weaken
  | lambda hparams _ ih =>
    cases hw with
    | lambda hwb =>
      rw [exprText, exprToks]
      exact (spells_pipes (spells_params hparams) (spells_enclosed (ih hwb))).weaken
  | record hnames _ ih =>
    cases hw with
    | record hfields =>
      rw [exprText, exprToks]
      exact (spells_braces (spells_fields hnames fun f hf => ih f hf (hfields f hf))).weaken
  | cast _ hs ih =>
    cases hw with
    | cast hwv _ =>
      rw [exprText, exprToks, typeName]
      exact (spells_enclosed (ih hwv)).before (spells_as (spells_ident hs))

end Lexer

/-! ### What is read can be written -/

/-- Nothing in the phrase has a text that the parser reads as something else. -/
inductive Phrase.Written : Phrase → Prop
  | expr {level e} : Writable e → Phrase.Written (.expr level e)
  | block {e} : Writable e → Phrase.Written (.block e)
  | field {name e} : Writable e → Phrase.Written (.field name e)
  | pattern {q} : Phrase.Written (.pattern q)
  | type {t} : (∀ s, t = .named s → isBaseType s = false) → Phrase.Written (.type t)
  | list {parts} : (∀ part ∈ parts, Phrase.Written part) → Phrase.Written (.list parts)

namespace Phrase.Written

variable {level : Level} {e : Expr} {t : Ty} {name : String}

theorem writable (h : Written (.expr level e)) : Writable e := by
  cases h with
  | expr he => exact he

theorem writable_block (h : Written (.block e)) : Writable e := by
  cases h with
  | block he => exact he

theorem named (h : Written (.type t)) : ∀ s, t = .named s → isBaseType s = false := by
  cases h with
  | type ht => exact ht

theorem exprs {es : List Expr} (h : Written (.exprs es)) : ∀ e ∈ es, Writable e := by
  cases h with
  | list hparts => exact fun e he => (hparts _ (mem_map_of_mem he)).writable

theorem fields {fs : List (String × Expr)} (h : Written (.fields fs)) : ∀ f ∈ fs, Writable f.2 := by
  cases h with
  | list hparts =>
    intro f hf
    cases hparts _ (mem_map_of_mem hf) with
    | field he => exact he

end Phrase.Written

theorem chainOp_ne_or {level : Level} {t : Tok} {op : BinOp} (h : level.chainOp t = some op)
    (ht : t ≠ .or) : op ≠ .or := by
  rintro rfl
  cases level <;> cases t <;> first | exact ht rfl | cases h

theorem cmpOp_ne_or {t : Tok} {op : BinOp} (h : Parser.cmpOp t = some op) : op ≠ .or := by
  rintro rfl
  cases t <;> cases h

theorem Derives.written {phrase : Phrase} {ls : List Tok} (h : Derives phrase ls) (hor : .or ∉ ls) :
    phrase.Written := by
  induction h with
  | letIn _ _ ihv ihb =>
    have hv := ihv fun h => hor (by simp [h])
    have hb := ihb fun h => hor (by simp [h])
    exact .expr (.letIn hv.writable hb.writable)
  | ifThen _ _ _ ihc iht ihe =>
    have hc := ihc fun h => hor (by simp [h])
    have ht := iht fun h => hor (by simp [h])
    have he := ihe fun h => hor (by simp [h])
    exact .expr (.ifThen hc.writable ht.writable_block he.writable_block)
  | block _ _ ih => exact .block (ih fun h => hor (by simp [h])).writable
  | ret _ _ ih => exact .expr (.ret (ih fun h => hor (by simp [h])).writable)
  | tight _ _ ih => exact .expr (ih hor).writable
  | chain hop _ _ _ iha ihb =>
    have ha := iha fun h => hor (by simp [h])
    have hb := ihb fun h => hor (by simp [h])
    exact .expr (.bin (chainOp_ne_or hop fun h => hor (by simp [h])) ha.writable hb.writable)
  | cmp hop _ _ iha ihb =>
    have ha := iha fun h => hor (by simp [h])
    have hb := ihb fun h => hor (by simp [h])
    exact .expr (.bin (cmpOp_ne_or hop) ha.writable hb.writable)
  | un _ _ ih => exact .expr (.un (ih fun h => hor (by simp [h])).writable)
  | method _ ih =>
    exact .expr (.method (ih fun h => hor (by simp [h])).writable fun _ he => nomatch he)
  | methodArgs _ _ ihr iha =>
    have hr := ihr fun h => hor (by simp [h])
    have ha := iha fun h => hor (by simp [h])
    exact .expr (.method hr.writable ha.exprs)
  | call _ _ ihf iha =>
    have hf := ihf fun h => hor (by simp [h])
    have ha := iha fun h => hor (by simp [h])
    cases hf.writable with
    | var htrue hfalse => exact .expr (.call htrue hfalse ha.exprs)
  | cast _ _ ihv iht =>
    have hv := ihv fun h => hor (by simp [h])
    have ht := iht fun h => hor (by simp [h])
    exact .expr (.cast hv.writable ht.named)
  | num => exact .expr .num
  | true_ => exact .expr .bool
  | false_ => exact .expr .bool
  | var htrue hfalse => exact .expr (.var htrue hfalse)
  | arrayLit _ ih => exact .expr (.arrayLit (ih fun h => hor (by simp [h])).exprs)
  | record _ ih => exact .expr (.record (ih fun h => hor (by simp [h])).fields)
  | paren _ ih => exact .expr (ih fun h => hor (by simp [h])).writable
  | lambda _ _ _ ih => exact .expr (.lambda (ih fun h => hor (by simp [h])).writable)
  | field _ ih => exact .field (ih fun h => hor (by simp [h])).writable
  | patternVar => exact .pattern
  | patternTuple => exact .pattern
  | refine | arrayType | base => exact .type nofun
  | @named s hs =>
    refine .type ?_
    rintro _ ⟨⟩
    exact hs
  | noParts => exact .list nofun
  | onePart _ ih =>
    refine .list fun part hpart => ?_
    rw [mem_singleton.mp hpart]
    exact ih hor
  | parts _ _ ih ihs =>
    have hfirst := ih fun h => hor (by simp [h])
    have hmore := ihs fun h => hor (by simp [h])
    refine .list fun part hpart => ?_
    rcases mem_cons.mp hpart with rfl | hpart
    · exact hfirst
    · cases hmore with
      | list hparts => exact hparts part hpart

/-! ### No source has the token -/

namespace Lexer

variable {u : Unicode} {c : Char} {cs : List Char}

theorem wordTok_ne_or {s : String} : wordTok s ≠ .or := by
  unfold wordTok
  cases hkeyword : keyword s with
  | none => nofun
  | some t =>
    obtain ⟨before, after, hkeywords, -⟩ := lookup_eq_some_iff.mp hkeyword
    have hall : ∀ entry ∈ keywords, entry.2 ≠ .or := by decide
    exact hall (s, t) (hkeywords ▸ mem_append_right _ mem_cons_self)

theorem charToken_ne_or : charToken c ≠ some .or := by
  unfold charToken
  split <;> nofun

theorem twoCharToken_ne_or {d : Char} : twoCharToken c d ≠ some .or := by
  unfold twoCharToken
  split_ifs <;> nofun

theorem lexOne_ne_or {tok : Option Tok} {n : Nat} (h : lexOne u c cs = .ok (tok, n)) :
    tok ≠ some .or := by
  unfold lexOne at h
  split at h
  · cases h
    nofun
  · split at h
    · cases h
      nofun
    · split at h
      · dsimp only at h
        split at h
        · cases h
          nofun
        · cases h
      · split at h
        · cases h
          exact fun htok => wordTok_ne_or (Option.some.inj htok)
        · split at h
          · rename_i tok htwo
            cases h
            obtain ⟨d, -, hd⟩ := Option.bind_eq_some_iff.mp htwo
            rintro ⟨⟩
            exact twoCharToken_ne_or hd
          · split at h
            · rename_i htok
              cases h
              rintro ⟨⟩
              exact charToken_ne_or htok
            · cases h

theorem or_notMem_lexFrom {skip : Nat} {toks : List Tok} (h : lexFrom u skip cs = .ok toks) :
    .or ∉ toks := by
  induction cs generalizing skip toks with
  | nil =>
    cases skip <;> (cases h; exact not_mem_nil)
  | cons c cs ih =>
    cases skip with
    | succ skip => exact ih h
    | zero =>
      obtain ⟨⟨tok, n⟩, hone, hmore⟩ := bind_eq_ok.mp h
      obtain ⟨more, hrest, hcons⟩ := bind_eq_ok.mp hmore
      cases hcons
      intro hmem
      rcases mem_append.mp hmem with hmem | hmem
      · exact lexOne_ne_or hone (Option.mem_toList.mp hmem)
      · exact ih hrest hmem

end Lexer

/-! ### The round trip -/

section RoundTrip

variable {u : Unicode} {p : Platform} {lit : F64 → String} {e : Expr}

theorem writable_of_parseExpr {fuel : Nat} {source : String}
    (h : parseExpr u p fuel source = .ok e) :
    Writable e := by
  obtain ⟨toks, tail, inner, m, m', left, hrun, htail, hsplit, he, -, -⟩ := split_of_parseExpr h
  have htoks : .or ∉ toks ++ tail := by
    intro hmem
    rcases mem_append.mp hmem with hmem | hmem
    · exact Lexer.or_notMem_lexFrom hrun hmem
    · rcases htail with rfl | rfl
      · exact not_mem_nil hmem
      · exact absurd hmem (by decide)
  refine (he.written fun hmem => htoks ?_).writable
  rw [hsplit]
  exact mem_append_left _ (mem_append_left _ hmem)

/-- An expression of names and literals that is nested at most fifteen deep is read as it was
written exactly when it can be written. -/
theorem parseExpr_rendering_iff (hnested : Nested (IsIdent u) (IsLiteral lit) 15 e) :
    (∃ fuel, parseExpr u p fuel (rendering lit e) = .ok e) ↔ Writable e := by
  constructor
  · rintro ⟨fuel, h⟩
    exact writable_of_parseExpr h
  · intro hw
    have htext : (rendering lit e).toList = exprText lit e := String.toList_ofList
    refine ⟨_, @parseExpr_of_returns _ _ _ _ 15 (by decide) ?_ ?_⟩
    · rw [htext]
      exact Lexer.spells_expr hnested hw
    · exact Parser.returns_of_nested (fun s hs => hs.ne_array) hnested hw

def noLiteral (_ : F64) : String :=
  ""

theorem isIdent_a : IsIdent .asciiOnly "a" :=
  ⟨⟨'a', [], by decide, by decide, nofun⟩, by decide⟩

/-- A conjunction with a negation is read as it is written. -/
theorem conjunction_round_trip :
    ∃ fuel, parseExpr .asciiOnly .plain fuel
      (rendering noLiteral (.bin .and (.var "a") (.un .not (.var "a")))) =
        .ok (.bin .and (.var "a") (.un .not (.var "a"))) := by
  have hvar : ∀ k, Nested (IsIdent .asciiOnly) (IsLiteral noLiteral) k (.var "a") := fun _ =>
    .var isIdent_a
  have hw : Writable (.var "a") := .var (by decide) (by decide)
  exact (parseExpr_rendering_iff (.bin (hvar 14) (.un (hvar 13)))).mpr
    (.bin (by decide) hw (.un hw))

/-- A disjunction is not read at all as it is written. -/
theorem disjunction_not_read :
    Nested (IsIdent .asciiOnly) (IsLiteral noLiteral) 15 (.bin .or (.var "a") (.var "a")) ∧
      ∀ fuel, parseExpr .asciiOnly .plain fuel
        (rendering noLiteral (.bin .or (.var "a") (.var "a"))) ≠ .ok
        (.bin .or (.var "a") (.var "a")) := by
  refine ⟨.bin (.var isIdent_a) (.var isIdent_a), fun fuel h => ?_⟩
  cases writable_of_parseExpr h with
  | bin hor => exact hor rfl

end RoundTrip

end Oikos.Eidos
