/-
The atoms that magnitudes become: the text of an expression gives the expression back,
as long as everything in it is printed.
-/
import Oikos.Eidos.Evaluation
import Oikos.Eidos.Kernel
import Mathlib.Data.List.TakeWhile

namespace Oikos.Eidos

open List

/-! ### Names and numbers -/

/-- The characters that texts put between names. -/
def isPunctuation (c : Char) : Bool :=
  [' ', ',', '.', '(', ')', '[', ']', '\x7b', '\x7d', '|', '-', '!'].contains c

/-- A run of characters that ends at punctuation. -/
def IsWord (w : List Char) : Prop :=
  w ≠ [] ∧ ∀ c ∈ w, isPunctuation c = false

def IsDigits (ds : List Char) : Prop :=
  ds ≠ [] ∧ ∀ c ∈ ds, c.isDigit = true

def IsName (s : String) : Prop :=
  IsWord s.toList ∧ ∀ c, s.toList.head? = some c → c.isDigit = false

/-- Digits, with a fraction or without. -/
def IsNumber (cs : List Char) : Prop :=
  ∃ ds, IsDigits ds ∧ (cs = ds ∨ ∃ fs, IsDigits fs ∧ cs = ds ++ '.' :: fs)

def Literal (n : F64) : Prop :=
  n.isFinite = true ∧ n.negative = false

/-- What the standard library promises of the texts of floats. -/
structure Platform.ShowsNumbers (p : Platform) : Prop where
  number : ∀ n, Literal n → IsNumber (p.display n).toList
  injective : ∀ n m, Literal n → Literal m → p.display n = p.display m → n = m
  infinite : p.display (.infinity false) = "inf"

/-- No variable has one of these names. -/
def reserved : List String :=
  ["true", "false", "if", "let", "return", "else", "as", "fn", "type", "requires", "ensures",
    "effects", "Array"]

mutual

/-- The names and literals of expressions that come from the parser. -/
def Expr.Parsed : Expr → Prop
  | .num n => Literal n ∨ n = .infinity false
  | .bool _ => True
  | .var v => IsName v ∧ v ∉ reserved
  | .arrayLit es => ParsedAll es
  | .bin _ a b => a.Parsed ∧ b.Parsed
  | .un _ a => a.Parsed
  | .ifThen cond then_ els => cond.Parsed ∧ then_.Parsed ∧ els.Parsed
  | .letIn name value body => IsName name ∧ value.Parsed ∧ body.Parsed
  | .call func args => (IsName func ∧ func ∉ reserved) ∧ ParsedAll args
  | .method recv name args => recv.Parsed ∧ IsName name ∧ ParsedAll args
  | .lambda _ body => body.Parsed
  | .record fields => ParsedFields fields
  | .cast value _ => value.Parsed
  | .ret e => e.Parsed

def ParsedAll : List Expr → Prop
  | [] => True
  | e :: es => e.Parsed ∧ ParsedAll es

def ParsedFields : List (String × Expr) → Prop
  | [] => True
  | (f, e) :: fields => IsName f ∧ e.Parsed ∧ ParsedFields fields

end

def Expr.isMethod : Expr → Bool
  | .method _ _ _ => true
  | _ => false

def Expr.isUn : Expr → Bool
  | .un _ _ => true
  | _ => false

mutual

def Expr.Shown : Expr → Prop
  | .num n => n ≠ .infinity false
  | .bool _ => True
  | .var v => v ≠ "cast" ∧ v ≠ "inf"
  | .arrayLit es => ShownAll es
  | .bin _ a b => a.Shown ∧ b.Shown
  -- `-a.b` is also how the text of `(-a).b` reads
  | .un _ a => a.isMethod = false ∧ a.Shown
  | .call _ args => ShownAll args
  | .method recv _ args => recv.isUn = false ∧ recv.Shown ∧ ShownAll args
  | .record fields => fields = []
  | .ifThen _ _ _ | .letIn _ _ _ | .lambda _ _ | .cast _ _ | .ret _ => False

def ShownAll : List Expr → Prop
  | [] => True
  | e :: es => e.Shown ∧ ShownAll es

end

/-! ### Texts as lists of characters -/

section Text

variable (p : Platform)

attribute [local simp] exprToString exprTexts

def text (e : Expr) : List Char :=
  (exprToString p e).toList

def restText (es : List Expr) : List Char :=
  es.flatMap fun e => ',' :: ' ' :: text p e

def listText : List Expr → List Char
  | [] => []
  | e :: es => text p e ++ restText p es

variable {p}

theorem toList_exprTexts (es : List Expr) :
    (", ".intercalate (exprTexts p es)).toList = listText p es := by
  induction es with
  | nil => rw [exprTexts, String.intercalate_nil]; rfl
  | cons e es ih =>
    cases es with
    | nil =>
      rw [exprTexts, exprTexts, String.intercalate_singleton]
      exact (append_nil _).symm
    | cons e' es =>
      rw [exprTexts, exprTexts, String.intercalate_cons_cons, ← exprTexts, String.toList_append,
        String.toList_append, ih]
      simp [listText, restText, text]

theorem text_bin (op : BinOp) (a b : Expr) :
    text p (.bin op a b) =
      '(' :: (text p a ++ ' ' :: (op.text.toList ++ ' ' :: (text p b ++ [')']))) := by
  simp [text, exprToString]

theorem text_un (op : UnOp) (a : Expr) : text p (.un op a) = op.text.toList ++ text p a := by
  simp [text, exprToString]

theorem text_arrayLit (es : List Expr) :
    text p (.arrayLit es) = '[' :: (listText p es ++ [']']) := by
  rw [text, exprToString, String.toList_append, String.toList_append, toList_exprTexts]
  rfl

theorem text_call (func : String) (args : List Expr) :
    text p (.call func args) = func.toList ++ '(' :: (listText p args ++ [')']) := by
  rw [text, exprToString, String.toList_append, String.toList_append, String.toList_append,
    toList_exprTexts]
  simp

/-- No arguments are no text, without parentheses. -/
def argsText (p : Platform) : List Expr → List Char
  | [] => []
  | e :: es => '(' :: (listText p (e :: es) ++ [')'])

def callText (p : Platform) (call : String × List Expr) : List Char :=
  '.' :: (call.1.toList ++ argsText p call.2)

theorem text_method (recv : Expr) (name : String) (args : List Expr) :
    text p (.method recv name args) = text p recv ++ callText p (name, args) := by
  rw [text, exprToString, callText]
  cases args with
  | nil => simp [text, argsText]
  | cons e es =>
    rw [isEmpty_cons, if_neg (by decide), String.toList_append, String.toList_append,
      String.toList_append, String.toList_append, String.toList_append, toList_exprTexts]
    simp [text, argsText]

theorem parsedAll_iff {es : List Expr} : ParsedAll es ↔ ∀ e ∈ es, e.Parsed := by
  induction es with
  | nil => exact iff_of_true trivial fun _ h => nomatch h
  | cons e es ih => rw [ParsedAll, forall_mem_cons, ih]

theorem shownAll_iff {es : List Expr} : ShownAll es ↔ ∀ e ∈ es, e.Shown := by
  induction es with
  | nil => exact iff_of_true trivial fun _ h => nomatch h
  | cons e es ih => rw [ShownAll, forall_mem_cons, ih]

/-! ### Receivers -/

/-- The expression before the first call of a method. -/
def Expr.head : Expr → Expr
  | .method recv _ _ => recv.head
  | e => e

/-- The calls of methods after the head, the first one first. -/
def Expr.calls : Expr → List (String × List Expr)
  | .method recv name args => recv.calls ++ [(name, args)]
  | _ => []

def Expr.apply (recv : Expr) (call : String × List Expr) : Expr :=
  .method recv call.1 call.2

attribute [local simp] Expr.head Expr.calls

theorem foldl_calls : (e : Expr) → e.calls.foldl Expr.apply e.head = e
  | .method recv name args => by
    rw [Expr.calls, Expr.head, foldl_append, foldl_calls recv]
    rfl
  | .num _ | .bool _ | .var _ | .arrayLit _ | .bin _ _ _ | .un _ _ | .ifThen _ _ _ | .letIn _ _ _
  | .call _ _ | .lambda _ _ | .record _ | .cast _ _ | .ret _ => rfl

theorem text_eq_calls : (e : Expr) → text p e = text p e.head ++ e.calls.flatMap (callText p)
  | .method recv name args => by
    rw [text_method, text_eq_calls recv, Expr.calls, Expr.head, flatMap_append,
      append_assoc]
    simp
  | .num _ | .bool _ | .var _ | .arrayLit _ | .bin _ _ _ | .un _ _ | .ifThen _ _ _ | .letIn _ _ _
  | .call _ _ | .lambda _ _ | .record _ | .cast _ _ | .ret _ => (append_nil _).symm

theorem isMethod_head : (e : Expr) → e.head.isMethod = false
  | .method recv _ _ => isMethod_head recv
  | .num _ | .bool _ | .var _ | .arrayLit _ | .bin _ _ _ | .un _ _ | .ifThen _ _ _ | .letIn _ _ _
  | .call _ _ | .lambda _ _ | .record _ | .cast _ _ | .ret _ => rfl

variable {e : Expr} {ds : List Char}

theorem head_of_not_isMethod (h : e.isMethod = false) : e.head = e ∧ e.calls = [] := by
  cases e with
  | method recv name args => cases h
  | _ => exact ⟨rfl, rfl⟩

/-! ### Where a text ends -/

/-- What can follow an expression. -/
def Stops (s : List Char) : Prop :=
  ∀ c, s.head? = some c → c ∈ [' ', ',', ')', ']']

/-- What can follow the head of an expression: a method's name begins with no digit. -/
def Follows (s : List Char) : Prop :=
  Stops s ∨ ∃ c rest, s = '.' :: c :: rest ∧ c.isDigit = false

/-- The text goes on with punctuation, if it goes on. -/
def Closed (s : List Char) : Prop :=
  ∀ c, s.head? = some c → isPunctuation c = true

theorem stops_nil : Stops [] :=
  fun _ h => nomatch h

theorem stops_cons {c : Char} {s : List Char} (h : c ∈ [' ', ',', ')', ']']) : Stops (c :: s) := by
  rintro _ ⟨⟩
  exact h

theorem Stops.closed {s : List Char} (h : Stops s) : Closed s := by
  intro c hc
  have hmem := h c hc
  simp only [mem_cons, not_mem_nil, or_false] at hmem
  rcases hmem with rfl | rfl | rfl | rfl <;> rfl

theorem Follows.closed {s : List Char} (h : Follows s) : Closed s := by
  rcases h with h | ⟨c, rest, rfl, _⟩
  · exact h.closed
  · rintro _ ⟨⟩
    rfl

theorem Follows.ne_lparen {s rest : List Char} (h : Follows s) : s ≠ '(' :: rest := by
  rintro rfl
  rcases h with h | ⟨c, rest, h, _⟩
  · exact absurd (h _ rfl) (by decide)
  · cases h

theorem Follows.ne_fraction {s fs rest : List Char} (h : Follows s) (hfs : IsDigits fs) :
    s ≠ '.' :: (fs ++ rest) := by
  rintro rfl
  rcases h with h | ⟨c, rest', h, hc⟩
  · exact absurd (h _ rfl) (by decide)
  · cases fs with
    | nil => exact hfs.1 rfl
    | cons d fs =>
      cases h
      rw [hfs.2 c mem_cons_self] at hc
      cases hc

theorem word_unique {w w' s s' : List Char} (hw : ∀ c ∈ w, isPunctuation c = false)
    (hw' : ∀ c ∈ w', isPunctuation c = false) (hs : Closed s) (hs' : Closed s')
    (h : w ++ s = w' ++ s') : w = w' ∧ s = s' := by
  induction w generalizing w' with
  | nil =>
    cases w' with
    | nil => exact ⟨rfl, h⟩
    | cons c w' =>
      rw [nil_append] at h
      have hc := hs c (h ▸ rfl)
      rw [hw' c mem_cons_self] at hc
      cases hc
  | cons c w ih =>
    cases w' with
    | nil =>
      rw [nil_append] at h
      have hc := hs' c (h ▸ rfl)
      rw [hw c mem_cons_self] at hc
      cases hc
    | cons c' w' =>
      rw [cons_append, cons_append] at h
      injection h with hc h
      obtain ⟨hww, hss⟩ := ih (fun c hc => hw c (mem_cons_of_mem _ hc))
        (fun c hc => hw' c (mem_cons_of_mem _ hc)) h
      exact ⟨by rw [hc, hww], hss⟩

theorem isPunctuation_of_isDigit {c : Char} (h : c.isDigit = true) : isPunctuation c = false := by
  rw [← Bool.not_eq_true]
  intro hc
  rw [isPunctuation, contains_iff_mem] at hc
  simp only [mem_cons, not_mem_nil, or_false] at hc
  rcases hc with rfl | rfl | rfl | rfl | rfl | rfl | rfl | rfl | rfl | rfl | rfl | rfl <;> cases h

theorem IsDigits.not_punctuation (h : IsDigits ds) : ∀ c ∈ ds, isPunctuation c = false :=
  fun c hc => isPunctuation_of_isDigit (h.2 c hc)

/-! ### The word that a head begins with -/

/-- The text up to the first punctuation. -/
def Expr.word (p : Platform) : Expr → List Char
  | .num n => (p.display n).toList.takeWhile (· != '.')
  | .call func _ => func.toList
  | .bool b => (if b then "true" else "false").toList
  | .var v => v.toList
  | .cast _ _ => "cast".toList
  | .ret _ => "return".toList
  | .ifThen _ _ _ => "if".toList
  | .letIn _ _ _ => "let".toList
  | .arrayLit _ | .bin _ _ _ | .un _ _ | .method _ _ _ | .lambda _ _ | .record _ => []

def Expr.extra (p : Platform) : Expr → List Char
  | .num n => (p.display n).toList.dropWhile (· != '.')
  | .call _ args => '(' :: (listText p args ++ [')'])
  | .bool _ | .var _ | .cast _ _ | .ret _ | .ifThen _ _ _ | .letIn _ _ _ => []
  | .arrayLit es => text p (.arrayLit es)
  | .bin op a b => text p (.bin op a b)
  | .un op a => text p (.un op a)
  | .method recv name args => text p (.method recv name args)
  | .lambda params body => text p (.lambda params body)
  | .record fields => text p (.record fields)

theorem text_eq_word (e : Expr) : text p e = e.word p ++ e.extra p := by
  cases e with
  | num n => exact takeWhile_append_dropWhile.symm
  | call func args => exact text_call func args
  | bool _ | var _ | cast _ _ | ret _ | ifThen _ _ _ | letIn _ _ _ =>
    rw [text, exprToString]
    exact (append_nil _).symm
  | _ => rfl

theorem digit_ne_dot (h : IsDigits ds) : ∀ c ∈ ds, (c != '.') = true := by
  intro c hc
  have hdigit := h.2 c hc
  rw [bne_iff_ne]
  rintro rfl
  cases hdigit

theorem word_num (hp : p.ShowsNumbers) {n : F64} (hn : Literal n) :
    IsDigits ((Expr.num n).word p) ∧ ((Expr.num n).extra p = [] ∨
      ∃ fs, IsDigits fs ∧ (Expr.num n).extra p = '.' :: fs) := by
  obtain ⟨ds, hds, heq | ⟨fs, hfs, heq⟩⟩ := hp.number n hn
  · have hall := digit_ne_dot hds
    rw [Expr.word, Expr.extra, heq, takeWhile_eq_self_iff.mpr hall,
      dropWhile_eq_nil_iff.mpr hall]
    exact ⟨hds, .inl rfl⟩
  · have hall := digit_ne_dot hds
    rw [Expr.word, Expr.extra, heq, takeWhile_append_of_pos hall,
      dropWhile_append_of_pos hall]
    exact ⟨by simpa using hds, .inr ⟨fs, hfs, rfl⟩⟩

theorem word_infinity (hp : p.ShowsNumbers) :
    (Expr.num (.infinity false)).word p = "inf".toList ∧
      (Expr.num (.infinity false)).extra p = [] := by
  rw [Expr.word, Expr.extra, hp.infinite]
  exact ⟨rfl, rfl⟩

theorem word_not_punctuation (hp : p.ShowsNumbers) (he : e.Parsed) :
    ∀ c ∈ e.word p, isPunctuation c = false := by
  cases e with
  | num n =>
    rcases he with hn | rfl
    · exact (word_num hp hn).1.not_punctuation
    · rw [(word_infinity hp).1]
      simp [isPunctuation]
  | call func args => exact he.1.1.1.2
  | var v => exact he.1.1.2
  | bool b => cases b <;> simp [Expr.word, isPunctuation]
  | cast _ _ | ret _ | ifThen _ _ _ | letIn _ _ _ => simp [Expr.word, isPunctuation]
  | _ => exact fun _ h => nomatch h

theorem text_lambda (params : List Pattern) (body : Expr) :
    ∃ cs, text p (.lambda params body) = '|' :: cs := by
  rw [text, exprToString, String.toList_append, String.toList_append]
  exact ⟨_, rfl⟩

theorem text_record (fields : List (String × Expr)) :
    text p (.record fields) =
      '\x7b' :: ((", ".intercalate (fields.map Prod.fst)).toList ++ ['\x7d']) := by
  rw [text, exprToString, String.toList_append, String.toList_append]
  rfl

theorem closed_extra (hp : p.ShowsNumbers) (he : e.Parsed) (hm : e.isMethod = false)
    {s : List Char} (hs : Follows s) : Closed (e.extra p ++ s) := by
  cases e with
  | method _ _ _ => cases hm
  | num n =>
    rcases he with hn | rfl
    · rcases (word_num hp hn).2 with hextra | ⟨fs, _, hextra⟩
      · rw [hextra]
        exact hs.closed
      · rw [hextra]
        rintro _ ⟨⟩
        rfl
    · rw [(word_infinity hp).2]
      exact hs.closed
  | bool _ | var _ | cast _ _ | ret _ | ifThen _ _ _ | letIn _ _ _ => exact hs.closed
  | call _ _ =>
    rintro _ ⟨⟩
    rfl
  | arrayLit es =>
    rw [Expr.extra, text_arrayLit]
    rintro _ ⟨⟩
    rfl
  | bin op a b =>
    rw [Expr.extra, text_bin]
    rintro _ ⟨⟩
    rfl
  | un op a =>
    rw [Expr.extra, text_un]
    cases op <;>
      · rintro _ ⟨⟩
        rfl
  | lambda params body =>
    obtain ⟨cs, hcs⟩ := text_lambda (p := p) params body
    rw [Expr.extra, hcs]
    rintro _ ⟨⟩
    rfl
  | record fields =>
    rw [Expr.extra, text_record]
    rintro _ ⟨⟩
    rfl

theorem split_word (hp : p.ShowsNumbers) {e' : Expr} (he : e.Parsed) (hm : e.isMethod = false)
    (he' : e'.Parsed) (hm' : e'.isMethod = false) {s s' : List Char} (hs : Follows s)
    (hs' : Follows s') (h : text p e ++ s = text p e' ++ s') :
    e.word p = e'.word p ∧ e.extra p ++ s = e'.extra p ++ s' := by
  rw [text_eq_word, text_eq_word, append_assoc, append_assoc] at h
  exact word_unique (word_not_punctuation hp he) (word_not_punctuation hp he')
    (closed_extra hp he hm hs) (closed_extra hp he' hm' hs') h

theorem of_word_name (hp : p.ShowsNumbers) (he : e.Parsed) {v : String} (hv : IsName v)
    (h : e.word p = v.toList) :
    e = .var v ∨ (∃ args, e = .call v args) ∨ e.extra p = [] ∧
      ((∃ b, e = .bool b ∧ v = if b then "true" else "false") ∨
        v ∈ ["cast", "inf", "return", "if", "let"]) := by
  cases e with
  | num n =>
    rcases he with hn | rfl
    · have hdigits := (word_num hp hn).1
      rw [h] at hdigits
      cases hcs : v.toList with
      | nil => exact absurd hcs hv.1.1
      | cons c cs =>
        have hc := hv.2 c (by rw [hcs]; rfl)
        rw [hdigits.2 c (by rw [hcs]; exact mem_cons_self)] at hc
        cases hc
    · rw [(word_infinity hp).1] at h
      have hinf := String.toList_inj.mp h
      exact .inr (.inr ⟨(word_infinity hp).2, .inr (by rw [← hinf]; decide)⟩)
  | var w =>
    have hw : w = v := String.toList_inj.mp h
    exact .inl (by rw [hw])
  | call func args =>
    have hw : func = v := String.toList_inj.mp h
    exact .inr (.inl ⟨args, by rw [hw]⟩)
  | bool b =>
    exact .inr (.inr ⟨rfl, .inl ⟨b, rfl, (String.toList_inj.mp h).symm⟩⟩)
  | cast _ _ | ret _ | ifThen _ _ _ | letIn _ _ _ =>
    rw [Expr.word] at h
    exact .inr (.inr ⟨rfl, .inr (by rw [← String.toList_inj.mp h]; decide)⟩)
  | _ => exact absurd h.symm hv.1.1

theorem of_word_digits (hp : p.ShowsNumbers) (he : e.Parsed)
    (hds : IsDigits ds) (h : e.word p = ds) : ∃ n, Literal n ∧ e = .num n := by
  have hnot : ∀ c cs, e.word p = c :: cs → c.isDigit = true := by
    intro c cs hcs
    exact hds.2 c (by rw [← h, hcs]; exact mem_cons_self)
  have hname : ∀ v : String, IsName v → e.word p ≠ v.toList := by
    intro v hv hw
    cases hcs : v.toList with
    | nil => exact hv.1.1 hcs
    | cons c cs =>
      have hc := hv.2 c (by rw [hcs]; rfl)
      rw [hnot c cs (hw.trans hcs)] at hc
      cases hc
  cases e with
  | num n =>
    rcases he with hn | rfl
    · exact ⟨n, hn, rfl⟩
    · exact absurd (hnot _ _ (word_infinity hp).1) (by decide)
  | var w => exact absurd rfl (hname w he.1)
  | call func args => exact absurd rfl (hname func he.1.1)
  | bool b => cases b <;> exact absurd (hnot _ _ rfl) (by decide)
  | cast _ _ | ret _ | ifThen _ _ _ | letIn _ _ _ => exact absurd (hnot _ _ rfl) (by decide)
  | _ => exact absurd h.symm hds.1

theorem of_no_word (hp : p.ShowsNumbers) (he : e.Parsed) (hm : e.isMethod = false)
    (h : e.word p = []) : (∃ es, e = .arrayLit es) ∨ (∃ op a b, e = .bin op a b) ∨
      (∃ op a, e = .un op a) ∨ (∃ params body, e = .lambda params body) ∨
        ∃ fields, e = .record fields := by
  cases e with
  | method _ _ _ => cases hm
  | num n =>
    rcases he with hn | rfl
    · exact absurd h (word_num hp hn).1.1
    · rw [(word_infinity hp).1] at h
      cases h
  | var w => exact absurd h he.1.1.1
  | call func args => exact absurd h he.1.1.1.1
  | bool b =>
    rw [Expr.word] at h
    cases b <;> exact absurd h (by decide)
  | cast _ _ | ret _ | ifThen _ _ _ | letIn _ _ _ =>
    rw [Expr.word] at h
    exact absurd h (by decide)
  | arrayLit es => exact .inl ⟨es, rfl⟩
  | bin op a b => exact .inr (.inl ⟨op, a, b, rfl⟩)
  | un op a => exact .inr (.inr (.inl ⟨op, a, rfl⟩))
  | lambda params body => exact .inr (.inr (.inr (.inl ⟨params, body, rfl⟩)))
  | record fields => exact .inr (.inr (.inr (.inr ⟨fields, rfl⟩)))

/-! ### Reading back -/

/-- No other expression reads the same up to the end of the text. -/
def Unique (p : Platform) (e : Expr) : Prop :=
  ∀ e' s s', e'.Parsed → Stops s → Stops s' → text p e ++ s = text p e' ++ s' → e = e' ∧ s = s'

/-- No other head reads the same. -/
def UniqueHead (p : Platform) (e : Expr) : Prop :=
  ∀ e' s s', e'.Parsed → e'.isMethod = false → Follows s → Follows s' →
    text p e ++ s = text p e' ++ s' → e = e' ∧ s = s'

theorem Expr.Parsed.head : {e : Expr} → e.Parsed → e.head.Parsed
  | .method _ _ _, h => h.1.head
  | .num _, h | .bool _, h | .var _, h | .arrayLit _, h | .bin _ _ _, h | .un _ _, h
  | .ifThen _ _ _, h | .letIn _ _ _, h | .call _ _, h | .lambda _ _, h | .record _, h
  | .cast _ _, h | .ret _, h => h

theorem Expr.Parsed.calls : {e : Expr} → e.Parsed →
    ∀ call ∈ e.calls, IsName call.1 ∧ ∀ a ∈ call.2, a.Parsed
  | .method _ _ _, h => by
    rw [Expr.calls]
    intro call hcall
    rcases mem_append.mp hcall with hcall | hcall
    · exact h.1.calls call hcall
    · rw [mem_singleton.mp hcall]
      exact ⟨h.2.1, parsedAll_iff.mp h.2.2⟩
  | .num _, _ | .bool _, _ | .var _, _ | .arrayLit _, _ | .bin _ _ _, _ | .un _ _, _
  | .ifThen _ _ _, _ | .letIn _ _ _, _ | .call _ _, _ | .lambda _ _, _ | .record _, _
  | .cast _ _, _ | .ret _, _ => fun _ h => nomatch h

/-- No expression begins with what can follow one. -/
theorem text_opens (hp : p.ShowsNumbers) (he : e.Parsed) :
    ∃ c cs, text p e = c :: cs ∧ c ∉ [' ', ',', ')', ']'] := by
  suffices h : ∃ c cs, text p e.head = c :: cs ∧ c ∉ [' ', ',', ')', ']'] by
    obtain ⟨c, cs, hcs, hc⟩ := h
    rw [text_eq_calls, hcs]
    exact ⟨c, _, rfl, hc⟩
  have hhead := he.head
  cases hword : e.head.word p with
  | cons c cs =>
    refine ⟨c, cs ++ e.head.extra p, by rw [text_eq_word, hword, cons_append], fun hc => ?_⟩
    have hpunct : isPunctuation c = true := stops_cons (s := []) hc |>.closed c rfl
    rw [word_not_punctuation hp hhead c (hword ▸ mem_cons_self)] at hpunct
    cases hpunct
  | nil =>
    rcases of_no_word hp hhead (isMethod_head e) hword with
      ⟨es, h⟩ | ⟨op, a, b, h⟩ | ⟨op, a, h⟩ | ⟨params, body, h⟩ | ⟨fields, h⟩
    · rw [h, text_arrayLit]
      exact ⟨_, _, rfl, by decide⟩
    · rw [h, text_bin]
      exact ⟨_, _, rfl, by decide⟩
    · rw [h, text_un]
      cases op <;> exact ⟨_, _, rfl, by decide⟩
    · rw [h]
      obtain ⟨cs, hcs⟩ := text_lambda (p := p) params body
      exact ⟨_, cs, hcs, by decide⟩
    · rw [h, text_record]
      exact ⟨_, _, rfl, by decide⟩

theorem stops_restText {es : List Expr} {s : List Char} (hs : Stops s) :
    Stops (restText p es ++ s) := by
  cases es with
  | nil => exact hs
  | cons e es => exact stops_cons (by decide)

theorem restText_cons (e : Expr) (es : List Expr) :
    restText p (e :: es) = ',' :: ' ' :: (text p e ++ restText p es) := by
  rw [restText, flatMap_cons]
  rfl

section Lists

variable {c c' : Char} {s s' : List Char}

theorem restText_unique (hc : c ∈ [')', ']']) (hc' : c' ∈ [')', ']']) {es es' : List Expr}
    (hunique : ∀ e ∈ es, Unique p e) (hparsed : ∀ e ∈ es', e.Parsed)
    (h : restText p es ++ c :: s = restText p es' ++ c' :: s') : es = es' ∧ c :: s = c' :: s' := by
  have hstops : Stops (c :: s) := stops_cons (mem_of_mem_drop (i := 2) hc)
  have hstops' : Stops (c' :: s') := stops_cons (mem_of_mem_drop (i := 2) hc')
  induction es generalizing es' with
  | nil =>
    cases es' with
    | nil => exact ⟨rfl, h⟩
    | cons e' es' =>
      rw [restText_cons] at h
      injection h with h
      exact absurd (h ▸ hc) (by decide)
  | cons e es ih =>
    cases es' with
    | nil =>
      rw [restText_cons] at h
      injection h with h
      exact absurd (h ▸ hc') (by decide)
    | cons e' es' =>
      rw [restText_cons, restText_cons, cons_append, cons_append, cons_append,
        cons_append, append_assoc, append_assoc] at h
      injection h with _ h
      injection h with _ h
      obtain ⟨rfl, hrest⟩ := hunique e mem_cons_self e' _ _ (hparsed e' mem_cons_self)
        (stops_restText hstops) (stops_restText hstops') h
      obtain ⟨rfl, hend⟩ := ih (fun e he => hunique e (mem_cons_of_mem _ he))
        (fun e he => hparsed e (mem_cons_of_mem _ he)) hrest
      exact ⟨rfl, hend⟩

theorem listText_unique (hp : p.ShowsNumbers) (hc : c ∈ [')', ']']) (hc' : c' ∈ [')', ']'])
    {es es' : List Expr} (hes : ∀ e ∈ es, e.Parsed) (hunique : ∀ e ∈ es, Unique p e)
    (hparsed : ∀ e ∈ es', e.Parsed) (h : listText p es ++ c :: s = listText p es' ++ c' :: s') :
    es = es' ∧ c :: s = c' :: s' := by
  have hne : ∀ {e : Expr} {es : List Expr} {d : Char} {t t' : List Char}, e.Parsed →
      d ∈ [')', ']'] → d :: t ≠ listText p (e :: es) ++ t' := by
    intro e es d t t' he hd h
    obtain ⟨d', ds, hds, hd'⟩ := text_opens hp he
    rw [listText, hds] at h
    injection h with h
    rw [h] at hd
    exact hd' (mem_of_mem_drop (i := 2) hd)
  cases es with
  | nil =>
    cases es' with
    | nil => exact ⟨rfl, h⟩
    | cons e' es' => exact absurd h (hne (hparsed e' mem_cons_self) hc)
  | cons e es =>
    cases es' with
    | nil => exact absurd h.symm (hne (hes e mem_cons_self) hc')
    | cons e' es' =>
      rw [listText, listText, append_assoc, append_assoc] at h
      have hstops : Stops (c :: s) := stops_cons (mem_of_mem_drop (i := 2) hc)
      have hstops' : Stops (c' :: s') := stops_cons (mem_of_mem_drop (i := 2) hc')
      obtain ⟨rfl, hrest⟩ := hunique e mem_cons_self e' _ _ (hparsed e' mem_cons_self)
        (stops_restText hstops) (stops_restText hstops') h
      obtain ⟨rfl, hend⟩ := restText_unique hc hc'
        (fun e he => hunique e (mem_cons_of_mem _ he))
        (fun e he => hparsed e (mem_cons_of_mem _ he)) hrest
      exact ⟨rfl, hend⟩

end Lists

theorem follows_calls {calls : List (String × List Expr)} (hcalls : ∀ call ∈ calls, IsName call.1)
    {s : List Char} (hs : Stops s) : Follows (calls.flatMap (callText p) ++ s) := by
  cases calls with
  | nil => exact .inl hs
  | cons call calls =>
    have hname := hcalls call mem_cons_self
    rw [flatMap_cons, append_assoc, callText]
    cases hcs : call.1.toList with
    | nil => exact absurd hcs hname.1.1
    | cons c cs => exact .inr ⟨c, _, rfl, hname.2 c (by rw [hcs]; rfl)⟩

theorem args_unique (hp : p.ShowsNumbers) {args args' : List Expr} {s s' : List Char}
    (hs : Follows s) (hs' : Follows s') (hparsed : ∀ a ∈ args, a.Parsed)
    (hparsed' : ∀ a ∈ args', a.Parsed) (hunique : ∀ a ∈ args, Unique p a)
    (h : argsText p args ++ s = argsText p args' ++ s') : args = args' ∧ s = s' := by
  cases args with
  | nil =>
    cases args' with
    | nil => exact ⟨rfl, h⟩
    | cons a' args' => exact absurd h hs.ne_lparen
  | cons a args =>
    cases args' with
    | nil => exact absurd h.symm hs'.ne_lparen
    | cons a' args' =>
      rw [argsText, argsText, cons_append, cons_append, append_assoc,
        append_assoc] at h
      injection h with _ h
      have hclose : ')' ∈ [')', ']'] := mem_cons_self
      obtain ⟨hargs, hend⟩ := listText_unique hp hclose hclose hparsed hunique hparsed' h
      injection hend with _ hend
      exact ⟨hargs, hend⟩

theorem closed_args {args : List Expr} {s : List Char} (hs : Follows s) :
    Closed (argsText p args ++ s) := by
  cases args with
  | nil => exact hs.closed
  | cons a args =>
    rintro _ ⟨⟩
    rfl

theorem calls_unique (hp : p.ShowsNumbers) {calls calls' : List (String × List Expr)}
    {s s' : List Char} (hs : Stops s) (hs' : Stops s')
    (hcalls : ∀ call ∈ calls, IsName call.1 ∧ ∀ a ∈ call.2, a.Parsed)
    (hcalls' : ∀ call ∈ calls', IsName call.1 ∧ ∀ a ∈ call.2, a.Parsed)
    (hunique : ∀ call ∈ calls, ∀ a ∈ call.2, Unique p a)
    (h : calls.flatMap (callText p) ++ s = calls'.flatMap (callText p) ++ s') :
    calls = calls' ∧ s = s' := by
  have hdot : ∀ {t rest : List Char}, Stops t → t ≠ '.' :: rest := by
    rintro t rest ht rfl
    exact absurd (ht _ rfl) (by decide)
  induction calls generalizing calls' with
  | nil =>
    cases calls' with
    | nil => exact ⟨rfl, h⟩
    | cons call' calls' => exact absurd h (hdot hs)
  | cons call calls ih =>
    cases calls' with
    | nil => exact absurd h.symm (hdot hs')
    | cons call' calls' =>
      obtain ⟨name, args⟩ := call
      obtain ⟨name', args'⟩ := call'
      have hcall := forall_mem_cons.mp hcalls
      have hcall' := forall_mem_cons.mp hcalls'
      have hfollows := follows_calls (p := p) (fun call h => (hcall.2 call h).1) hs
      have hfollows' := follows_calls (p := p) (fun call h => (hcall'.2 call h).1) hs'
      rw [flatMap_cons, flatMap_cons, append_assoc, append_assoc, callText,
        callText, cons_append, cons_append, append_assoc, append_assoc] at h
      injection h with _ h
      obtain ⟨hname, hargs⟩ := word_unique hcall.1.1.1.2 hcall'.1.1.1.2 (closed_args hfollows)
        (closed_args hfollows') h
      obtain rfl : name = name' := String.toList_inj.mp hname
      obtain ⟨rfl, hrest⟩ := args_unique hp hfollows hfollows' hcall.1.2 hcall'.1.2
        (hunique _ mem_cons_self) hargs
      obtain ⟨rfl, hend⟩ := ih hcall.2 hcall'.2
        (fun call h => hunique call (mem_cons_of_mem _ h)) hrest
      exact ⟨rfl, hend⟩

/-! ### Heads -/

/-- The forms of heads that begin with punctuation, by what it is. -/
theorem of_opener (hp : p.ShowsNumbers) (he : e.Parsed) (hm : e.isMethod = false)
    (hword : e.word p = []) {c : Char} {cs s : List Char} (h : c :: cs = text p e ++ s) :
    (c = '[' ∧ ∃ es, e = .arrayLit es) ∨ (c = '(' ∧ ∃ op a b, e = .bin op a b) ∨
      (∃ op a, [c] = op.text.toList ∧ e = .un op a) ∨ c = '|' ∨
        c = '\x7b' ∧ ∃ fields, e = .record fields := by
  rcases of_no_word hp he hm hword with
    ⟨es, rfl⟩ | ⟨op, a, b, rfl⟩ | ⟨op, a, rfl⟩ | ⟨params, body, rfl⟩ | ⟨fields, rfl⟩
  · rw [text_arrayLit] at h
    injection h with h
    exact .inl ⟨h, es, rfl⟩
  · rw [text_bin] at h
    injection h with h
    exact .inr (.inl ⟨h, op, a, b, rfl⟩)
  · rw [text_un] at h
    refine .inr (.inr (.inl ⟨op, a, ?_, rfl⟩))
    cases op <;>
      · injection h with h
        rw [h]
        rfl
  · obtain ⟨cs', hcs⟩ := text_lambda (p := p) params body
    rw [hcs] at h
    injection h with h
    exact .inr (.inr (.inr (.inl h)))
  · rw [text_record] at h
    injection h with h
    exact .inr (.inr (.inr (.inr ⟨h, fields, rfl⟩)))

theorem op_text_ne (op : UnOp) {c : Char} (hc : c ∈ ['[', '(', '\x7b']) : [c] ≠ op.text.toList := by
  simp only [mem_cons, not_mem_nil, or_false] at hc
  rcases hc with rfl | rfl | rfl <;> cases op <;> simp [UnOp.text]

section Heads

variable {n : F64} {v : String} {es args : List Expr} {a b : Expr}

theorem uniqueHead_num (hp : p.ShowsNumbers) (hn : Literal n) : UniqueHead p (.num n) := by
  intro e' s s' he' hm' hs hs' h
  obtain ⟨hword, hextra⟩ := split_word hp (e := .num n) (Or.inl hn) rfl he' hm' hs hs' h
  obtain ⟨hdigits, hfraction⟩ := word_num hp hn
  obtain ⟨m, hm, rfl⟩ := of_word_digits hp he' hdigits hword.symm
  have htext : (Expr.num n).extra p = (Expr.num m).extra p ∧ s = s' := by
    obtain ⟨_, hfraction'⟩ := word_num hp hm
    rcases hfraction with hnone | ⟨fs, hfs, hsome⟩
    · rcases hfraction' with hnone' | ⟨fs', hfs', hsome'⟩
      · rw [hnone, hnone'] at hextra ⊢
        exact ⟨rfl, hextra⟩
      · rw [hnone, hsome'] at hextra
        exact absurd hextra (hs.ne_fraction hfs')
    · rcases hfraction' with hnone' | ⟨fs', hfs', hsome'⟩
      · rw [hsome, hnone'] at hextra
        exact absurd hextra.symm (hs'.ne_fraction hfs)
      · rw [hsome, hsome'] at hextra ⊢
        injection hextra with _ hextra
        obtain ⟨rfl, hend⟩ := word_unique hfs.not_punctuation hfs'.not_punctuation hs.closed
          hs'.closed hextra
        exact ⟨rfl, hend⟩
  have hdisplay : p.display n = p.display m := by
    have hnum := (text_eq_word (p := p) (.num n)).trans
      ((congrArg₂ (· ++ ·) hword htext.1).trans (text_eq_word (.num m)).symm)
    rw [text, text, exprToString, exprToString] at hnum
    exact String.toList_inj.mp hnum
  rw [hp.injective n m hn hm hdisplay]
  exact ⟨rfl, htext.2⟩

theorem uniqueHead_var (hp : p.ShowsNumbers) (hv : (Expr.var v).Parsed)
    (hshown : (Expr.var v).Shown) :
    UniqueHead p (.var v) := by
  intro e' s s' he' hm' hs hs' h
  obtain ⟨hword, hextra⟩ := split_word hp hv rfl he' hm' hs hs' h
  rcases of_word_name hp he' hv.1 hword.symm with rfl | ⟨args, rfl⟩ | ⟨_, ⟨b, _, hb⟩ | hmem⟩
  · exact ⟨rfl, hextra⟩
  · exact absurd hextra hs.ne_lparen
  · refine absurd ?_ hv.2
    cases b <;> (rw [hb]; decide)
  · simp only [mem_cons, not_mem_nil, or_false] at hmem
    rcases hmem with rfl | rfl | rfl | rfl | rfl
    · exact absurd rfl hshown.1
    · exact absurd rfl hshown.2
    · exact absurd (by decide) hv.2
    · exact absurd (by decide) hv.2
    · exact absurd (by decide) hv.2

theorem isName_bool (b : Bool) : IsName (if b then "true" else "false") := by
  cases b
  · exact ⟨⟨by decide, by simp [isPunctuation]⟩, fun c hc => by cases hc; decide⟩
  · exact ⟨⟨by decide, by simp [isPunctuation]⟩, fun c hc => by cases hc; decide⟩

theorem uniqueHead_bool (hp : p.ShowsNumbers) (x : Bool) : UniqueHead p (.bool x) := by
  intro e' s s' he' hm' hs hs' h
  obtain ⟨hword, hextra⟩ := split_word hp (e := .bool x) trivial rfl he' hm' hs hs' h
  rcases of_word_name hp he' (isName_bool x) hword.symm with rfl | ⟨args, rfl⟩ |
    ⟨hnone, ⟨y, rfl, hy⟩ | hmem⟩
  · refine absurd ?_ he'.2
    cases x <;> decide
  · refine absurd ?_ he'.1.2
    cases x <;> decide
  · rw [hnone] at hextra
    refine ⟨?_, hextra⟩
    cases x <;> cases y <;> first | rfl | exact absurd hy (by decide)
  · cases x <;> exact absurd hmem (by decide)

theorem uniqueHead_call (hp : p.ShowsNumbers) (hcall : (Expr.call v args).Parsed)
    (hunique : ∀ a ∈ args, Unique p a) : UniqueHead p (.call v args) := by
  intro e' s s' he' hm' hs hs' h
  obtain ⟨hword, hextra⟩ := split_word hp hcall rfl he' hm' hs hs' h
  rcases of_word_name hp he' hcall.1.1 hword.symm with rfl | ⟨args', rfl⟩ | ⟨hnone, _⟩
  · exact absurd hextra.symm hs'.ne_lparen
  · rw [Expr.extra, Expr.extra, cons_append, cons_append, append_assoc,
      append_assoc] at hextra
    injection hextra with _ hextra
    have hclose : ')' ∈ [')', ']'] := mem_cons_self
    obtain ⟨rfl, hend⟩ := listText_unique hp hclose hclose (parsedAll_iff.mp hcall.2) hunique
      (parsedAll_iff.mp he'.2) hextra
    injection hend with _ hend
    exact ⟨rfl, hend⟩
  · rw [hnone] at hextra
    exact absurd hextra.symm hs'.ne_lparen

theorem uniqueHead_arrayLit (hp : p.ShowsNumbers) (hes : (Expr.arrayLit es).Parsed)
    (hunique : ∀ e ∈ es, Unique p e) : UniqueHead p (.arrayLit es) := by
  intro e' s s' he' hm' hs hs' h
  obtain ⟨hword, _⟩ := split_word hp hes rfl he' hm' hs hs' h
  rw [text_arrayLit] at h
  rcases of_opener hp he' hm' hword.symm h with
    ⟨_, es', rfl⟩ | ⟨hc, _⟩ | ⟨op, a, hc, _⟩ | hc | ⟨hc, _⟩
  · rw [text_arrayLit, cons_append, cons_append, append_assoc,
      append_assoc] at h
    injection h with _ h
    have hclose : ']' ∈ [')', ']'] := mem_cons_of_mem _ mem_cons_self
    obtain ⟨rfl, hend⟩ := listText_unique hp hclose hclose (parsedAll_iff.mp hes) hunique
      (parsedAll_iff.mp he') h
    injection hend with _ hend
    exact ⟨rfl, hend⟩
  · exact absurd hc (by decide)
  · exact absurd hc (op_text_ne op (by decide))
  · exact absurd hc (by decide)
  · exact absurd hc (by decide)

def readOp : List Char → Option BinOp
  | ['+'] => some .add
  | ['-'] => some .sub
  | ['*'] => some .mul
  | ['/'] => some .div
  | ['%'] => some .rem
  | ['<'] => some .lt
  | ['>'] => some .gt
  | ['<', '='] => some .le
  | ['>', '='] => some .ge
  | ['=', '='] => some .eq
  | ['!', '='] => some .ne
  | ['&', '&'] => some .and
  | ['|', '|'] => some .or
  | _ => none

theorem readOp_text (op : BinOp) : readOp op.text.toList = some op := by
  cases op <;> rfl

theorem takeWhile_op (op : BinOp) (s : List Char) :
    (op.text.toList ++ ' ' :: s).takeWhile (· != ' ') = op.text.toList := by
  cases op <;> rfl

theorem op_text_unique {op op' : BinOp} {s s' : List Char}
    (h : op.text.toList ++ ' ' :: s = op'.text.toList ++ ' ' :: s') : op = op' ∧ s = s' := by
  have htext : op.text.toList = op'.text.toList := by
    rw [← takeWhile_op op s, h, takeWhile_op]
  have hop := readOp_text op
  rw [htext, readOp_text] at hop
  obtain rfl := Option.some.inj hop
  injection append_cancel_left h with _ h
  exact ⟨rfl, h⟩

theorem uniqueHead_bin (hp : p.ShowsNumbers) (op : BinOp) (hab : a.Parsed ∧ b.Parsed)
    (ha : Unique p a) (hb : Unique p b) : UniqueHead p (.bin op a b) := by
  intro e' s s' he' hm' hs hs' h
  obtain ⟨hword, _⟩ := split_word hp (e := .bin op a b) hab rfl he' hm' hs hs' h
  rw [text_bin] at h
  rcases of_opener hp he' hm' hword.symm h with
    ⟨hc, _⟩ | ⟨_, op', a', b', rfl⟩ | ⟨op', a', hc, _⟩ | hc | ⟨hc, _⟩
  · exact absurd hc (by decide)
  · rw [text_bin, cons_append, cons_append] at h
    injection h with _ h
    simp only [append_assoc, cons_append] at h
    obtain ⟨rfl, hop⟩ := ha a' _ _ he'.1 (stops_cons (by decide)) (stops_cons (by decide)) h
    injection hop with _ hop
    obtain ⟨rfl, hright⟩ := op_text_unique hop
    obtain ⟨rfl, hend⟩ := hb b' _ _ he'.2 (stops_cons (by decide)) (stops_cons (by decide)) hright
    injection hend with _ hend
    exact ⟨rfl, hend⟩
  · exact absurd hc (op_text_ne op' (by decide))
  · exact absurd hc (by decide)
  · exact absurd hc (by decide)

theorem intercalate_opens (f : String) (fs : List String) :
    ∃ t, (", ".intercalate (f :: fs)).toList = f.toList ++ t := by
  cases fs with
  | nil => exact ⟨[], by rw [String.intercalate_singleton, append_nil]⟩
  | cons f' fs =>
    rw [String.intercalate_cons_cons, String.toList_append, String.toList_append, append_assoc]
    exact ⟨_, rfl⟩

theorem uniqueHead_record (hp : p.ShowsNumbers) : UniqueHead p (.record []) := by
  intro e' s s' he' hm' hs hs' h
  obtain ⟨hword, _⟩ := split_word hp (e := .record []) trivial rfl he' hm' hs hs' h
  rw [text_record] at h
  rcases of_opener hp he' hm' hword.symm h with
    ⟨hc, _⟩ | ⟨hc, _⟩ | ⟨op', a', hc, _⟩ | hc | ⟨_, fields, rfl⟩
  · exact absurd hc (by decide)
  · exact absurd hc (by decide)
  · exact absurd hc (op_text_ne op' (by decide))
  · exact absurd hc (by decide)
  · rw [text_record, cons_append, cons_append, append_assoc, append_assoc] at h
    injection h with _ h
    cases fields with
    | nil =>
      rw [map_nil, String.intercalate_nil, String.toList_empty, nil_append,
        nil_append] at h
      injection h with _ h
      exact ⟨rfl, h⟩
    | cons field fields =>
      obtain ⟨c, cs, hcs⟩ := exists_cons_of_ne_nil he'.1.1.1
      obtain ⟨t, ht⟩ := intercalate_opens field.1 (fields.map Prod.fst)
      rw [map_nil, String.intercalate_nil, String.toList_empty, nil_append, map_cons,
        ht, hcs] at h
      injection h with hc
      have hpunct := he'.1.1.2 c (hcs ▸ mem_cons_self)
      rw [← hc] at hpunct
      exact absurd hpunct (by decide)

end Heads

/-! ### Whole expressions -/

theorem text_foldl (calls : List (String × List Expr)) (e : Expr) :
    text p (calls.foldl Expr.apply e) = text p e ++ calls.flatMap (callText p) := by
  induction calls generalizing e with
  | nil => exact (append_nil _).symm
  | cons call calls ih =>
    rw [foldl_cons, ih, Expr.apply, text_method, flatMap_cons, append_assoc]

theorem parsed_foldl {calls : List (String × List Expr)}
    (hcalls : ∀ call ∈ calls, IsName call.1 ∧ ∀ a ∈ call.2, a.Parsed) (he : e.Parsed) :
    (calls.foldl Expr.apply e).Parsed := by
  induction calls generalizing e with
  | nil => exact he
  | cons call calls ih =>
    have hcall := forall_mem_cons.mp hcalls
    exact ih hcall.2 ⟨he, hcall.1.1, parsedAll_iff.mpr hcall.1.2⟩

theorem isMethod_foldl {calls : List (String × List Expr)} (hcalls : calls ≠ []) (e : Expr) :
    (calls.foldl Expr.apply e).isMethod = true := by
  obtain ⟨init, last, rfl⟩ := (eq_nil_or_concat' calls).resolve_left hcalls
  rw [foldl_append]
  rfl

theorem unique_of_head (hp : p.ShowsNumbers) (he : e.Parsed)
    (hhead : UniqueHead p e.head) (hcalls : ∀ call ∈ e.calls, ∀ a ∈ call.2, Unique p a) :
    Unique p e := by
  intro e' s s' he' hs hs' h
  rw [text_eq_calls e, text_eq_calls e', append_assoc, append_assoc] at h
  obtain ⟨hheads, hrest⟩ := hhead e'.head _ _ he'.head (isMethod_head e')
    (follows_calls (fun call h => (he.calls call h).1) hs)
    (follows_calls (fun call h => (he'.calls call h).1) hs') h
  obtain ⟨hall, hend⟩ := calls_unique hp hs hs' he.calls he'.calls hcalls hrest
  rw [← foldl_calls e, ← foldl_calls e', hheads, hall]
  exact ⟨rfl, hend⟩

theorem unique_un (hp : p.ShowsNumbers) (op : UnOp) {a : Expr} (ha : a.Parsed)
    (hm : a.isMethod = false) (hunique : Unique p a) : Unique p (.un op a) := by
  intro e' s s' he' hs hs' h
  have hfollows := follows_calls (p := p) (fun call h => (he'.calls call h).1) hs'
  rw [text_eq_calls e', append_assoc] at h
  obtain ⟨hword, _⟩ := split_word hp (e := .un op a) ha rfl he'.head (isMethod_head e')
    (.inl hs) hfollows h
  obtain ⟨c, hc⟩ : ∃ c, op.text.toList = [c] := by cases op <;> exact ⟨_, rfl⟩
  rw [text_un, hc, append_assoc] at h
  have hne : ∀ d ∈ ['[', '(', '\x7b'], c ≠ d := by
    rintro d hd rfl
    exact op_text_ne op hd hc.symm
  rcases of_opener hp he'.head (isMethod_head e') hword.symm h with
    ⟨hd, _⟩ | ⟨hd, _⟩ | ⟨op', a', hd, hhead⟩ | hd | ⟨hd, _⟩
  · exact absurd hd (hne _ (by decide))
  · exact absurd hd (hne _ (by decide))
  · obtain rfl : op = op' := by
      rw [← hc] at hd
      cases op <;> cases op' <;> first | rfl | exact absurd hd (by decide)
    have ha' : a'.Parsed := by
      have hparsed := he'.head
      rwa [hhead] at hparsed
    rw [hhead, text_un, hc, append_assoc, ← append_assoc (text p a'), ← text_foldl] at h
    obtain ⟨heq, hend⟩ := hunique _ s s' (parsed_foldl he'.calls ha') hs hs'
      (append_cancel_left h)
    have hcalls : e'.calls = [] := by
      by_contra hcalls
      rw [heq, isMethod_foldl hcalls] at hm
      cases hm
    refine ⟨?_, hend⟩
    rw [← foldl_calls e', hhead, hcalls, heq, hcalls]
    rfl
  · rw [hd] at hc
    cases op <;> exact absurd hc (by decide)
  · exact absurd hd (hne _ (by decide))

theorem Expr.Shown.head : {e : Expr} → e.Shown → e.isMethod = true →
    e.head.isUn = false ∧ e.head.Shown ∧ e.head.size < e.size
  | .method recv name args, h, _ => by
    rw [Expr.head, Expr.size]
    cases hrecv : recv.isMethod with
    | true =>
      obtain ⟨hun, hshown, hsize⟩ := h.2.1.head hrecv
      exact ⟨hun, hshown, by omega⟩
    | false =>
      rw [(head_of_not_isMethod hrecv).1]
      exact ⟨h.1, h.2.1, by omega⟩

theorem Expr.Shown.calls : {e : Expr} → e.Shown →
    ∀ call ∈ e.calls, ∀ a ∈ call.2, a.Shown ∧ a.size < e.size
  | .method recv name args, h => by
    rw [Expr.calls, Expr.size]
    intro call hcall a ha
    rcases mem_append.mp hcall with hcall | hcall
    · obtain ⟨hshown, hsize⟩ := h.2.1.calls call hcall a ha
      exact ⟨hshown, by omega⟩
    · rw [mem_singleton.mp hcall] at ha
      have hsize : a.size ≤ sizeAll args := size_le_sizeAll ha
      exact ⟨shownAll_iff.mp h.2.2 a ha, by omega⟩
  | .num _, _ | .bool _, _ | .var _, _ | .arrayLit _, _ | .bin _ _ _, _ | .un _ _, _
  | .ifThen _ _ _, _ | .letIn _ _ _, _ | .call _ _, _ | .lambda _ _, _ | .record _, _
  | .cast _ _, _ | .ret _, _ => fun _ h => nomatch h

theorem uniqueHead_of_parts (hp : p.ShowsNumbers) (he : e.Parsed) (hshown : e.Shown)
    (hm : e.isMethod = false) (hun : e.isUn = false)
    (hparts : ∀ a : Expr, a.size < e.size → a.Parsed → a.Shown → Unique p a) : UniqueHead p e := by
  have hall : ∀ es : List Expr, sizeAll es < e.size → ParsedAll es → ShownAll es →
      ∀ a ∈ es, Unique p a := by
    intro es hsize hparsed hshown a ha
    have := size_le_sizeAll ha
    exact hparts a (by omega) (parsedAll_iff.mp hparsed a ha) (shownAll_iff.mp hshown a ha)
  cases e with
  | num n => exact uniqueHead_num hp (he.resolve_right hshown)
  | bool b => exact uniqueHead_bool hp b
  | var v => exact uniqueHead_var hp he hshown
  | arrayLit es =>
    rw [Expr.size] at hall
    exact uniqueHead_arrayLit hp he (hall es (by omega) he hshown)
  | bin op a b =>
    rw [Expr.size] at hparts
    exact uniqueHead_bin hp op he (hparts a (by omega) he.1 hshown.1)
      (hparts b (by omega) he.2 hshown.2)
  | call func args =>
    rw [Expr.size] at hall
    exact uniqueHead_call hp he (hall args (by omega) he.2 hshown)
  | record fields =>
    obtain rfl : fields = [] := hshown
    exact uniqueHead_record hp
  | un op a => cases hun
  | method recv name args => cases hm
  | ifThen _ _ _ | letIn _ _ _ | lambda _ _ | cast _ _ | ret _ => exact absurd hshown id

theorem unique_of_shown (hp : p.ShowsNumbers) {size : Nat} (hsize : e.size ≤ size)
    (he : e.Parsed) (hshown : e.Shown) : Unique p e := by
  induction size generalizing e with
  | zero =>
    have hpos : 0 < e.size := by
      cases e <;> rw [Expr.size] <;> omega
    omega
  | succ size ih =>
    have hparts : ∀ a : Expr, a.size < e.size → a.Parsed → a.Shown → Unique p a :=
      fun a hlt => ih (by omega)
    cases hm : e.isMethod with
    | true =>
      obtain ⟨hun, hhead, hlt⟩ := hshown.head hm
      refine unique_of_head hp he ?_ fun call hcall a ha => ?_
      · exact uniqueHead_of_parts hp he.head hhead (isMethod_head e) hun
          fun a ha => hparts a (by omega)
      · obtain ⟨ha', hlt⟩ := hshown.calls call hcall a ha
        exact hparts a hlt ((he.calls call hcall).2 a ha) ha'
    | false =>
      obtain ⟨hhead, hcalls⟩ := head_of_not_isMethod hm
      cases hun : e.isUn with
      | false =>
        refine unique_of_head hp he ?_ fun call hcall => ?_
        · rw [hhead]
          exact uniqueHead_of_parts hp he hshown hm hun hparts
        · rw [hcalls] at hcall
          cases hcall
      | true =>
        cases e with
        | un op a =>
          exact unique_un hp op he hshown.1
            (hparts a (by rw [Expr.size]; omega) he hshown.2)
        | _ => cases hun

/-! ### Texts that two expressions have -/

theorem un_ne (op : UnOp) (e : Expr) : Expr.un op e ≠ e := by
  intro h
  have hsize := congrArg Expr.size h
  rw [Expr.size] at hsize
  omega

/-- What is not shown can be exchanged without a change of the text. -/
def Exchanged (p : Platform) (e : Expr) : Prop :=
  ∃ e', e' ≠ e ∧ e'.Parsed ∧ exprToString p e' = exprToString p e

mutual

theorem exchanged_of_not_shown (hp : p.ShowsNumbers) : (e : Expr) → e.Parsed → ¬e.Shown →
    Exchanged p e
  | .num n, he, h => by
    obtain rfl : n = .infinity false := not_not.mp h
    refine ⟨.var "inf", fun h => (nomatch h),
      ⟨⟨⟨by decide, by simp [isPunctuation]⟩, ?_⟩, by decide⟩, ?_⟩
    · rintro _ ⟨⟩
      decide
    · rw [exprToString, exprToString, hp.infinite]
  | .bool b, _, h => absurd trivial h
  | .var v, he, h => by
    rw [Expr.Shown, not_and_or, not_not, not_not] at h
    rcases h with rfl | rfl
    · exact ⟨.cast (.bool true) (.named "T"), fun h => (nomatch h), trivial, by
        rw [exprToString, exprToString]⟩
    · exact ⟨.num (.infinity false), fun h => (nomatch h), .inr rfl, by
        rw [exprToString, exprToString, hp.infinite]⟩
  | .arrayLit es, he, h => by
    obtain ⟨es', hne, hparsed, _, htext⟩ := exchanged_all hp es he h
    exact ⟨.arrayLit es', fun h => hne (Expr.arrayLit.inj h), hparsed, by
      rw [exprToString, exprToString, htext]⟩
  | .bin op a b, he, h => by
    rcases not_and_or.mp h with h | h
    · obtain ⟨a', hne, hparsed, htext⟩ := exchanged_of_not_shown hp a he.1 h
      exact ⟨.bin op a' b, fun h => hne (Expr.bin.inj h).2.1, ⟨hparsed, he.2⟩, by
        rw [exprToString, exprToString, htext]⟩
    · obtain ⟨b', hne, hparsed, htext⟩ := exchanged_of_not_shown hp b he.2 h
      exact ⟨.bin op a b', fun h => hne (Expr.bin.inj h).2.2, ⟨he.1, hparsed⟩, by
        rw [exprToString, exprToString, htext]⟩
  | .un op a, he, h => by
    rcases not_and_or.mp h with h | h
    · cases a with
      | method recv name args =>
        refine ⟨.method (.un op recv) name args, fun h => (nomatch h), he, ?_⟩
        rw [exprToString, exprToString, exprToString, exprToString]
        split <;> simp only [String.append_assoc]
      | _ => exact absurd rfl h
    · obtain ⟨a', hne, hparsed, htext⟩ := exchanged_of_not_shown hp a he h
      exact ⟨.un op a', fun h => hne (Expr.un.inj h).2, hparsed, by
        rw [exprToString, exprToString, htext]⟩
  | .call func args, he, h => by
    obtain ⟨args', hne, hparsed, _, htext⟩ := exchanged_all hp args he.2 h
    exact ⟨.call func args', fun h => hne (Expr.call.inj h).2, ⟨he.1, hparsed⟩, by
      rw [exprToString, exprToString, htext]⟩
  | .method recv name args, he, h => by
    rw [Expr.Shown, not_and_or, not_and_or] at h
    rcases h with h | h | h
    · cases recv with
      | un op a =>
        refine ⟨.un op (.method a name args), fun h => (nomatch h), he, ?_⟩
        rw [exprToString, exprToString, exprToString, exprToString]
        split <;> simp only [String.append_assoc]
      | _ => exact absurd rfl h
    · obtain ⟨recv', hne, hparsed, htext⟩ := exchanged_of_not_shown hp recv he.1 h
      exact ⟨.method recv' name args, fun h => hne (Expr.method.inj h).1, ⟨hparsed, he.2⟩, by
        rw [exprToString, exprToString, htext]⟩
    · obtain ⟨args', hne, hparsed, hempty, htext⟩ := exchanged_all hp args he.2.2 h
      exact ⟨.method recv name args', fun h => hne (Expr.method.inj h).2.2,
        ⟨he.1, he.2.1, hparsed⟩, by rw [exprToString, exprToString, htext, hempty]⟩
  | .lambda params body, he, _ =>
    ⟨.lambda params (.un .not body), fun h => un_ne _ _ (Expr.lambda.inj h).2, he, by
      rw [exprToString, exprToString]⟩
  | .record fields, he, h => by
    cases fields with
    | nil => exact absurd rfl h
    | cons field fields =>
      refine ⟨.record ((field.1, .un .not field.2) :: fields), fun h => ?_, he, ?_⟩
      · exact un_ne _ _ (Prod.mk.inj (cons.inj (Expr.record.inj h)).1).2
      · rw [exprToString, exprToString]
        rfl
  | .cast value ty, he, _ =>
    ⟨.cast (.un .not value) ty, fun h => un_ne _ _ (Expr.cast.inj h).1, he, by
      rw [exprToString, exprToString]⟩
  | .ret e, he, _ =>
    ⟨.ret (.un .not e), fun h => un_ne _ _ (Expr.ret.inj h), he, by
      rw [exprToString, exprToString]⟩
  | .ifThen cond then_ els, he, _ =>
    ⟨.ifThen (.un .not cond) then_ els, fun h => un_ne _ _ (Expr.ifThen.inj h).1, he, by
      rw [exprToString, exprToString]⟩
  | .letIn name value body, he, _ =>
    ⟨.letIn name (.un .not value) body, fun h => un_ne _ _ (Expr.letIn.inj h).2.1, he, by
      rw [exprToString, exprToString]⟩

theorem exchanged_all (hp : p.ShowsNumbers) : (es : List Expr) → ParsedAll es → ¬ShownAll es →
    ∃ es', es' ≠ es ∧ ParsedAll es' ∧ es'.isEmpty = es.isEmpty ∧ exprTexts p es' = exprTexts p es
  | [], _, h => absurd trivial h
  | e :: es, he, h => by
    rcases not_and_or.mp h with h | h
    · obtain ⟨e', hne, hparsed, htext⟩ := exchanged_of_not_shown hp e he.1 h
      exact ⟨e' :: es, fun h => hne (cons.inj h).1, ⟨hparsed, he.2⟩, rfl, by
        rw [exprTexts, exprTexts, htext]⟩
    · obtain ⟨es', hne, hparsed, _, htext⟩ := exchanged_all hp es he.2 h
      exact ⟨e :: es', fun h => hne (cons.inj h).2, ⟨he.1, hparsed⟩, rfl, by
        rw [exprTexts, exprTexts, htext]⟩

end

/-- The magnitudes of both are one variable, and no program's. -/
def SameAtom (p : Platform) (r r' : Expr) : Prop :=
  ∃ a, linearize p (.method r "magnitude" []) = some (.var a) ∧
    linearize p (.method r' "magnitude" []) = some (.var a) ∧ ¬IsName a

theorem var_injective {a b : String} (h : LinExpr.var a = LinExpr.var b) : a = b := by
  have hkeys := congrArg (fun l => l.coeffs.entries.map Prod.fst) h
  exact (cons.inj hkeys).1

theorem linearize_magnitude (r : Expr) :
    linearize p (.method r "magnitude" []) =
      some (.var (exprToString p (.method r "magnitude" []))) := by
  rw [linearize, if_pos ⟨rfl, rfl⟩]

theorem not_isName_magnitude (r : Expr) : ¬IsName (exprToString p (.method r "magnitude" [])) := by
  intro h
  have hdot : '.' ∈ (exprToString p (.method r "magnitude" [])).toList := by
    rw [exprToString]
    simp
  exact absurd (h.1.2 _ hdot) (by decide)

theorem sameAtom_iff {r r' : Expr} : SameAtom p r r' ↔ text p r = text p r' := by
  have htext : ∀ r : Expr, (exprToString p (.method r "magnitude" [])).toList =
      text p r ++ callText p ("magnitude", []) := fun r => text_method r "magnitude" []
  constructor
  · rintro ⟨a, h, h', _⟩
    rw [linearize_magnitude] at h h'
    have hatom := var_injective (Option.some.inj (h.trans h'.symm))
    have hlist := congrArg String.toList hatom
    rw [htext, htext] at hlist
    exact append_cancel_right hlist
  · intro h
    refine ⟨_, linearize_magnitude r, ?_, not_isName_magnitude r⟩
    rw [linearize_magnitude]
    refine congrArg (fun a => some (LinExpr.var a)) (String.toList_inj.mp ?_)
    rw [htext, htext, h]

end Text

/-- The two have the same values in every environment, whatever functions and methods
there are. -/
def SameMeaning (r r' : Expr) : Prop :=
  ∀ funs methods ρ v, Evaluates funs methods ρ r v ↔ Evaluates funs methods ρ r' v

/-- An expression is the only one with the variable of its magnitude just where all of it
is shown; then the variable stands for the magnitude of one array only. -/
theorem magnitude_congruent_iff {p : Platform} (hp : p.ShowsNumbers) {r : Expr} (hr : r.Parsed) :
    (r.Shown ↔ ∀ r' : Expr, r'.Parsed → SameAtom p r r' → r' = r) ∧
      (r.Shown → ∀ r' : Expr, r'.Parsed → SameAtom p r r' → SameMeaning r r') := by
  have honly : r.Shown → ∀ r' : Expr, r'.Parsed → SameAtom p r r' → r' = r := by
    intro hshown r' hr' hatom
    have htext : text p r ++ [] = text p r' ++ [] := by rw [sameAtom_iff.mp hatom]
    exact (unique_of_shown hp (le_refl _) hr hshown r' []
      [] hr' stops_nil stops_nil htext).1.symm
  refine ⟨⟨honly, fun h => ?_⟩, fun hshown r' hr' hatom => ?_⟩
  · by_contra hshown
    obtain ⟨r', hne, hr', htext⟩ := exchanged_of_not_shown hp r hr hshown
    exact hne (h r' hr' (sameAtom_iff.mpr (congrArg String.toList htext.symm)))
  · rw [honly hshown r' hr' hatom]
    exact fun _ _ _ _ => Iff.rfl

/-- A platform that shows finite literals in the unary system. -/
def Platform.unary : Platform :=
  ⟨fun n => if n = .infinity false then "inf" else String.ofList
    (List.replicate (n.bits.toNat + 1) '1'),
    fun _ => "", fun _ => "", id⟩

theorem Platform.display_unary {n : F64} (hn : Literal n) :
    (Platform.unary.display n).toList = replicate (n.bits.toNat + 1) '1' := by
  have hne : n ≠ .infinity false := by
    rintro rfl
    exact absurd hn.1 (by decide)
  rw [unary]
  dsimp only
  rw [if_neg hne, String.toList_ofList]

theorem Platform.unary_showsNumbers : Platform.unary.ShowsNumbers := by
  constructor
  · intro n hn
    rw [display_unary hn]
    refine ⟨_, ⟨by simp, fun c hc => ?_⟩, .inl rfl⟩
    rw [(mem_replicate.mp hc).2]
    rfl
  · intro n m hn hm h
    have hlists := congrArg String.toList h
    rw [display_unary hn, display_unary hm] at hlists
    have hbits := replicate_left_injective '1' hlists
    exact congrArg F64.mk (UInt64.toNat_inj.mp (Nat.succ.inj hbits))
  · rfl

/-- The variable of the magnitude of a difference stands for no other. -/
theorem magnitude_congruent_difference :
    (Expr.bin .sub (.var "a") (.var "b")).Shown ∧
      ∀ r' : Expr, r'.Parsed → SameAtom .unary (.bin .sub (.var "a") (.var "b")) r' →
        SameMeaning (.bin .sub (.var "a") (.var "b")) r' := by
  have hname : ∀ v ∈ ["a", "b"], (Expr.var v).Parsed := by
    intro v hv
    simp only [mem_cons, not_mem_nil, or_false] at hv
    rcases hv with rfl | rfl
    · exact ⟨⟨⟨by decide, by simp [isPunctuation]⟩, fun c hc => by cases hc; decide⟩, by decide⟩
    · exact ⟨⟨⟨by decide, by simp [isPunctuation]⟩, fun c hc => by cases hc; decide⟩, by decide⟩
  have hshown : (Expr.bin .sub (.var "a") (.var "b")).Shown :=
    ⟨⟨by decide, by decide⟩, by decide, by decide⟩
  have hparsed : (Expr.bin .sub (.var "a") (.var "b")).Parsed :=
    ⟨hname "a" (by decide), hname "b" (by decide)⟩
  exact ⟨hshown, (magnitude_congruent_iff Platform.unary_showsNumbers hparsed).2 hshown⟩

/-- The magnitudes of two casts are one variable, whatever is cast. -/
theorem casts_collide :
    SameAtom .unary (.cast (.var "a") (.named "V")) (.cast (.var "b") (.named "V")) ∧
      ¬SameMeaning (.cast (.var "a") (.named "V")) (.cast (.var "b") (.named "V")) := by
  refine ⟨sameAtom_iff.mpr ?_, fun h => ?_⟩
  · rw [text, text, exprToString, exprToString]
  · let ρ : Env := [("a", .array [.real 1]), ("b", .array [.real 2])]
    have ha : Evaluates [] (fun _ _ _ => none) ρ (.cast (.var "a") (.named "V"))
      (.array [.real 1]) :=
      ⟨2, rfl⟩
    have hb : Evaluates [] (fun _ _ _ => none) ρ (.cast (.var "b") (.named "V"))
      (.array [.real 2]) :=
      ⟨2, rfl⟩
    have heq := ((h [] (fun _ _ _ => none) ρ _).mp ha).unique hb
    have hone : (1 : ℝ) = 2 := Value.real.inj (cons.inj (Value.array.inj heq)).1
    norm_num at hone

end Oikos.Eidos
