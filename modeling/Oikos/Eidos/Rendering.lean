/-
Expressions with all of their operands in parentheses: their tokens, and that the parser
gives them back.
-/
import Oikos.Eidos.Parser

namespace Oikos.Eidos

open List Option

/-! ### The tokens of an expression -/

section Separated

variable {α : Type}

def separated (sep : List α) : List (List α) → List α
  | [] => []
  | [part] => part
  | part :: next :: parts => part ++ (sep ++ separated sep (next :: parts))

theorem length_le_separated {sep : List α} {parts : List (List α)}
    (hne : ∀ part ∈ parts, part ≠ []) :
    parts.length ≤ (separated sep parts).length := by
  induction parts with
  | nil => exact le_rfl
  | cons part parts ih =>
    have hpart : 0 < part.length := length_pos_iff.mpr (hne part mem_cons_self)
    cases parts with
    | nil => exact hpart
    | cons next parts =>
      have hmore := ih fun part hmem => hne part (mem_cons_of_mem _ hmem)
      rw [separated, length_append, length_append, length_cons]
      omega

theorem length_part_le {β : Type} (sep : List α) (f : β → List α) {x : β} {xs : List β}
    (hmem : x ∈ xs) : (f x).length ≤ (separated sep (xs.map f)).length := by
  induction xs with
  | nil => cases hmem
  | cons first xs ih =>
    cases xs with
    | nil =>
      rw [mem_singleton.mp hmem]
      exact le_rfl
    | cons next xs =>
      rw [map_cons, map_cons, separated, length_append, length_append]
      rcases mem_cons.mp hmem with rfl | hmem
      · omega
      · have hle := ih hmem
        rw [map_cons] at hle
        omega

theorem head?_separated {sep part : List α} {parts : List (List α)} {x : α}
    (h : part.head? = some x) : (separated sep (part :: parts)).head? = some x := by
  cases parts with
  | nil => exact h
  | cons next parts => rw [separated, head?_append, h, Option.some_or]

end Separated

/-- There is no token for `or` in a source. -/
def BinOp.tok : BinOp → Tok
  | .add => .plus
  | .sub => .minus
  | .mul => .star
  | .div => .slash
  | .rem => .percent
  | .lt => .lt
  | .gt => .gt
  | .le => .le
  | .ge => .ge
  | .eq => .eqEq
  | .ne => .ne
  | .and => .and
  | .or => .or

def UnOp.tok : UnOp → Tok
  | .neg => .minus
  | .not => .not

mutual

def patternToks : Pattern → List Tok
  | .var v => [Tok.ident v]
  | .tuple ps => .lParen :: (separated [Tok.comma] (patternsToks ps) ++ [Tok.rParen])

def patternsToks : List Pattern → List (List Tok)
  | [] => []
  | q :: qs => patternToks q :: patternsToks qs

end

/-- An operand stands in parentheses. -/
def enclosed (ls : List Tok) : List Tok :=
  .lParen :: (ls ++ [Tok.rParen])

theorem length_enclosed (ls : List Tok) : (enclosed ls).length = ls.length + 2 := by
  rw [enclosed, length_cons, length_append, length_singleton]

mutual

/-- The tokens of an expression; no `if`, `let` and `return` is written. -/
@[simp] def exprToks : Expr → List Tok
  | .num n => [Tok.num n]
  | .bool b => [Tok.ident (if b then "true" else "false")]
  | .var v => [Tok.ident v]
  | .arrayLit es => .lBracket :: (separated [Tok.comma] (operandsToks es) ++ [Tok.rBracket])
  | .bin op a b => enclosed (exprToks a) ++ op.tok :: enclosed (exprToks b)
  | .un op a => op.tok :: enclosed (exprToks a)
  | .call f args =>
    .ident f :: .lParen :: (separated [Tok.comma] (operandsToks args) ++ [Tok.rParen])
  | .method recv name args =>
    enclosed (exprToks recv) ++
      .dot :: .ident name :: .lParen :: (separated [Tok.comma] (operandsToks args) ++ [Tok.rParen])
  | .lambda params body =>
    .pipe :: (separated [Tok.comma] (patternsToks params) ++ Tok.pipe :: enclosed (exprToks body))
  | .record fields => .lBrace :: (separated [Tok.comma] (fieldsToks fields) ++ [Tok.rBrace])
  | .cast value ty => enclosed (exprToks value) ++ [Tok.as_, .ident (typeName ty)]
  | .ifThen _ _ _ | .letIn _ _ _ | .ret _ => []

def operandsToks : List Expr → List (List Tok)
  | [] => []
  | e :: es => enclosed (exprToks e) :: operandsToks es

def fieldsToks : List (String × Expr) → List (List Tok)
  | [] => []
  | (name, e) :: fields => (Tok.ident name :: .colon :: enclosed (exprToks e)) :: fieldsToks fields

end

theorem patternsToks_eq (qs : List Pattern) : patternsToks qs = qs.map patternToks := by
  induction qs with
  | nil => rw [patternsToks, map_nil]
  | cons q qs ih => rw [patternsToks, ih, map_cons]

theorem operandsToks_eq (es : List Expr) :
    operandsToks es = es.map fun e => enclosed (exprToks e) := by
  induction es with
  | nil => rw [operandsToks, map_nil]
  | cons e es ih => rw [operandsToks, ih, map_cons]

theorem fieldsToks_eq (fields : List (String × Expr)) :
    fieldsToks fields = fields.map fun f => .ident f.1 :: .colon :: enclosed (exprToks f.2) := by
  induction fields with
  | nil => rw [fieldsToks, map_nil]
  | cons f fields ih => rw [fieldsToks, ih, map_cons]

/-! ### Expressions that can be written -/

/-- Nothing in the expression has a text that the parser reads as something else. -/
inductive Writable : Expr → Prop
  | num {n} : Writable (.num n)
  | bool {b} : Writable (.bool b)
  | var {v} : v ≠ "true" → v ≠ "false" → Writable (.var v)
  | arrayLit {es} : (∀ e ∈ es, Writable e) → Writable (.arrayLit es)
  | bin {op a b} : op ≠ .or → Writable a → Writable b → Writable (.bin op a b)
  | un {op a} : Writable a → Writable (.un op a)
  | ifThen {cond then_ els} : Writable cond → Writable then_ → Writable els →
      Writable (.ifThen cond then_ els)
  | letIn {name value body} : Writable value → Writable body → Writable (.letIn name value body)
  | call {f args} : f ≠ "true" → f ≠ "false" → (∀ e ∈ args, Writable e) → Writable (.call f args)
  | method {recv name args} : Writable recv → (∀ e ∈ args, Writable e) →
      Writable (.method recv name args)
  | lambda {params body} : Writable body → Writable (.lambda params body)
  | record {fields} : (∀ f ∈ fields, Writable f.2) → Writable (.record fields)
  | cast {value ty} : Writable value → (∀ s, ty = .named s → isBaseType s = false) →
      Writable (.cast value ty)
  | ret {value} : Writable value → Writable (.ret value)

/-- The expressions over names and numbers that are nested at most so deep, without `if`, `let`
and `return`, and with no cast but to a named type. -/
inductive Nested (IsName : String → Prop) (IsNumber : F64 → Prop) : Nat → Expr → Prop
  | num {k n} : IsNumber n → Nested IsName IsNumber k (.num n)
  | bool {k b} : Nested IsName IsNumber k (.bool b)
  | var {k v} : IsName v → Nested IsName IsNumber k (.var v)
  | arrayLit {k es} : (∀ e ∈ es, Nested IsName IsNumber k e) →
      Nested IsName IsNumber (k + 1) (.arrayLit es)
  | bin {k op a b} : Nested IsName IsNumber k a → Nested IsName IsNumber k b →
      Nested IsName IsNumber (k + 1) (.bin op a b)
  | un {k op a} : Nested IsName IsNumber k a → Nested IsName IsNumber (k + 1) (.un op a)
  | call {k f args} : IsName f → (∀ e ∈ args, Nested IsName IsNumber k e) →
      Nested IsName IsNumber (k + 1) (.call f args)
  | method {k recv name args} : Nested IsName IsNumber k recv → IsName name →
      (∀ e ∈ args, Nested IsName IsNumber k e) →
      Nested IsName IsNumber (k + 1) (.method recv name args)
  | lambda {k params body} : (∀ v, patternBinds params v = true → IsName v) →
      Nested IsName IsNumber k body → Nested IsName IsNumber (k + 1) (.lambda params body)
  | record {k fields} : (∀ f ∈ fields, IsName f.1) → (∀ f ∈ fields, Nested IsName IsNumber k f.2) →
      Nested IsName IsNumber (k + 1) (.record fields)
  | cast {k value s} : Nested IsName IsNumber k value → IsName s →
      Nested IsName IsNumber (k + 1) (.cast value (.named s))

/-! ### Runs of the parser -/

namespace Parser

variable {p : Platform} {ts rest : List Tok} {e : Expr}

/-- No operator, and nothing that goes on with an expression, comes next. -/
def closers : List Tok :=
  [Tok.rParen, .rBracket, .rBrace, .comma, .semi]

def Closes (ts : List Tok) : Prop :=
  ∀ t ∈ ts.head?, t ∈ closers

section Steps

variable {α : Type} {t : Tok} {f : Option Tok → Parse α} {g : Unit → Parse α} {h : String → Parse α}

theorem run_peek : (peek >>= f) (t :: rest) = f (some t) (t :: rest) :=
  rfl

theorem run_advance : (advance >>= f) (t :: rest) = f (some t) rest :=
  rfl

theorem run_eat : (eat p t >>= g) (t :: rest) = g () rest := by
  refine run_bind ?_
  unfold eat
  rw [run_peek, if_pos rfl]
  rfl

theorem run_eatIdent {s : String} : (eatIdent p >>= h) (Tok.ident s :: rest) = h s rest :=
  rfl

end Steps

section Lists

variable {α : Type} {item : Parse α} {toks : α → List Tok} {close : Tok} {fuel : Nat} {as : List α}

theorem run_commaList (hclose : close ≠ .comma)
    (hitem : ∀ a ∈ as, ∀ next more, next = .comma ∨ next = close →
      item (toks a ++ next :: more) = .ok (a, next :: more))
    (hne : as ≠ []) (hfuel : as.length ≤ fuel) :
    commaList item fuel (separated [Tok.comma] (as.map toks) ++ close :: rest) =
      .ok (as, close :: rest) := by
  induction as generalizing fuel with
  | nil => exact absurd rfl hne
  | cons a as ih =>
    obtain ⟨fuel, rfl⟩ : ∃ n, fuel = n + 1 := ⟨fuel - 1, by
      rw [length_cons] at hfuel
      omega⟩
    have hfirst := hitem a mem_cons_self
    unfold commaList
    cases as with
    | nil =>
      refine (run_bind (hfirst close rest (Or.inr rfl))).trans ?_
      rw [run_peek, if_neg fun h => hclose (some.inj h)]
      rfl
    | cons b as =>
      have htoks : separated [Tok.comma] ((a :: b :: as).map toks) ++ close :: rest =
          toks a ++ Tok.comma :: (separated [Tok.comma] ((b :: as).map toks) ++ close :: rest) := by
        simp [separated]
      have hmore := ih (fun c hc => hitem c (mem_cons_of_mem a hc)) (cons_ne_nil b as)
        (Nat.le_of_succ_le_succ hfuel)
      rw [htoks, run_bind (hfirst .comma _ (Or.inl rfl)), run_peek, if_pos rfl, run_advance]
      exact run_bind hmore

theorem run_closedList (hclose : close ≠ .comma)
    (hitem : ∀ a ∈ as, ∀ next more, next = .comma ∨ next = close →
      item (toks a ++ next :: more) = .ok (a, next :: more))
    (hfirst : ∀ a ∈ as, ∃ t, (toks a).head? = some t ∧ t ≠ close)
    (hfuel : (separated [Tok.comma] (as.map toks)).length ≤ fuel) :
    closedList p close item fuel (separated [Tok.comma] (as.map toks) ++ close :: rest) =
      .ok (as, rest) := by
  cases as with
  | nil =>
    change (peek >>= _) (close :: rest) = _
    rw [run_peek, if_pos rfl, run_eat]
    rfl
  | cons a as =>
    obtain ⟨t, ht, hne⟩ := hfirst a mem_cons_self
    have hhead : (separated [Tok.comma] ((a :: as).map toks)).head? = some t := head?_separated ht
    obtain ⟨tail, htail⟩ := head?_eq_some_iff.mp hhead
    have hcons : separated [Tok.comma] ((a :: as).map toks) ++ close :: rest =
        t :: (tail ++ close :: rest) := by
      rw [htail, cons_append]
    have hlength : (a :: as).length ≤ fuel := by
      refine le_trans ?_ hfuel
      rw [← length_map toks]
      refine length_le_separated fun part hpart => ?_
      obtain ⟨b, hb, rfl⟩ := mem_map.mp hpart
      obtain ⟨_, hsome, -⟩ := hfirst b hb
      exact ne_nil_of_mem (mem_of_mem_head? hsome)
    unfold closedList
    rw [hcons, run_peek, if_neg fun h => hne (some.inj h), ← hcons,
      run_bind (run_commaList hclose hitem (cons_ne_nil a as) hlength), run_eat]
    rfl

end Lists

/-! ### Patterns -/

theorem head?_patternToks (q : Pattern) :
    ∃ t, (patternToks q).head? = some t ∧ t ≠ .rParen ∧ t ≠ .pipe := by
  cases q with
  | var v =>
    rw [patternToks]
    exact ⟨_, rfl, nofun, nofun⟩
  | tuple qs =>
    rw [patternToks]
    exact ⟨_, rfl, nofun, nofun⟩

theorem run_paramPattern {fuel : Nat} {q : Pattern} (hfuel : (patternToks q).length < fuel) :
    parseParamPattern p fuel (patternToks q ++ rest) = .ok (q, rest) := by
  induction fuel generalizing q rest with
  | zero => exact absurd hfuel (Nat.not_lt_zero _)
  | succ fuel ih =>
    cases q with
    | var v =>
      rw [patternToks]
      change (peek >>= _) (Tok.ident v :: rest) = _
      rw [run_peek, if_neg (by simp), run_eatIdent]
      rfl
    | tuple qs =>
      rw [patternToks, patternsToks_eq] at hfuel ⊢
      rw [length_cons, length_append] at hfuel
      change (peek >>= _) (Tok.lParen :: (_ ++ [Tok.rParen] ++ rest)) = _
      rw [run_peek, if_pos rfl, run_advance, append_assoc]
      refine run_bind (run_closedList nofun (fun a ha next more _ => ih ?_)
        (fun a _ => ?_) (by omega))
      · have hle := length_part_le [Tok.comma] patternToks ha
        omega
      · obtain ⟨t, ht, hne, -⟩ := head?_patternToks a
        exact ⟨t, ht, hne⟩

/-! ### Levels -/

section Levels

variable {ty : Parse Ty} {expr : Parse Expr} {fuel rounds : Nat} {operand : Parse Expr}
  {opOf : Tok → Option BinOp} {a b : Expr} {t : Tok} {op : BinOp} {mid : List Tok}

theorem run_binLoop_stop (hstop : rest.head?.bind opOf = none) :
    binLoop opOf operand (rounds + 1) e rest = .ok (e, rest) := by
  unfold binLoop
  refine (run_bind (rfl : peek rest = _)).trans ?_
  rw [hstop]
  rfl

theorem run_binChain_one (hrun : operand ts = .ok (e, rest)) (hstop : rest.head?.bind opOf = none) :
    binChain opOf operand (fuel + 1) ts = .ok (e, rest) := by
  unfold binChain
  rw [run_bind hrun]
  exact run_binLoop_stop hstop

theorem run_binChain_two (hrun : operand ts = .ok (a, t :: mid)) (hop : opOf t = some op)
    (hnext : operand mid = .ok (b, rest)) (hstop : rest.head?.bind opOf = none) :
    binChain opOf operand (fuel + 2) ts = .ok (.bin op a b, rest) := by
  unfold binChain
  rw [run_bind hrun]
  unfold binLoop
  rw [run_peek, bind_some, hop]
  refine (run_advance (t := t)).trans ?_
  rw [run_bind hnext]
  exact run_binLoop_stop hstop

/-- The tokens begin with what is an operand by itself. -/
def opensOperand : Tok → Bool
  | .num _ | .ident _ | .lParen | .lBracket | .lBrace | .pipe => true
  | _ => false

def Opens (ts : List Tok) : Prop :=
  ∃ t, ts.head? = some t ∧ opensOperand t = true

theorem Opens.unaryOp (h : Opens ts) : ts.head?.bind unaryOp = none := by
  obtain ⟨t, ht, hopens⟩ := h
  rw [ht]
  cases t <;> first | rfl | cases hopens

theorem Closes.noOp (h : Closes rest) (hops : ∀ t ∈ closers, opOf t = none) :
    rest.head?.bind opOf = none := by
  cases hrest : rest.head? with
  | none => rfl
  | some t => exact hops t (h t hrest)

theorem run_unary (hopens : Opens ts) (hrun : parsePostfix p ty expr fuel ts = .ok (e, rest)) :
    parseUnary p ty expr fuel (rounds + 1) ts = .ok (e, rest) := by
  unfold parseUnary
  refine (run_bind (rfl : peek ts = _)).trans ?_
  rw [hopens.unaryOp]
  exact hrun

theorem run_un {sign : UnOp} (hopens : Opens ts)
    (hrun : parsePostfix p ty expr fuel ts = .ok (e, rest)) :
    parseUnary p ty expr fuel (rounds + 2) (sign.tok :: ts) = .ok (.un sign e, rest) := by
  have hop : Parser.unaryOp sign.tok = some sign := by cases sign <;> rfl
  unfold parseUnary
  rw [run_peek, bind_some, hop]
  refine (run_advance (t := sign.tok)).trans ?_
  rw [run_bind (run_unary hopens hrun)]
  rfl

theorem run_mul (hrun : parseUnary p ty expr (fuel + 1) (fuel + 1) ts = .ok (e, rest))
    (hmul : rest.head?.bind mulOp = none) : parseMul p ty expr (fuel + 1) ts = .ok (e, rest) :=
  run_binChain_one hrun hmul

theorem run_add (hrun : parseMul p ty expr (fuel + 1) ts = .ok (e, rest))
    (hadd : rest.head?.bind addOp = none) : parseAdd p ty expr (fuel + 1) ts = .ok (e, rest) :=
  run_binChain_one hrun hadd

theorem run_cmp (hrun : parseAdd p ty expr fuel ts = .ok (e, rest))
    (hcmp : rest.head?.bind cmpOp = none) : parseCmp p ty expr fuel ts = .ok (e, rest) := by
  unfold parseCmp
  rw [run_bind hrun]
  refine (run_bind (rfl : peek rest = _)).trans ?_
  rw [hcmp]
  rfl

theorem run_cmp_two (hrun : parseAdd p ty expr fuel ts = .ok (a, t :: mid))
    (hop : cmpOp t = some op)
    (hnext : parseAdd p ty expr fuel mid = .ok (b, rest)) :
    parseCmp p ty expr fuel ts = .ok (.bin op a b, rest) := by
  unfold parseCmp
  rw [run_bind hrun, run_peek, bind_some, hop]
  refine (run_advance (t := t)).trans ?_
  rw [run_bind hnext]
  rfl

theorem run_and (hrun : parseCmp p ty expr (fuel + 1) ts = .ok (e, rest))
    (hand : rest.head?.bind andOp = none) : parseAnd p ty expr (fuel + 1) ts = .ok (e, rest) :=
  run_binChain_one hrun hand

theorem run_or (hrun : parseAnd p ty expr (fuel + 1) ts = .ok (e, rest))
    (hor : rest.head?.bind orOp = none) : parseOr p ty expr (fuel + 1) ts = .ok (e, rest) :=
  run_binChain_one hrun hor

/-- From a product up to a whole expression nothing is left to take. -/
theorem run_or_of_mul (hcloses : Closes rest)
    (hrun : parseMul p ty expr (fuel + 1) ts = .ok (e, rest)) :
    parseOr p ty expr (fuel + 1) ts = .ok (e, rest) :=
  run_or (run_and (run_cmp (run_add hrun (hcloses.noOp (by decide))) (hcloses.noOp (by decide)))
    (hcloses.noOp (by decide))) (hcloses.noOp (by decide))

theorem run_or_of_unary (hcloses : Closes rest)
    (hrun : parseUnary p ty expr (fuel + 1) (fuel + 1) ts = .ok (e, rest)) :
    parseOr p ty expr (fuel + 1) ts = .ok (e, rest) :=
  run_or_of_mul hcloses (run_mul hrun (hcloses.noOp (by decide)))

/-- Every operator but `or` is found at its level. -/
theorem run_bin (hor : op ≠ .or) (hcloses : Closes rest)
    (ha : parseUnary p ty expr (fuel + 2) (fuel + 2) ts = .ok (a, op.tok :: mid))
    (hb : parseUnary p ty expr (fuel + 2) (fuel + 2) mid = .ok (b, rest)) :
    parseOr p ty expr (fuel + 2) ts = .ok (.bin op a b, rest) := by
  have hmul : rest.head?.bind mulOp = none := hcloses.noOp (by decide)
  have hadd : rest.head?.bind addOp = none := hcloses.noOp (by decide)
  have hcmp : rest.head?.bind cmpOp = none := hcloses.noOp (by decide)
  have hand : rest.head?.bind andOp = none := hcloses.noOp (by decide)
  have hbAdd := run_add (run_mul hb hmul) hadd
  cases op with
  | mul | div | rem => exact run_or_of_mul hcloses (run_binChain_two ha rfl hb hmul)
  | add | sub =>
    have hsum : parseAdd p ty expr (fuel + 2) ts = _ :=
      run_binChain_two (run_mul ha rfl) rfl (run_mul hb hmul) hadd
    exact run_or (run_and (run_cmp hsum hcmp) hand) (hcloses.noOp (by decide))
  | lt | gt | le | ge | eq | ne =>
    have hcompare := run_cmp_two (run_add (run_mul ha rfl) rfl) rfl hbAdd
    exact run_or (run_and hcompare hand) (hcloses.noOp (by decide))
  | and =>
    have hconj : parseAnd p ty expr (fuel + 2) ts = _ :=
      run_binChain_two (run_cmp (run_add (run_mul ha rfl) rfl) rfl) rfl (run_cmp hbAdd hcmp) hand
    exact run_or hconj (hcloses.noOp (by decide))
  | or => exact absurd rfl hor

end Levels

/-! ### Operands and what follows them -/

section Postfix

variable {ty : Parse Ty} {expr : Parse Expr} {fuel rounds depth : Nat}

/-- No method, arguments or cast come next. -/
def Settled (ts : List Tok) : Prop :=
  ts.head? ≠ some .dot ∧ ts.head? ≠ some .lParen ∧ ts.head? ≠ some .as_

theorem Closes.settled (h : Closes rest) : Settled rest := by
  refine ⟨fun hnext => ?_, fun hnext => ?_, fun hnext => ?_⟩
  · exact absurd (h _ hnext) (by decide)
  · exact absurd (h _ hnext) (by decide)
  · exact absurd (h _ hnext) (by decide)

theorem settled_tok (op : BinOp) : Settled (op.tok :: rest) := by
  cases op <;> exact ⟨nofun, nofun, nofun⟩

theorem run_postfixLoop (h : Settled rest) :
    postfixLoop p ty expr fuel (rounds + 1) e rest = .ok (e, rest) := by
  obtain ⟨hdot, hparen, has⟩ := h
  unfold postfixLoop
  refine (run_bind (rfl : peek rest = _)).trans ?_
  rw [if_neg hdot, if_neg hparen, if_neg has]
  rfl

theorem run_postfixed (hrun : parsePrimary p expr (fuel + 1) ts = .ok (e, rest))
    (h : Settled rest) :
    parsePostfix p ty expr (fuel + 1) ts = .ok (e, rest) := by
  unfold parsePostfix
  rw [run_bind hrun]
  exact run_postfixLoop h

theorem run_enclosed_primary {ls : List Tok}
    (hrun : expr (ls ++ Tok.rParen :: rest) = .ok (e, .rParen :: rest)) :
    parsePrimary p expr fuel (enclosed ls ++ rest) = .ok (e, rest) := by
  have htoks : enclosed ls ++ rest = .lParen :: (ls ++ Tok.rParen :: rest) := by
    simp [enclosed]
  rw [htoks]
  unfold parsePrimary
  rw [run_advance]
  refine (run_bind hrun).trans ?_
  rw [run_eat]
  rfl

theorem run_enclosed_unary {ls : List Tok}
    (hrun : expr (ls ++ Tok.rParen :: rest) = .ok (e, .rParen :: rest)) (h : Settled rest) :
    parseUnary p ty expr (fuel + 1) (rounds + 1) (enclosed ls ++ rest) = .ok (e, rest) :=
  run_unary ⟨.lParen, rfl, rfl⟩ (run_postfixed (run_enclosed_primary hrun) h)

/-- No statement comes first. -/
def NoStatement (ts : List Tok) : Prop :=
  ts.head? ≠ some .let_ ∧ ts.head? ≠ some .if_ ∧ ts.head? ≠ some .return_

theorem Opens.noStatement (h : Opens ts) : NoStatement ts := by
  obtain ⟨t, ht, hopens⟩ := h
  rw [NoStatement, ht]
  refine ⟨?_, ?_, ?_⟩
  · rintro ⟨⟩
    cases hopens
  · rintro ⟨⟩
    cases hopens
  · rintro ⟨⟩
    cases hopens

theorem run_expr_of_or (hdepth : depth + 1 ≤ maxParseDepth) (hstmt : NoStatement ts)
    (hrun : parseOr p (parseType p fuel (depth + 1)) (parseExpr p fuel (depth + 1)) fuel ts =
      .ok (e, rest)) : parseExpr p (fuel + 1) depth ts = .ok (e, rest) := by
  obtain ⟨hlet, hif, hreturn⟩ := hstmt
  rw [parseExpr, if_neg (not_lt.mpr hdepth)]
  unfold parseLetIfReturn
  refine (run_bind (rfl : peek ts = _)).trans ?_
  rw [if_neg hlet, if_neg hif, if_neg hreturn]
  exact hrun

theorem run_expr_of_postfix (hdepth : depth + 1 ≤ maxParseDepth) (hopens : Opens ts)
    (hcloses : Closes rest)
    (hrun : parsePostfix p (parseType p (fuel + 1) (depth + 1)) (parseExpr p (fuel + 1) (depth + 1))
      (fuel + 1) ts = .ok (e, rest)) : parseExpr p (fuel + 2) depth ts = .ok (e, rest) :=
  run_expr_of_or hdepth hopens.noStatement (run_or_of_unary hcloses (run_unary hopens hrun))

end Postfix

/-! ### Whole expressions -/

/-- The parser gives the expression back, wherever there are enough levels left for it. -/
def Returns (p : Platform) (k : Nat) (e : Expr) : Prop :=
  ∀ fuel depth rest, depth + 1 + 2 * k ≤ maxParseDepth → (exprToks e).length < fuel → Closes rest →
    parseExpr p fuel depth (exprToks e ++ rest) = .ok (e, rest)

section Returns

variable {k fuel depth : Nat} {args : List Expr}

theorem Returns.operand (h : Returns p k e) (hdepth : depth + 2 + 2 * k ≤ maxParseDepth)
    (hfuel : (exprToks e).length + 2 < fuel) (hcloses : Closes rest) :
    parseExpr p fuel depth (enclosed (exprToks e) ++ rest) = .ok (e, rest) := by
  obtain ⟨fuel, rfl⟩ : ∃ n, fuel = n + 2 := ⟨fuel - 2, by omega⟩
  refine run_expr_of_postfix (by omega) ⟨.lParen, rfl, rfl⟩ hcloses
    (run_postfixed ?_ hcloses.settled)
  refine run_enclosed_primary (h (fuel + 1) (depth + 1) _ (by omega) (by omega) ?_)
  rintro t ⟨⟩
  decide

/-- Arguments and elements. -/
theorem run_exprs {close : Tok} (hargs : ∀ a ∈ args, Returns p k a)
    (hdepth : depth + 2 + 2 * k ≤ maxParseDepth)
    (hclose : close ∈ [Tok.rParen, Tok.rBracket])
    (hfuel : (separated [Tok.comma] (operandsToks args)).length < fuel) :
    closedList p close (parseExpr p fuel depth) fuel
      (separated [Tok.comma] (operandsToks args) ++ close :: rest) = .ok (args, rest) := by
  have hkind : close ≠ .comma ∧ close ≠ .lParen ∧ close ∈ closers := by
    rcases mem_pair.mp hclose with rfl | rfl <;> decide
  rw [operandsToks_eq] at hfuel ⊢
  refine run_closedList hkind.1 (fun a ha next more hnext => ?_) (fun a _ => ?_) hfuel.le
  · have hle := length_part_le [Tok.comma] (fun e => enclosed (exprToks e)) ha
    rw [length_enclosed] at hle
    refine (hargs a ha).operand hdepth (by omega) ?_
    rintro t ⟨⟩
    rcases hnext with rfl | rfl
    · decide
    · exact hkind.2.2
  · exact ⟨.lParen, rfl, hkind.2.1.symm⟩

theorem run_fields {fields : List (String × Expr)} (hfields : ∀ f ∈ fields, Returns p k f.2)
    (hdepth : depth + 2 + 2 * k ≤ maxParseDepth)
    (hfuel : (separated [Tok.comma] (fieldsToks fields)).length < fuel) :
    closedList p .rBrace (parseField p (parseExpr p fuel depth)) fuel
      (separated [Tok.comma] (fieldsToks fields) ++ Tok.rBrace :: rest) = .ok (fields, rest) := by
  rw [fieldsToks_eq] at hfuel ⊢
  refine run_closedList nofun (fun f hf next more hnext => ?_) (fun f _ => ?_) hfuel.le
  · have hle := length_part_le [Tok.comma]
      (fun f : String × Expr => .ident f.1 :: .colon :: enclosed (exprToks f.2)) hf
    rw [length_cons, length_cons, length_enclosed] at hle
    unfold parseField
    refine (run_eatIdent (s := f.1)).trans ?_
    refine run_eat.trans ?_
    have hvalue : parseExpr p fuel depth (enclosed (exprToks f.2) ++ next :: more) =
        .ok (f.2, next :: more) := by
      refine (hfields f hf).operand hdepth (by omega) ?_
      rintro t ⟨⟩
      rcases hnext with rfl | rfl <;> decide
    exact run_bind hvalue
  · exact ⟨_, rfl, nofun⟩

theorem run_patterns {params : List Pattern}
    (hfuel : (separated [Tok.comma] (patternsToks params)).length < fuel) :
    closedList p .pipe (parseParamPattern p fuel) fuel
      (separated [Tok.comma] (patternsToks params) ++ Tok.pipe :: rest) = .ok (params, rest) := by
  rw [patternsToks_eq] at hfuel ⊢
  refine run_closedList nofun (fun q hq next more _ => run_paramPattern ?_) (fun q _ => ?_) hfuel.le
  · have hle := length_part_le [Tok.comma] patternToks hq
    omega
  · obtain ⟨t, ht, -, hne⟩ := head?_patternToks q
    exact ⟨t, ht, hne⟩

theorem returns_of_postfix (hopens : Opens (exprToks e))
    (h : ∀ fuel depth rest, depth + 2 * k ≤ maxParseDepth → (exprToks e).length ≤
    fuel → Closes rest →
      parsePostfix p (parseType p fuel depth) (parseExpr p fuel depth) fuel (exprToks e ++ rest) =
        .ok (e, rest)) : Returns p k e := by
  intro fuel depth rest hdepth hfuel hcloses
  obtain ⟨t, ht, hopen⟩ := hopens
  have hpos : 0 < (exprToks e).length :=
    length_pos_iff.mpr (ne_nil_of_mem (mem_of_mem_head? ht))
  obtain ⟨fuel, rfl⟩ : ∃ n, fuel = n + 2 := ⟨fuel - 2, by omega⟩
  have hopens : Opens (exprToks e ++ rest) := ⟨t, by rw [head?_append, ht]; rfl, hopen⟩
  exact run_expr_of_postfix (by omega) hopens hcloses
    (h (fuel + 1) (depth + 1) rest (by omega) (by omega) hcloses)

/-- An expression of which the parser takes all tokens before it looks at what follows. -/
theorem returns_of_primary (hopens : Opens (exprToks e))
    (h : ∀ fuel depth rest, depth + 2 * k ≤ maxParseDepth → (exprToks e).length ≤
    fuel → Closes rest →
      parsePrimary p (parseExpr p fuel depth) fuel (exprToks e ++ rest) = .ok (e, rest)) :
    Returns p k e := by
  refine returns_of_postfix hopens fun fuel depth rest hdepth hfuel hcloses => ?_
  obtain ⟨t, ht, -⟩ := hopens
  have hpos : 0 < (exprToks e).length :=
    length_pos_iff.mpr (ne_nil_of_mem (mem_of_mem_head? ht))
  obtain ⟨fuel, rfl⟩ : ∃ n, fuel = n + 1 := ⟨fuel - 1, by omega⟩
  exact run_postfixed (h (fuel + 1) depth rest hdepth hfuel hcloses) hcloses.settled

theorem returns_num {n : F64} : Returns p k (.num n) := by
  refine returns_of_primary ⟨_, by rw [exprToks]; rfl, rfl⟩ fun fuel depth rest _ _ _ => ?_
  rw [exprToks]
  rfl

theorem returns_bool {b : Bool} : Returns p k (.bool b) := by
  refine returns_of_primary ⟨_, by rw [exprToks]; rfl, rfl⟩ fun fuel depth rest _ _ _ => ?_
  rw [exprToks]
  cases b with
  | true => rfl
  | false =>
    rw [if_neg Bool.false_ne_true]
    unfold parsePrimary
    refine run_advance.trans ?_
    dsimp only
    rw [if_neg (by decide), if_pos rfl]
    rfl

theorem run_var {expr : Parse Expr} {v : String} (htrue : v ≠ "true") (hfalse : v ≠ "false")
    (harray : v ≠ "Array") : parsePrimary p expr fuel (Tok.ident v :: rest) = .ok
    (.var v, rest) := by
  unfold parsePrimary
  rw [run_advance]
  dsimp only
  rw [if_neg htrue, if_neg hfalse, if_neg harray]
  rfl

theorem returns_var {v : String} (htrue : v ≠ "true") (hfalse : v ≠ "false")
    (harray : v ≠ "Array") :
    Returns p k (.var v) := by
  refine returns_of_primary ⟨_, by rw [exprToks]; rfl, rfl⟩ fun fuel depth rest _ _ _ => ?_
  rw [exprToks]
  exact run_var htrue hfalse harray

theorem returns_arrayLit (hargs : ∀ a ∈ args, Returns p k a) :
    Returns p (k + 1) (.arrayLit args) := by
  refine returns_of_primary ⟨_, by rw [exprToks]; rfl, rfl⟩ fun fuel depth rest hdepth hfuel _ => ?_
  rw [exprToks, length_cons, length_append] at hfuel
  rw [exprToks, cons_append, append_assoc]
  unfold parsePrimary
  rw [run_advance]
  refine (run_bind (run_exprs hargs (by omega) (by simp) (by omega))).trans ?_
  rfl

theorem returns_record {fields : List (String × Expr)} (hfields : ∀ f ∈ fields, Returns p k f.2) :
    Returns p (k + 1) (.record fields) := by
  refine returns_of_primary ⟨_, by rw [exprToks]; rfl, rfl⟩ fun fuel depth rest hdepth hfuel _ => ?_
  rw [exprToks, length_cons, length_append] at hfuel
  rw [exprToks, cons_append, append_assoc]
  unfold parsePrimary
  rw [run_advance]
  refine (run_bind (run_fields hfields (by omega) (by omega))).trans ?_
  rfl

theorem returns_lambda {params : List Pattern} (hbody : Returns p k e) :
    Returns p (k + 1) (.lambda params e) := by
  refine returns_of_primary ⟨_, by rw [exprToks]; rfl, rfl⟩
    fun fuel depth rest hdepth hfuel hcloses => ?_
  rw [exprToks, length_cons, length_append, length_cons, length_enclosed] at hfuel
  rw [exprToks, cons_append, append_assoc]
  unfold parsePrimary
  rw [run_advance]
  refine (run_bind (run_patterns (by omega))).trans ?_
  exact run_bind (hbody.operand (by omega) (by omega) hcloses)

/-- Arguments of a name. -/
theorem returns_call {f : String} (htrue : f ≠ "true") (hfalse : f ≠ "false") (harray : f ≠ "Array")
    (hargs : ∀ a ∈ args, Returns p k a) : Returns p (k + 1) (.call f args) := by
  refine returns_of_postfix ⟨_, by rw [exprToks]; rfl, rfl⟩
    fun fuel depth rest hdepth hfuel hcloses => ?_
  rw [exprToks, length_cons, length_cons, length_append] at hfuel
  obtain ⟨fuel, rfl⟩ : ∃ n, fuel = n + 2 := ⟨fuel - 2, by omega⟩
  rw [exprToks, cons_append, cons_append, append_assoc]
  unfold parsePostfix
  rw [run_bind (run_var htrue hfalse harray)]
  unfold postfixLoop
  rw [run_peek, if_neg (by simp), if_pos rfl, run_advance]
  refine (run_bind (run_exprs hargs (by omega) (by simp) (by omega))).trans ?_
  exact run_postfixLoop hcloses.settled

section Receivers

variable {recv : Expr} {ty : Parse Ty}

/-- A receiver, with what comes after its parentheses. -/
theorem run_postfix_enclosed (hrecv : Returns p k recv) (hdepth : depth + 2 + 2 * k ≤ maxParseDepth)
    (hfuel : (exprToks recv).length < fuel) :
    parsePostfix p ty (parseExpr p fuel depth) fuel (enclosed (exprToks recv) ++ rest) =
      postfixLoop p ty (parseExpr p fuel depth) fuel fuel recv rest := by
  unfold parsePostfix
  refine run_bind (run_enclosed_primary (hrecv fuel depth _ (by omega) hfuel ?_))
  rintro t ⟨⟩
  decide

theorem returns_method {name : String} (hrecv : Returns p k recv)
    (hargs : ∀ a ∈ args, Returns p k a) :
    Returns p (k + 1) (.method recv name args) := by
  refine returns_of_postfix ⟨_, by rw [exprToks]; rfl, rfl⟩
    fun fuel depth rest hdepth hfuel hcloses => ?_
  rw [exprToks, length_append, length_cons, length_cons, length_cons,
    length_append, length_enclosed] at hfuel
  obtain ⟨fuel, rfl⟩ : ∃ n, fuel = n + 2 := ⟨fuel - 2, by omega⟩
  rw [exprToks, append_assoc, run_postfix_enclosed hrecv (by omega) (by omega)]
  rw [cons_append, cons_append, cons_append, append_assoc]
  have hread : parseMethodArgs p (parseExpr p (fuel + 2) depth) (fuel + 2)
      (Tok.lParen :: (separated [Tok.comma] (operandsToks args) ++ ([Tok.rParen] ++ rest))) = .ok
      (args, rest) := by
    unfold parseMethodArgs
    rw [run_peek, if_pos rfl, run_advance]
    exact run_exprs hargs (by omega) (by simp) (by omega)
  unfold postfixLoop
  rw [run_peek, if_pos rfl, run_advance, run_eatIdent, run_bind hread]
  exact run_postfixLoop hcloses.settled

theorem run_type_named {s : String} (hs : isBaseType s = false) :
    parseType p (fuel + 1) depth (Tok.ident s :: rest) = .ok (.named s, rest) := by
  change (.ok (if isBaseType s then Ty.base s else .named s, rest) : Result ParseError
    (Ty × List Tok)) = _
  rw [hs]
  rfl

theorem returns_cast {s : String} (hvalue : Returns p k recv) (hs : isBaseType s = false) :
    Returns p (k + 1) (.cast recv (.named s)) := by
  refine returns_of_postfix ⟨_, by rw [exprToks]; rfl, rfl⟩
    fun fuel depth rest hdepth hfuel hcloses => ?_
  rw [exprToks, length_append, length_cons, length_singleton,
    length_enclosed] at hfuel
  obtain ⟨fuel, rfl⟩ : ∃ n, fuel = n + 2 := ⟨fuel - 2, by omega⟩
  rw [exprToks, append_assoc, run_postfix_enclosed hvalue (by omega) (by omega), typeName,
    cons_append, singleton_append]
  unfold postfixLoop
  rw [run_peek, if_neg (by simp), if_neg (by simp), if_pos rfl, run_advance,
    run_bind (run_type_named hs)]
  exact run_postfixLoop hcloses.settled

end Receivers

section Operators

variable {a b : Expr}

theorem run_operand {ty : Parse Ty} (ha : Returns p k a)
    (hdepth : depth + 1 + 2 * k ≤ maxParseDepth)
    (hfuel : (exprToks a).length < fuel + 1) (hsettled : Settled rest) {rounds : Nat} :
    parseUnary p ty (parseExpr p (fuel + 1) depth) (fuel + 1) (rounds + 1)
      (enclosed (exprToks a) ++ rest) = .ok (a, rest) := by
  refine run_enclosed_unary (ha (fuel + 1) depth _ hdepth hfuel ?_) hsettled
  rintro t ⟨⟩
  decide

theorem returns_un {op : UnOp} (ha : Returns p k a) : Returns p (k + 1) (.un op a) := by
  intro fuel depth rest hdepth hfuel hcloses
  rw [exprToks, length_cons, length_enclosed] at hfuel
  obtain ⟨fuel, rfl⟩ : ∃ n, fuel = n + 3 := ⟨fuel - 3, by omega⟩
  have hstmt : NoStatement (exprToks (.un op a) ++ rest) := by
    rw [exprToks]
    cases op <;> exact ⟨nofun, nofun, nofun⟩
  refine run_expr_of_or (by omega) hstmt (run_or_of_unary hcloses ?_)
  rw [exprToks, cons_append]
  refine run_un ⟨.lParen, rfl, rfl⟩ (run_postfixed (run_enclosed_primary ?_) hcloses.settled)
  refine ha _ _ _ (by omega) (by omega) ?_
  rintro t ⟨⟩
  decide

theorem returns_bin {op : BinOp} (hor : op ≠ .or) (ha : Returns p k a) (hb : Returns p k b) :
    Returns p (k + 1) (.bin op a b) := by
  intro fuel depth rest hdepth hfuel hcloses
  rw [exprToks, length_append, length_cons, length_enclosed, length_enclosed] at hfuel
  obtain ⟨fuel, rfl⟩ : ∃ n, fuel = n + 3 := ⟨fuel - 3, by omega⟩
  have htoks : exprToks (.bin op a b) ++ rest = enclosed (exprToks a) ++
      op.tok :: (enclosed (exprToks b) ++ rest) := by
    rw [exprToks, append_assoc, cons_append]
  rw [htoks]
  refine run_expr_of_or (by omega) (Opens.noStatement ⟨.lParen, rfl, rfl⟩) (run_bin hor hcloses
    (run_operand ha (by omega) (by omega) (settled_tok op))
    (run_operand hb (by omega) (by omega) hcloses.settled))

end Operators

/-- What is written is read again. -/
theorem returns_of_nested {IsName : String → Prop} {IsNumber : F64 → Prop}
    (hname : ∀ s, IsName s → s ≠ "Array") (hnested : Nested IsName IsNumber k e) (hw : Writable e) :
    Returns p k e := by
  induction hnested with
  | num => exact returns_num
  | bool => exact returns_bool
  | var hv =>
    cases hw with
    | var htrue hfalse => exact returns_var htrue hfalse (hname _ hv)
  | arrayLit _ ih =>
    cases hw with
    | arrayLit hes => exact returns_arrayLit fun e he => ih e he (hes e he)
  | bin _ _ iha ihb =>
    cases hw with
    | bin hor hwa hwb => exact returns_bin hor (iha hwa) (ihb hwb)
  | un _ ih =>
    cases hw with
    | un hwa => exact returns_un (ih hwa)
  | call hf _ ih =>
    cases hw with
    | call htrue hfalse hargs =>
      exact returns_call htrue hfalse (hname _ hf) fun e he => ih e he (hargs e he)
  | method _ _ _ ihr ih =>
    cases hw with
    | method hwr hargs => exact returns_method (ihr hwr) fun e he => ih e he (hargs e he)
  | lambda _ _ ih =>
    cases hw with
    | lambda hwb => exact returns_lambda (ih hwb)
  | record _ _ ih =>
    cases hw with
    | record hfields => exact returns_record fun f hf => ih f hf (hfields f hf)
  | cast _ _ ih =>
    cases hw with
    | cast hwv hs => exact returns_cast (ih hwv) (hs _ rfl)

end Returns

end Parser

end Oikos.Eidos
