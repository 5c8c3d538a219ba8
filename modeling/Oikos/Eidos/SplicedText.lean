/-
An expression is read as the value of a function whose text is put around it.  What the
tokenizer makes of the whole is what it makes of the expression with the tokens around it,
unless a comment swallows those behind.
-/
import Oikos.Eidos.Grammar
import Oikos.Eidos.Rendering

namespace Oikos.Eidos

open List

/-! ### The tokens around -/

/-- The tokens in front of the value of a function. -/
def frontToks (name : String) : List Tok :=
  [Tok.fn, .ident name, .lParen, .rParen, .arrow, .ident "f64", .lBrace, .return_]

def frontText (name : List Char) : List Char :=
  'f' :: 'n' :: ' ' :: (name ++
    ['(', ')', ' ', '-', '>', ' ', 'f', '6', '4', ' ', '\x7b', ' ', 'r', 'e',
    't', 'u', 'r', 'n', ' '])

/-- The characters behind the expression. -/
def backText : List Char :=
  [';', ' ', '\x7d']

theorem frontText_eq : "fn _() -> f64 \x7b return ".toList = frontText ['_'] := by
  decide

theorem backText_eq : "; \x7d".toList = backText := by
  decide

theorem toList_wrapped (source : String) :
    (wrapped source).toList = frontText ['_'] ++ (source.toList ++ backText) := by
  unfold wrapped
  rw [String.toList_append, String.toList_append, frontText_eq, backText_eq, append_assoc]

namespace Lexer

variable {u : Unicode} {c : Char} {cs rest : List Char} {t : Tok}

theorem spells_front {name : String} (hname : Spells u Ends cs [Tok.ident name]) :
    Spells u Any (frontText cs) (frontToks name) := by
  have hreturn : Spells u Any ['r', 'e', 't', 'u', 'r', 'n', ' '] [Tok.return_] :=
    (Spells.asciiName (by decide) (by decide) (by decide) :
      Spells u Ends ['r', 'e', 't', 'u', 'r', 'n'] [Tok.return_]).upTo (by decide)
      (Spells.space .nil)
  have hbrace : Spells u Any (['\x7b', ' '] ++ ['r', 'e', 't', 'u', 'r', 'n', ' '])
      ([Tok.lBrace] ++ [Tok.return_]) :=
    (Spells.symbolSpace (by decide) rfl).before hreturn
  have htype : Spells u Any
    (['f', '6', '4'] ++ ' ' :: '\x7b' :: ' ' :: ['r', 'e', 't', 'u', 'r', 'n', ' '])
      ([Tok.ident "f64"] ++ [Tok.lBrace, .return_]) :=
    (Spells.asciiName (by decide) (by decide) (by decide)).upTo (by decide) (Spells.space hbrace)
  have harrow := (Spells.two (by decide) (by decide) rfl : Spells u Any ['-', '>']
    [Tok.arrow]).before
    (Spells.space htype)
  have hparens := (Spells.symbol (by decide) (by decide) rfl : Spells u Any ['(']
    [Tok.lParen]).before
    ((Spells.symbol (by decide) (by decide) rfl : Spells u Any [')'] [Tok.rParen]).before
      (Spells.space harrow))
  have hrest := hname.upTo (by decide) hparens
  exact (Spells.asciiName (by decide) (by decide) (by decide) :
    Spells u Ends ['f', 'n'] [Tok.fn]).upTo (by decide) (Spells.space hrest)

theorem spells_underscore : Spells u Ends ['_'] [Tok.ident "_"] :=
  .asciiName (by decide) (by decide) (by decide)

/-- A round takes characters that there are. -/
theorem le_length_of_lexOne {tok : Option Tok} {n : Nat} (h : lexOne u c cs = .ok (tok, n)) :
    n ≤ cs.length := by
  have htake : ∀ p : Char → Bool, (cs.takeWhile p).length ≤ cs.length := fun p =>
    (List.takeWhile_prefix p).length_le
  unfold lexOne at h
  split at h
  · cases h
    exact Nat.zero_le _
  · split at h
    · cases h
      exact htake _
    · split at h
      · dsimp only at h
        split at h
        · cases h
          exact htake _
        · cases h
      · split at h
        · cases h
          exact htake _
        · split at h
          · rename_i htwo
            cases h
            obtain ⟨d, hd, -⟩ := Option.bind_eq_some_iff.mp htwo
            cases cs with
            | nil => cases hd
            | cons e cs => exact Nat.succ_le_succ (Nat.zero_le _)
          · split at h
            · cases h
              exact Nat.zero_le _
            · cases h

theorem takeWhile_back {p : Char → Bool} (hp : p ';' = false) :
    (cs ++ backText).takeWhile p = cs.takeWhile p := by
  induction cs with
  | nil => exact takeWhile_cons_of_neg (by rw [hp]; exact Bool.false_ne_true)
  | cons d cs ih => rw [cons_append, takeWhile_cons, takeWhile_cons, ih]

/-- Outside a comment, a round does not see the semicolon behind. -/
theorem lexOne_back (hcomment : ¬(c = '/' ∧ cs.head? = some '/')) :
    lexOne u c (cs ++ backText) = lexOne u c cs := by
  have hhead : ∀ d, d ≠ ';' → ((cs ++ backText).head? = some d ↔ cs.head? = some d) := by
    intro d hd
    cases cs with
    | nil => simp [backText, hd.symm]
    | cons e cs => rfl
  have hslash : ¬(c = '/' ∧ (cs ++ backText).head? = some '/') := by
    rwa [hhead '/' (by decide)]
  have hdigit : (cs ++ backText).head?.any Char.isDigit = cs.head?.any Char.isDigit := by
    cases cs <;> rfl
  have htwo : (cs ++ backText).head?.bind (twoCharToken c) = cs.head?.bind (twoCharToken c) := by
    cases cs with
    | nil => simp [backText, twoCharToken]
    | cons e cs => rfl
  have hname : u.inName ';' = false := inName_of_mem_endChars (by decide)
  unfold lexOne
  rw [if_neg hslash, if_neg hcomment, hdigit, htwo, takeWhile_back (by decide),
    takeWhile_back hname]

theorem lexFrom_back : lexFrom u 0 backText = .ok [Tok.semi, .rBrace] := by
  have hsemi : Spells u Any [';'] [Tok.semi] := Spells.symbol (by decide) (by decide) rfl
  have hbrace : Spells u Any ['\x7d'] [Tok.rBrace] := Spells.symbol (by decide) (by decide) rfl
  exact hsemi.before (Spells.space hbrace) [] trivial

theorem lexFrom_length (xs : List Char) : lexFrom u xs.length xs = .ok [] := by
  have hall := @lexFrom_skip u [] xs
  rwa [append_nil] at hall

/-- The tokens behind the expression come out, unless a comment goes on to the end. -/
theorem lexFrom_spliced (skip : Nat) (hskip : skip ≤ cs.length) :
    ∃ tail, (tail = [] ∨ tail = [Tok.semi, .rBrace]) ∧
      lexFrom u skip (cs ++ backText) = (lexFrom u skip cs).map (· ++ tail) := by
  induction cs generalizing skip with
  | nil =>
    cases Nat.le_zero.mp hskip
    exact ⟨_, Or.inr rfl, lexFrom_back⟩
  | cons c cs ih =>
    cases skip with
    | succ skip => exact ih skip (Nat.le_of_succ_le_succ hskip)
    | zero =>
      -- a round that takes the same characters of both texts
      have hround : ∀ {tok n}, lexOne u c cs = .ok (tok, n) →
          lexOne u c (cs ++ backText) = .ok (tok, n) →
          ∃ tail, (tail = [] ∨ tail = [Tok.semi, .rBrace]) ∧
            lexFrom u 0 (c :: (cs ++ backText)) = (lexFrom u 0 (c :: cs)).map (· ++ tail) := by
        intro tok n hcs hback
        obtain ⟨tail, htail, hrest⟩ := ih n (le_length_of_lexOne hcs)
        refine ⟨tail, htail, ?_⟩
        rw [lexFrom, lexFrom, hcs, hback, ok_bind, ok_bind]
        dsimp only
        rw [hrest]
        cases lexFrom u n cs with
        | ok toks => exact congrArg Except.ok (append_assoc _ _ _).symm
        | error e => rfl
      by_cases hcomment : c = '/' ∧ cs.head? = some '/'
      · obtain ⟨rfl, hhead⟩ := hcomment
        have hcs : lexOne u '/' cs = .ok (none, (cs.takeWhile (· != '\n')).length) := by
          unfold lexOne
          rw [if_neg (by decide), if_pos ⟨rfl, hhead⟩]
        have hback : lexOne u '/' (cs ++ backText) =
            .ok (none, ((cs ++ backText).takeWhile (· != '\n')).length) := by
          unfold lexOne
          rw [if_neg (by decide), if_pos ⟨rfl, by
            rw [head?_append, hhead]
            rfl⟩]
        by_cases hline : ∀ d ∈ cs, (d != '\n') = true
        · -- the comment goes on to the end
          have hall : ∀ d ∈ cs ++ backText, (d != '\n') = true := by
            intro d hd
            rcases mem_append.mp hd with hd | hd
            · exact hline d hd
            · have hback : backText.all (· != '\n') = true := by decide
              exact all_eq_true.mp hback d hd
          rw [takeWhile_eq_self_iff.mpr hline] at hcs
          rw [takeWhile_eq_self_iff.mpr hall] at hback
          refine ⟨[], Or.inl rfl, ?_⟩
          rw [cons_append, lexFrom, lexFrom, hcs, hback, ok_bind, ok_bind]
          dsimp only
          rw [lexFrom_length, lexFrom_length]
          rfl
        · -- the comment ends before
          have hsame : (cs ++ backText).takeWhile (· != '\n') = cs.takeWhile (· != '\n') := by
            rw [takeWhile_append, if_neg]
            intro hlen
            exact hline (takeWhile_eq_self_iff.mp
              ((List.takeWhile_prefix _).eq_of_length hlen))
          rw [hsame] at hback
          exact hround hcs hback
      · have hsame := lexOne_back (u := u) hcomment
        cases hcs : lexOne u c cs with
        | ok round => exact hround hcs (hsame.trans hcs)
        | error e =>
          refine ⟨[], Or.inl rfl, ?_⟩
          rw [cons_append, lexFrom, lexFrom, hsame, hcs]
          rfl

end Lexer

/-! ### Braces and last semicolons -/

section Operators

variable {level : Level} {t : Tok} {op : BinOp} {sign : UnOp}

def IsOperator (t : Tok) : Prop :=
  t ≠ .lBrace ∧ t ≠ .rBrace ∧ t ≠ .semi

theorem isOperator_of_chainOp (h : level.chainOp t = some op) : IsOperator t := by
  refine ⟨?_, ?_, ?_⟩ <;> rintro rfl <;> cases level <;> cases h

theorem isOperator_of_cmpOp (h : Parser.cmpOp t = some op) : IsOperator t := by
  refine ⟨?_, ?_, ?_⟩ <;> rintro rfl <;> cases h

theorem isOperator_of_unaryOp (h : Parser.unaryOp t = some sign) : IsOperator t := by
  refine ⟨?_, ?_, ?_⟩ <;> rintro rfl <;> cases h

end Operators

/-- Braces are closed again. -/
abbrev Braced (ls : List Tok) : Prop :=
  Bracketed .lBrace .rBrace ls

theorem MaybeSemi.braced {m : List Tok} (h : MaybeSemi m) : Braced m := by
  rcases h with rfl | rfl
  · exact .nil
  · exact .cons nofun nofun .nil

theorem Derives.braced {phrase : Phrase} {ls : List Tok} (h : Derives phrase ls) : Braced ls := by
  have hne : Tok.lBrace ≠ .rBrace := nofun
  induction h with
  | letIn _ _ ihv ihb =>
    exact .cons nofun nofun (.cons
      nofun nofun (.cons nofun nofun (ihv.append (.cons nofun nofun ihb))))
  | ifThen _ _ _ ihc iht ihe =>
    exact .cons nofun nofun (ihc.append (iht.append (.cons nofun nofun ihe)))
  | block _ hm ih =>
    rw [← append_assoc]
    exact .wrap hne (ih.append hm.braced)
  | ret _ hm ih => exact .cons nofun nofun (ih.append hm.braced)
  | tight _ _ ih => exact ih
  | chain hop _ _ _ iha ihb =>
    obtain ⟨hl, hr, -⟩ := isOperator_of_chainOp hop
    exact iha.append (.cons hl hr ihb)
  | cmp hop _ _ iha ihb =>
    obtain ⟨hl, hr, -⟩ := isOperator_of_cmpOp hop
    exact iha.append (.cons hl hr ihb)
  | un hop _ ih =>
    obtain ⟨hl, hr, -⟩ := isOperator_of_unaryOp hop
    exact .cons hl hr ih
  | method _ ih => exact ih.append (.cons nofun nofun (.cons nofun nofun .nil))
  | methodArgs _ _ ihr iha =>
    exact ihr.append (.cons nofun nofun (.cons nofun nofun (.cons nofun nofun
      (iha.append (.cons nofun nofun .nil)))))
  | call _ _ ihf iha => exact ihf.append (.cons nofun nofun (iha.append (.cons nofun nofun .nil)))
  | cast _ _ ihv iht => exact ihv.append (.cons nofun nofun iht)
  | num | true_ | false_ | var | patternVar | base | named => exact .cons nofun nofun .nil
  | arrayLit _ ih | paren _ ih | patternTuple _ ih =>
    exact .cons nofun nofun (ih.append (.cons nofun nofun .nil))
  | record _ ih => exact .wrap hne ih
  | lambda _ _ ihp ihb => exact .cons nofun nofun (ihp.append (.cons nofun nofun ihb))
  | field _ ih => exact .cons nofun nofun (.cons nofun nofun ih)
  | @refine bind t lt pred lq _ _ iht ihq =>
    have hinner : Braced (.ident bind :: .colon :: (lt ++ .pipe :: lq)) :=
      .cons nofun nofun (.cons nofun nofun (iht.append (.cons nofun nofun ihq)))
    have hwrap := hinner.wrap hne
    simpa using hwrap
  | arrayType _ _ ih =>
    exact .cons nofun nofun (.cons nofun nofun (ih.append (.cons nofun nofun (.cons nofun nofun
      (.cons nofun nofun .nil)))))
  | noParts => exact .nil
  | onePart _ ih => exact ih
  | parts _ _ ih ihs => exact ih.append (.cons nofun nofun ihs)

section LastSemi

variable {phrase : Phrase} {level : Level} {e : Expr} {ls front xs ys : List Tok}

theorem last_semi (h : xs ++ ys = front ++ [Tok.semi]) (hne : ys ≠ []) :
    ∃ ys', ys = ys' ++ [Tok.semi] ∧ front = xs ++ ys' := by
  rcases eq_nil_or_concat ys with rfl | ⟨ys', last, rfl⟩
  · exact absurd rfl hne
  · rw [concat_eq_append] at h ⊢
    have hassoc : (xs ++ ys') ++ [last] = front ++ [Tok.semi] := by
      rw [← h, append_assoc]
    obtain ⟨hfront, hlast⟩ := append_inj' hassoc rfl
    cases hlast
    exact ⟨ys', rfl, hfront.symm⟩

theorem not_last_semi {last : Tok} (h : xs ++ [last] = front ++ [Tok.semi]) : last = .semi := by
  obtain ⟨-, hlast⟩ := append_inj' h rfl
  exact head_eq_of_cons_eq hlast

/-- An expression has tokens. -/
theorem Derives.ne_nil (h : Derives phrase ls) (hexpr : phrase = .expr level e) : ls ≠ [] := by
  induction h generalizing level e with
  | tight _ _ ih => exact ih rfl
  | noParts | onePart | parts => cases hexpr
  | _ => simp

theorem Derives.block_last (h : Derives (.block e) ls) : ls ≠ front ++ [Tok.semi] := by
  intro hls
  cases h with
  | @block _ ls m _ _ =>
    have hlast : (Tok.lBrace :: (ls ++ m)) ++ [Tok.rBrace] = front ++ [Tok.semi] := by
      rw [← hls]
      simp
    cases not_last_semi hlast

theorem Derives.type_last {t : Ty} (h : Derives (.type t) ls) : ls ≠ front ++ [Tok.semi] := by
  intro hls
  cases h with
  | @refine bind t lt pred lq _ _ =>
    have hlast : (Tok.lBrace :: .ident bind :: .colon :: (lt ++ .pipe :: lq)) ++ [Tok.rBrace] =
        front ++ [Tok.semi] := by
      rw [← hls]
      simp
    cases not_last_semi hlast
  | @arrayType t lt n length _ _ =>
    have hlast : (Tok.array :: .lt :: (lt ++ [Tok.comma, .num n])) ++ [Tok.gt] =
      front ++ [Tok.semi] := by
      rw [← hls]
      simp
    cases not_last_semi hlast
  | base => cases @not_last_semi _ [] _ hls
  | named => cases @not_last_semi _ [] _ hls

/-- An expression that ends in a semicolon is one without it: the semicolon is that of a
`return`. -/
theorem Derives.drop_semi (h : Derives phrase ls) (hls : ls = front ++ [Tok.semi])
    (hexpr : phrase = .expr level e) : Derives phrase front := by
  induction h generalizing front level e with
  | @letIn name value lv body lb hvalue hbody _ ih =>
    have hlast : (Tok.let_ :: .ident name :: .eq :: (lv ++ [Tok.semi])) ++ lb =
      front ++ [Tok.semi] := by
      rw [← hls]
      simp
    obtain ⟨lb', hlb, rfl⟩ := last_semi hlast (hbody.ne_nil rfl)
    simpa using hvalue.letIn (ih hlb rfl)
  | @ifThen cond lc then_ lt els le _ _ hels =>
    have hlast : (Tok.if_ :: (lc ++ (lt ++ [Tok.else_]))) ++ le = front ++ [Tok.semi] := by
      rw [← hls]
      simp
    have hne : le ≠ [] := by
      rintro rfl
      cases hels
    obtain ⟨le', hle, -⟩ := last_semi hlast hne
    exact absurd hle hels.block_last
  | @ret e ls m he hm ih =>
    rcases hm with rfl | rfl
    · have hlast : [Tok.return_] ++ ls = front ++ [Tok.semi] := by
        rw [← hls]
        simp
      obtain ⟨ls', hls', rfl⟩ := last_semi hlast (he.ne_nil rfl)
      simpa using (ih hls' rfl).ret (Or.inl rfl)
    · have hsame : (Tok.return_ :: ls) ++ [Tok.semi] = front ++ [Tok.semi] := hls
      have hfront : Tok.return_ :: ls = front := append_cancel_right hsame
      rw [← hfront]
      simpa using he.ret (Or.inl rfl)
  | tight htighter _ ih => exact .tight htighter (ih hls rfl)
  | @chain level inner t op a la b lb hop htighter ha hb _ ih =>
    have hlast : (la ++ [t]) ++ lb = front ++ [Tok.semi] := by
      rw [← hls]
      simp
    obtain ⟨lb', hlb, rfl⟩ := last_semi hlast (hb.ne_nil rfl)
    simpa using Derives.chain hop htighter ha (ih hlb rfl)
  | @cmp t op a la b lb hop ha hb _ ih =>
    have hlast : (la ++ [t]) ++ lb = front ++ [Tok.semi] := by
      rw [← hls]
      simp
    obtain ⟨lb', hlb, rfl⟩ := last_semi hlast (hb.ne_nil rfl)
    simpa using Derives.cmp hop ha (ih hlb rfl)
  | @un t op a ls hop ha ih =>
    obtain ⟨ls', hls', rfl⟩ := @last_semi front [t] ls hls (ha.ne_nil rfl)
    exact .un hop (ih hls' rfl)
  | @lambda params lp body lb hparams hbody _ ih =>
    have hlast : (Tok.pipe :: (lp ++ [Tok.pipe])) ++ lb = front ++ [Tok.semi] := by
      rw [← hls]
      simp
    obtain ⟨lb', hlb, rfl⟩ := last_semi hlast (hbody.ne_nil rfl)
    simpa using hparams.lambda (ih hlb rfl)
  | @cast value lv t lt _ ht =>
    have hlast : (lv ++ [Tok.as_]) ++ lt = front ++ [Tok.semi] := by
      rw [← hls]
      simp
    have hne : lt ≠ [] := by
      rintro rfl
      cases ht
    obtain ⟨lt', hlt, -⟩ := last_semi hlast hne
    exact absurd hlt ht.type_last
  | @method recv lr name =>
    have hlast : (lr ++ [Tok.dot]) ++ [Tok.ident name] = front ++ [Tok.semi] := by
      rw [← hls]
      simp
    cases not_last_semi hlast
  | @methodArgs recv lr name args la =>
    have hlast : (lr ++ Tok.dot :: .ident name :: .lParen :: la) ++ [Tok.rParen] =
      front ++ [Tok.semi] := by
      rw [← hls]
      simp
    cases not_last_semi hlast
  | @call f lf args la =>
    have hlast : (lf ++ Tok.lParen :: la) ++ [Tok.rParen] = front ++ [Tok.semi] := by
      rw [← hls]
      simp
    cases not_last_semi hlast
  | @arrayLit es ls => cases @not_last_semi front (Tok.lBracket :: ls) _ hls
  | @record fields ls => cases @not_last_semi front (Tok.lBrace :: ls) _ hls
  | @paren e ls => cases @not_last_semi front (Tok.lParen :: ls) _ hls
  | num | true_ | false_ | var => cases @not_last_semi front [] _ hls
  | _ => cases hexpr

end LastSemi

/-! ### The function around -/

namespace Parser

variable {p : Platform} {fuel : Nat} {name : String} {ts rest : List Tok}

theorem parseFun_front :
    parseFun p (fuel + 1) ((frontToks name).tail ++ ts) =
      (do
        let body ← parseBlock p (parseExpr p (fuel + 1) 0)
        pure ⟨name, [], .base "f64", none, none, body⟩ : Parse Fun)
          (Tok.lBrace :: .return_ :: ts) := by
  have htype : parseType p (fuel + 1) 0 (.ident "f64" :: .lBrace :: .return_ :: ts) =
      .ok (.base "f64", .lBrace :: .return_ :: ts) := by
    have hbase : isBaseType "f64" = true := by decide
    change (.ok (if isBaseType "f64" then Ty.base "f64" else .named "f64",
      .lBrace :: .return_ :: ts) :
      Result ParseError (Ty × List Tok)) = _
    rw [hbase]
    rfl
  have hparams : closedList p .rParen (parseParam p (fuel + 1)) (fuel + 1)
      (.rParen :: .arrow :: .ident "f64" :: .lBrace :: .return_ :: ts) =
        .ok ([], .arrow :: .ident "f64" :: .lBrace :: .return_ :: ts) := by
    unfold closedList
    rw [run_peek, if_pos rfl, run_eat]
    rfl
  have hrequires : parseRequires p (fuel + 1) (Tok.lBrace :: .return_ :: ts) =
      .ok (none, .lBrace :: .return_ :: ts) := by
    unfold parseRequires
    rw [run_peek, if_neg (by simp)]
    rfl
  have hensures : parseEnsures p (fuel + 1) (Tok.lBrace :: .return_ :: ts) =
      .ok (none, .lBrace :: .return_ :: ts) := by
    unfold parseEnsures
    rw [run_peek, if_neg (by simp)]
    rfl
  have heffects : parseEffects p (fuel + 1) (Tok.lBrace :: .return_ :: ts) =
      .ok ([], .lBrace :: .return_ :: ts) := by
    unfold parseEffects
    rw [run_peek, if_neg (by simp)]
    rfl
  have htoks : (frontToks name).tail ++ ts =
      .ident name :: .lParen :: .rParen :: .arrow :: .ident "f64" :: .lBrace :: .return_ :: ts :=
      rfl
  unfold parseFun
  rw [htoks, run_eatIdent, run_eat, run_bind hparams, run_eat, run_bind htype, run_bind hrequires,
    run_bind hensures, run_bind heffects]

def returned (p : Platform) (fuel : Nat) : Parse Expr := do
  let e ← parseExpr p fuel 1
  skip .semi
  pure (.ret e)

def returnedBlock (p : Platform) (fuel : Nat) : Parse Expr := do
  let body ← returned p fuel
  skip .semi
  eat p .rBrace
  pure body

theorem parseItem_front :
    parseItem p (fuel + 1) (frontToks name ++ ts) =
      (do
        let body ← returnedBlock p fuel
        pure (.fn ⟨name, [], .base "f64", none, none, body⟩) : Parse Item) ts := by
  have hblock : parseBlock p (parseExpr p (fuel + 1) 0) (Tok.lBrace :: .return_ :: ts) =
      returnedBlock p fuel ts := by
    unfold parseBlock
    refine (run_bind rfl).trans ?_
    rfl
  have hnext : (frontToks name ++ ts).head? = some .fn := rfl
  unfold parseItem
  refine (run_bind (rfl : peek (frontToks name ++ ts) = _)).trans ?_
  rw [hnext, if_neg (by decide), if_pos rfl]
  refine (run_bind (rfl : advance (frontToks name ++ ts) = _)).trans ?_
  change (parseFun p (fuel + 1) ((frontToks name).tail ++ ts) >>= fun r => .ok (Item.fn r.1, r.2)) =
    (returnedBlock p fuel ts >>= _)
  rw [parseFun_front]
  change (parseBlock p (parseExpr p (fuel + 1) 0) (Tok.lBrace :: .return_ :: ts) >>= _) >>= _ = _
  rw [hblock]
  cases returnedBlock p fuel ts with
  | ok r => rfl
  | error stop => rfl

/-- A function whose value ends in a semicolon. -/
theorem run_item {e : Expr} (h : parseExpr p fuel 1 ts = .ok (e, .semi :: .rBrace :: rest)) :
    parseItem p (fuel + 1) (frontToks name ++ ts) =
      .ok (.fn ⟨name, [], .base "f64", none, none, .ret e⟩, rest) := by
  have hreturned : returned p fuel ts = .ok (.ret e, .rBrace :: rest) := by
    unfold returned
    rw [run_bind h]
    rfl
  have hblock : returnedBlock p fuel ts = .ok (.ret e, rest) := by
    unfold returnedBlock
    rw [run_bind hreturned]
    rfl
  rw [parseItem_front]
  exact run_bind hblock

/-- The tokens of the expression, each of two semicolons that may follow, and the brace that
closes the function. -/
def Body (body : Expr) (ls : List Tok) : Prop :=
  ∃ e inner m m', body = .ret e ∧ ls = inner ++ (m ++ (m' ++ [Tok.rBrace])) ∧
    Derives (.expr .full e) inner ∧ MaybeSemi m ∧ MaybeSemi m'

theorem takes_returnedBlock : Takes (returnedBlock p fuel) Body := by
  have hreturned : Takes (returned p fuel) fun body ls =>
      ∃ e inner m, body = .ret e ∧ ls = inner ++ m ∧ Derives (.expr .full e) inner ∧
        MaybeSemi m := by
    apply takes_expr.bind
    intro e inner he
    apply takes_skip.bind
    intro _ m hm
    apply Reads.done
    rw [append_nil]
    exact ⟨e, inner, m, rfl, rfl, he, hm⟩
  apply hreturned.bind
  rintro _ _ ⟨e, inner, m, rfl, rfl, he, hm⟩
  apply takes_skip.bind
  intro _ m' hm'
  apply takes_eat_then
  apply Reads.done
  exact ⟨e, inner, m, m', rfl, append_assoc _ _ _, he, hm, hm'⟩

theorem item_front {item : Item}
    (h : parseItem p (fuel + 1) (frontToks name ++ ts) = .ok (item, rest)) :
    ∃ body ls, item = .fn ⟨name, [], .base "f64", none, none, body⟩ ∧ ts = ls ++ rest ∧
    Body body ls := by
  rw [parseItem_front] at h
  obtain ⟨⟨body, left⟩, hblock, hpure⟩ := bind_eq_ok.mp h
  cases hpure
  obtain ⟨ls, _, hts, rfl, hbody⟩ := takes_returnedBlock rfl hblock
  exact ⟨body, ls, rfl, hts, hbody⟩

theorem first_of_module {m : Module}
    (h : parseModule p fuel (frontToks name ++ ts) = .ok (m, rest)) :
    ∃ body items ls left, m.items = .fn ⟨name, [], .base "f64", none, none, body⟩ :: items ∧
      ts = ls ++ left ∧ Body body ls := by
  cases fuel with
  | zero => cases h
  | succ fuel =>
    obtain ⟨⟨items, left⟩, hitems, hpure⟩ := bind_eq_ok.mp h
    cases hpure
    unfold parseItems at hitems
    rw [run_bind (rfl : peek (frontToks name ++ ts) =
      .ok (some .fn, frontToks name ++ ts))] at hitems
    obtain ⟨⟨item, mid⟩, hitem, hmore⟩ := bind_eq_ok.mp hitems
    obtain ⟨⟨more, _⟩, -, hcons⟩ := bind_eq_ok.mp hmore
    cases hcons
    obtain ⟨body, ls, rfl, hts, hbody⟩ := item_front hitem
    exact ⟨body, more, ls, mid, rfl, hts, hbody⟩

end Parser

section Whole

variable {u : Unicode} {p : Platform} {fuel : Nat} {source : String} {e : Expr}

/-- The tokens of the source, up to a semicolon at the end, are the expression. -/
def Whole (u : Unicode) (source : String) (e : Expr) : Prop :=
  ∃ toks, Lexer.run u source = .ok toks ∧
    (Derives (.expr .full e) toks ∨ ∃ front, toks = front ++ [Tok.semi] ∧
    Derives (.expr .full e) front)

def KeepsBraces (u : Unicode) (source : String) : Prop :=
  ∃ toks, Lexer.run u source = .ok toks ∧ KeepsOpen .lBrace .rBrace toks

/-- What is accepted is an expression with its semicolon and the brace that closes the function,
followed by anything at all. -/
theorem split_of_parseExpr (h : parseExpr u p fuel source = .ok e) :
    ∃ toks tail inner m m' left, Lexer.run u source = .ok toks ∧
      (tail = [] ∨ tail = [Tok.semi, .rBrace]) ∧
      toks ++ tail = inner ++ (m ++ (m' ++ [Tok.rBrace])) ++ left ∧
      Derives (.expr .full e) inner ∧ MaybeSemi m ∧ MaybeSemi m' := by
  obtain ⟨m, hmodule, hfirst⟩ := bind_eq_ok.mp h
  obtain ⟨all, hall, hparse⟩ := bind_eq_ok.mp hmodule
  obtain ⟨⟨m₁, rest⟩, hitems, hend⟩ := bind_eq_ok.mp hparse
  have hm : m₁ = m := by
    dsimp only at hend
    split at hend
    · exact Except.ok.inj hend
    · cases hend
  rw [hm] at hitems
  obtain ⟨tail, htail, hspliced⟩ := @Lexer.lexFrom_spliced u source.toList 0 (Nat.zero_le _)
  have hrun : Lexer.run u (wrapped source) = ((Lexer.run u source).map (· ++ tail)).map
    (frontToks "_" ++ ·) := by
    rw [Lexer.run, toList_wrapped, Lexer.spells_front Lexer.spells_underscore _ trivial, hspliced]
    rfl
  cases htoks : Lexer.run u source with
  | error e =>
    rw [hrun, htoks] at hall
    cases hall
  | ok toks =>
    rw [hrun, htoks] at hall
    cases hall
    obtain ⟨body, items, ls, left, hfn, hls, e', inner, m₂, m', rfl, rfl, he, hm₂, hm'⟩ :=
      Parser.first_of_module hitems
    rw [hfn] at hfirst
    cases hfirst
    exact ⟨toks, tail, inner, m₂, m', left, rfl, htail, hls, he, hm₂, hm'⟩

theorem keepsOpen_of_derives {toks : List Tok}
    (h : Derives (.expr .full e) toks ∨
      ∃ front, toks = front ++ [Tok.semi] ∧ Derives (.expr .full e) front) :
    KeepsOpen .lBrace .rBrace toks := by
  rcases h with h | ⟨front, rfl, h⟩
  · exact h.braced.keeps
  · have hsemi : Braced [Tok.semi] := .cons nofun nofun .nil
    exact (h.braced.append hsemi).keeps

/-- What is accepted is a whole expression exactly when it nowhere closes more braces than it
has opened. -/
theorem parseExpr_whole_iff (h : parseExpr u p fuel source = .ok e) :
    Whole u source e ↔ KeepsBraces u source := by
  constructor
  · rintro ⟨toks, htoks, hwhole⟩
    exact ⟨toks, htoks, keepsOpen_of_derives hwhole⟩
  · rintro ⟨toks, htoks, hkeeps⟩
    obtain ⟨_, tail, inner, m, m', left, hrun, htail, hsplit, he, hm, hm'⟩ := split_of_parseExpr h
    cases htoks.symm.trans hrun
    refine ⟨toks, htoks, ?_⟩
    have hbody : Braced (inner ++ (m ++ m')) := he.braced.append (hm.braced.append hm'.braced)
    have hsplit : toks ++ tail = (inner ++ (m ++ m')) ++ .rBrace :: left := by
      rw [hsplit]
      simp
    -- the brace that closes the function is none of the source's
    have hshort : ∃ more, inner ++ (m ++ m') = toks ++ more ∧ tail = more ++ .rBrace :: left := by
      rcases append_eq_append_iff.mp hsplit with ⟨more, hmore, htail⟩ | ⟨more, htoks, hmore⟩
      · exact ⟨more, hmore, htail⟩
      · cases more with
        | nil => exact ⟨[], by simpa using htoks.symm, hmore.symm⟩
        | cons t more =>
          cases hmore
          rw [htoks] at hkeeps
          exact absurd hkeeps (hbody.not_keepsOpen nofun)
    obtain ⟨more, hmore, hback⟩ := hshort
    have hsemi : more = [Tok.semi] := by
      rcases htail with rfl | rfl
      · exact absurd hback.symm (by simp)
      · cases more with
        | nil => cases hback
        | cons t more =>
          rw [cons_append, cons_eq_cons] at hback
          obtain ⟨rfl, hlast⟩ := hback
          cases more with
          | nil => rfl
          | cons t more => exact absurd hlast (by simp)
    rw [hsemi] at hmore
    rcases hm' with rfl | rfl
    · rcases hm with rfl | rfl
      · simp only [append_nil] at hmore
        exact Or.inl (he.drop_semi hmore rfl)
      · simp only [append_nil, append_cancel_right_eq] at hmore
        exact Or.inl (hmore ▸ he)
    · rw [← append_assoc, append_cancel_right_eq] at hmore
      rcases hm with rfl | rfl
      · rw [append_nil] at hmore
        exact Or.inl (hmore ▸ he)
      · exact Or.inr ⟨inner, hmore.symm, he⟩

end Whole

/-! ### Runs over written texts -/

section Runs

variable {u : Unicode} {p : Platform} {fuel rounds : Nat} {source : String} {e : Expr}
  {toks ts rest : List Tok}

theorem run_of_spells (h : Lexer.Spells u Lexer.Ends source.toList toks) :
    Lexer.run u source = .ok toks := by
  have hall := h [] (fun _ hd => nomatch hd)
  rw [append_nil] at hall
  rw [Lexer.run, hall]
  exact congrArg Except.ok (append_nil toks)

theorem run_wrapped_of_spells (h : Lexer.Spells u Lexer.Ends source.toList toks) :
    Lexer.run u (wrapped source) = .ok (frontToks "_" ++ (toks ++ [Tok.semi, .rBrace])) := by
  have hback : Lexer.Ends backText := by
    rintro d ⟨⟩
    decide
  rw [Lexer.run, toList_wrapped, Lexer.spells_front Lexer.spells_underscore _ trivial, h _ hback,
    Lexer.lexFrom_back]
  rfl

theorem run_items {item : Item} {items : List Item} (hne : ts ≠ [])
    (hitem : Parser.parseItem p fuel ts = .ok (item, rest))
    (hitems : Parser.parseItems p fuel rounds rest = .ok (items, [])) :
    Parser.parseItems p fuel (rounds + 1) ts = .ok (item :: items, []) := by
  unfold Parser.parseItems
  refine (Parser.run_bind (rfl : Parser.peek ts = _)).trans ?_
  rw [if_neg fun h => hne (head?_eq_none_iff.mp h), Parser.run_bind hitem,
    Parser.run_bind hitems]
  rfl

theorem parseExpr_of_items {items : List Item} (hlex : Lexer.run u (wrapped source) = .ok ts)
    (hitems : Parser.parseItems p fuel fuel ts =
      .ok (.fn ⟨"_", [], .base "f64", none, none, .ret e⟩ :: items, [])) :
    parseExpr u p fuel source = .ok e := by
  have hmodule : Parser.parseModule p fuel ts =
      .ok (⟨.fn ⟨"_", [], .base "f64", none, none, .ret e⟩ :: items⟩, []) := by
    unfold Parser.parseModule
    rw [Parser.run_bind hitems]
    rfl
  have hparse : parse u p fuel (wrapped source) =
      .ok ⟨.fn ⟨"_", [], .base "f64", none, none, .ret e⟩ :: items⟩ := by
    unfold parse
    rw [hlex]
    change (Parser.parseModule p fuel ts >>= _) = _
    rw [hmodule]
    rfl
  unfold parseExpr
  rw [hparse]
  rfl

theorem parseExpr_of_returns {k : Nat} (hk : 2 + 2 * k ≤ maxParseDepth)
    (h : Lexer.Spells u Lexer.Ends source.toList (exprToks e)) (hreturns : Parser.Returns p k e) :
    parseExpr u p ((exprToks e).length + 2) source = .ok e := by
  have hclose : Parser.Closes [Tok.semi, .rBrace] := by
    rintro t ⟨⟩
    decide
  have hrun := hreturns ((exprToks e).length + 1) 1 [Tok.semi, .rBrace] (by omega) (by omega) hclose
  exact parseExpr_of_items (run_wrapped_of_spells h)
    (run_items (cons_ne_nil _ _) (Parser.run_item hrun) rfl)

theorem run_name {v : String} (htrue : v ≠ "true") (hfalse : v ≠ "false") (harray : v ≠ "Array")
    (more : List Tok) :
    Parser.parseExpr p 3 1 (Tok.ident v :: .semi :: more) = .ok (.var v, .semi :: more) := by
  have hreturns : Parser.Returns p 0 (.var v) := Parser.returns_var htrue hfalse harray
  have hclose : Parser.Closes (.semi :: more) := by
    rintro t ⟨⟩
    decide
  have hrun := hreturns 3 1 (.semi :: more) (by decide) (by simp [exprToks]) hclose
  rwa [exprToks] at hrun

end Runs

/-! ### Texts that close the function -/

theorem notSpace_of_isAlpha {c : Char} (h : c.isAlpha = true) : isWhitespace c = false := by
  delta Char.isAlpha Char.isUpper Char.isLower at h
  simp only [Bool.or_eq_true, Bool.and_eq_true,
    decide_eq_true_eq, UInt32.le_iff_toNat_le, ge_iff_le] at h
  change (65 ≤ c.toNat ∧ c.toNat ≤ 90) ∨ (97 ≤ c.toNat ∧ c.toNat ≤ 122) at h
  rw [isWhitespace]
  simp only [Bool.or_eq_false_iff, Bool.and_eq_false_iff, decide_eq_false_iff_not,
    contains_eq_mem, mem_cons, not_mem_nil, or_false]
  omega

def Unicode.asciiOnly : Unicode where
  isAlphabetic := Char.isAlpha
  isNumeric := Char.isDigit
  ascii _ _ := ⟨rfl, rfl⟩
  notSpace _ := notSpace_of_isAlpha

section Texts

variable {u : Unicode} {p : Platform}

theorem spells_x : Lexer.Spells u Lexer.Ends ['x'] [Tok.ident "x"] :=
  .asciiName (by decide) (by decide) (by decide)

/-- Another function follows the brace. -/
def twoFunctions : String :=
  "x; \x7d fn g() -> f64 \x7b return y"

def twoFunctionsToks : List Tok :=
  .ident "x" :: .semi :: .rBrace :: (frontToks "g" ++ [Tok.ident "y"])

theorem spells_twoFunctions : Lexer.Spells u Lexer.Ends twoFunctions.toList twoFunctionsToks := by
  have htext : twoFunctions.toList = ['x'] ++ ';' :: ' ' :: '\x7d' :: ' ' ::
    (frontText ['g'] ++ ['y']) := by
    decide
  have hsemi : Lexer.Spells u Lexer.Any [';'] [Tok.semi] := .symbol (by decide) (by decide) rfl
  have hbrace : Lexer.Spells u Lexer.Any ['\x7d'] [Tok.rBrace] :=
    .symbol (by decide) (by decide) rfl
  have hg : Lexer.Spells u Lexer.Ends ['g'] [Tok.ident "g"] :=
    .asciiName (by decide) (by decide) (by decide)
  have hy : Lexer.Spells u Lexer.Ends ['y'] [Tok.ident "y"] :=
    .asciiName (by decide) (by decide) (by decide)
  rw [htext]
  exact spells_x.upTo (by decide) (hsemi.before
    (hbrace.before ((Lexer.spells_front hg).before hy).space).space)

end Texts

/-- The braces of a record are its own. -/
theorem record_is_whole : Whole .asciiOnly "\x7bx: (y)\x7d" (.record [("x", .var "y")]) := by
  have htext : "\x7bx: (y)\x7d".toList =
      ['\x7b'] ++ (['x'] ++ ':' :: ' ' :: '(' :: (['y'] ++ [')', '\x7d'])) := by decide
  have hspells : Lexer.Spells .asciiOnly Lexer.Ends "\x7bx: (y)\x7d".toList
      (exprToks (.record [("x", .var "y")])) := by
    have hopen : Lexer.Spells .asciiOnly Lexer.Any ['\x7b'] [Tok.lBrace] :=
      .symbol (by decide) (by decide) rfl
    have hcolon : Lexer.Spells .asciiOnly Lexer.Any [':'] [Tok.colon] :=
      .symbol (by decide) (by decide) rfl
    have hleft : Lexer.Spells .asciiOnly Lexer.Any ['('] [Tok.lParen] :=
      .symbol (by decide) (by decide) rfl
    have hright : Lexer.Spells .asciiOnly Lexer.Any [')'] [Tok.rParen] :=
      .symbol (by decide) (by decide) rfl
    have hclose : Lexer.Spells .asciiOnly Lexer.Any ['\x7d'] [Tok.rBrace] :=
      .symbol (by decide) (by decide) rfl
    have hy : Lexer.Spells .asciiOnly Lexer.Ends ['y'] [Tok.ident "y"] :=
      .asciiName (by decide) (by decide) (by decide)
    rw [htext]
    exact hopen.before (spells_x.upTo (by decide) (hcolon.before
      (hleft.before (hy.upTo (by decide) (hright.before hclose.weaken))).space))
  have hparse := @parseExpr_of_returns _ .plain _ _ 1 (by decide) hspells
    (Parser.returns_record (forall_mem_singleton.mpr
      (Parser.returns_var (by decide) (by decide) (by decide))))
  have hbraced : Braced (exprToks (.record [("x", .var "y")])) :=
    .wrap nofun (.cons nofun nofun (.cons nofun nofun (.cons nofun nofun
      (.cons nofun nofun (.cons nofun nofun .nil)))))
  exact (parseExpr_whole_iff hparse).mpr ⟨_, run_of_spells hspells, hbraced.keeps⟩

/-- The first function is read, and nothing of the second one. -/
theorem second_function_ignored :
    parseExpr .asciiOnly .plain 4 twoFunctions = .ok (.var "x") ∧
      ¬Whole .asciiOnly twoFunctions (.var "x") := by
  constructor
  · have hx := run_name (p := .plain) (v := "x") (by decide) (by decide) (by decide)
      (.rBrace :: (frontToks "g" ++ [Tok.ident "y", .semi, .rBrace]))
    have hy := run_name (p := .plain) (v := "y") (by decide) (by decide) (by decide) [Tok.rBrace]
    exact parseExpr_of_items (run_wrapped_of_spells spells_twoFunctions)
      (run_items (cons_ne_nil _ _) (Parser.run_item hx)
        (run_items (cons_ne_nil _ _) (Parser.run_item hy) rfl))
  · rintro ⟨toks, htoks, hwhole⟩
    cases (run_of_spells spells_twoFunctions).symm.trans htoks
    have hkeeps := keepsOpen_of_derives hwhole [Tok.ident "x", .semi, .rBrace] ⟨_, rfl⟩
    exact absurd hkeeps (by decide)

end Oikos.Eidos
