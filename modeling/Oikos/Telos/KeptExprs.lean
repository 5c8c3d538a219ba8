/-
The parser writes back the types, patterns and expressions that it reads, but for the sign
of a zero and for callees that it makes texts of.  Every link of a chain of calls, fields,
indices and question marks is behind what was read before it.
-/
import Oikos.Telos.Keeping

namespace Oikos.Telos.Parser

open List

/-! ### Types -/

@[simp] theorem natToken_val (n : Fin (2 ^ 63)) : natToken n.val = .int n :=
  congrArg Token.int (Fin.ext (Nat.mod_eq_of_lt n.isLt))

@[simp] theorem textTokens_name (v : Name) : textTokens v.text = [wordToken v] :=
  (Phrase.name v).textTokens.trans bare_wordToken

theorem writeTys_eq_flatMap (ts : List Ty) : writeTys ts = ts.flatMap writeTy := by
  induction ts with
  | nil => rfl
  | cons t ts ih => rw [writeTys, ih, flatMap_cons]

theorem quiet_int (n : Fin (2 ^ 63)) : Quiet [.int n] [.int n] [] :=
  .token ⟨nofun, nofun⟩ nofun

theorem keeps_typeAt {P : List Lexeme → Prop} {ty : Parse Ty} (fuel : Nat)
    (hty : Keeps Quiet Anywhere ty fun t _ w _ => w = writeTy t) :
    Keeps Quiet P (parseTypeAt ty fuel) fun t _ w _ => w = writeTy t := by
  have htys := keeps_commaList (P := Anywhere) (listwise_flatMap writeTy) hty fuel
  have hlt : Quiet (bare [.lt]) (bare [.lt]) [] := .token (by decide) (by decide)
  have hgt : Quiet (bare [.gt]) (bare [.gt]) [] := .token (by decide) (by decide)
  have hclose : Quiet (bare [.rSquare]) (bare [.rSquare]) [] := .token (by decide) (by decide)
  refine .peek fun l => ?_
  split
  · next htok =>
    have hresult : textTokens "Result" = [.kw .result] := textTokens_name ⟨"Result", by decide⟩
    refine .advance htok (.token (by decide) (by decide)) (.expect hlt ?_)
    refine .bind hty fun ok _ _ _ _ hok => .expect .nil ?_
    refine .bind hty fun err _ _ _ _ herr => .expect hgt (.pure ?_)
    simp [writeTy, writeTys, hresult, hok, herr]
  · next htok =>
    refine .advance htok .nil (.bind htys fun elems _ _ _ _ helems => .expect .nil ?_)
    split
    · exact .pure (by simp [helems])
    · exact .pure (by simp [writeTy, writeTys_eq_flatMap, helems])
  · next htok =>
    refine .advance htok (.token (by decide) (by decide)) ?_
    refine .bind hty fun elem _ _ _ _ helem => .peek fun next => ?_
    split
    · next hnext =>
      refine .advance hnext .nil (.peek fun len => ?_)
      split
      · next n hlen =>
        refine .advance hlen (quiet_int n) (.expect hclose (.pure ?_))
        simp [writeTy, helem]
      · exact .reject
    · exact .expect hclose (.pure (by simp [writeTy, helem]))
  · next i htok =>
    refine .advance htok (.token ⟨nofun, nofun⟩ nofun) (.peek fun next => ?_)
    split
    · next hnext =>
      refine .advance hnext hlt (.bind htys fun args _ _ _ _ hargs => .expect hgt (.pure ?_))
      simp [writeTy, writeTys_eq_flatMap, hargs]
    · exact .pure (by simp [writeTy])
  · exact .reject

theorem keeps_type {P : List Lexeme → Prop} (fuel : Nat) :
    Keeps Quiet P (parseType fuel) fun t _ w _ => w = writeTy t := by
  induction fuel generalizing P with
  | zero => exact .outOfFuel
  | succ fuel ih => exact keeps_typeAt fuel ih

/-! ### Patterns -/

theorem writePatterns_eq_flatMap (ps : List Pattern) :
    writePatterns ps = ps.flatMap writePattern := by
  induction ps with
  | nil => rfl
  | cons p ps ih => rw [writePatterns, ih, flatMap_cons]

theorem quiet_negative (n : Fin (2 ^ 63)) :
    Quiet [.minus, .int n] (writeInt (-n.val)) (if n.val == 0 then [.negativeZero] else []) := by
  have hminus : Quiet [.minus] [.minus] [] := .token (by decide) (by decide)
  have hvalue : natToken (-(n.val : Int)).natAbs = .int n := by
    rw [Int.natAbs_neg, Int.natAbs_natCast, natToken_val]
  by_cases hzero : n.val = 0
  · have hsign : Quiet [.minus] [] [.negativeZero] := by
      refine ⟨?_, hminus.noAssign, by decide⟩
      exact Kept.nil.leftOut (by decide) (by decide) (by decide) hminus.legal hminus.opens
    rw [writeInt, if_neg (by omega), hvalue, if_pos (beq_iff_eq.mpr hzero)]
    exact hsign.append (quiet_int n)
  · rw [writeInt, if_pos (by omega), hvalue, if_neg (by simp [hzero])]
    exact hminus.append (quiet_int n)

theorem keeps_patternAt {P : List Lexeme → Prop} {pattern : Parse Pattern} (fuel : Nat)
    (hpattern : Keeps Quiet Anywhere pattern fun p _ w _ => w = writePattern p) :
    Keeps Quiet P (parsePatternAt pattern fuel) fun p _ w _ => w = writePattern p := by
  refine .peek fun l => ?_
  cases htok : l.token with
  | int n =>
    refine .advance htok (quiet_int n) (.pure ?_)
    rw [writePattern, writeInt, if_neg (by omega), Int.natAbs_natCast, natToken_val]
    rfl
  | minus =>
    refine Takes.advance (Takes.peek fun next => ?_)
    cases hnext : next.token with
    | int n =>
      refine Takes.bind takes_noteIf fun _ _ ls hnoted => ?_
      refine Takes.bind takes_expect fun _ _ ls' hexpected => Takes.pure ?_
      obtain ⟨hnotes, hls⟩ := hnoted
      obtain ⟨hnotes', hls'⟩ := hexpected
      have hread : sourceTokens (l :: (ls ++ (ls' ++ []))) = [.minus, .int n] := by
        rw [sourceTokens_cons, sourceTokens_append, sourceTokens_append, htok, hls, hls']
        rfl
      refine ⟨writeInt (-n.val), ?_, by simp [writePattern]⟩
      rw [hread, hnotes, hnotes', append_nil, append_nil]
      exact quiet_negative n
    | _ => exact Takes.throw
  | ident i =>
    have hopens : Token.ident i ≠ .assign := by rintro ⟨⟩
    refine .advance htok (.token ⟨by rintro ⟨⟩, by rintro ⟨⟩⟩ hopens) (.peek fun next => ?_)
    split
    · next hnext =>
      have hfields :=
        keeps_closedList (P := Anywhere) (listwise_flatMap writePattern) hpattern fuel
      refine .advance hnext .nil (.bind hfields fun fields _ _ _ _ hwrite => .pure ?_)
      simp [writePattern, writePatterns_eq_flatMap, hwrite]
    · exact .pure (by simp [writePattern])
  | underScore =>
    exact .advance htok (.token (by decide) (by decide)) (.pure (by simp [writePattern]))
  | _ => exact .reject

theorem keeps_pattern {P : List Lexeme → Prop} (fuel : Nat) :
    Keeps Quiet P (parsePattern fuel) fun p _ w _ => w = writePattern p := by
  induction fuel generalizing P with
  | zero => exact .outOfFuel
  | succ fuel ih => exact keeps_patternAt fuel ih

def CalleeFits (s : List Token) : Expr → Prop
  | .methodCall receiver _ args => plain receiver = true →
      (writeExpr receiver).length + 2 ≤ s.length ∧
        (args ≠ [] → (writeExpr receiver).length + 2 < s.length)
  | _ => True

/-- What the tokens of an expression look like, apart from what is written. -/
structure Firm (e : Expr) (s : List Token) (notes : List Slip) : Prop where
  final : Final s
  sane : Sane e
  /-- Nothing is noted of an expression of which the text shows all. -/
  unnoted : plain e = true → notes = []
  callee : CalleeFits s e

structure ReadAs (e : Expr) (s : List Token) (notes : List Slip) : Prop extends Firm e s notes where
  quiet : Quiet s (writeExpr e) notes

/-- The arguments of a call. -/
structure ReadArgs (args : List Expr) (s : List Token) (notes : List Slip) : Prop where
  quiet : Quiet s (writeExprs args) notes
  final : s = [] ∧ args = [] ∨ Final s

theorem ReadArgs.ends {args : List Expr} {s : List Token} {notes : List Slip}
    (h : ReadArgs args s notes) : s = [] ∨ Final s :=
  h.final.imp_left And.left

namespace ReadAs

variable {e : Expr} {s s' : List Token} {notes notes' : List Slip}

theorem exact_of_plain (h : ReadAs e s notes) (hplain : plain e = true) : s = writeExpr e :=
  h.quiet.exact (h.unnoted hplain)

theorem field (h : ReadAs e s notes) (v : Name) :
    ReadAs (fieldOf v e) (s ++ [.dot, wordToken v]) notes := by
  have hlegal : Legal [.dot, wordToken v] :=
    isChain_pair.mpr (Or.inr opens_wordToken)
  have hquiet := h.quiet.behind h.final hlegal (by simp [wordToken_ne_assign.symm])
  have hwrite : writeExpr (fieldOf v e) = writeExpr e ++ [.dot, wordToken v] := by
    cases e <;> simp [fieldOf, writeExpr, writeExprs]
  have hfinal : Final (s ++ [.dot, wordToken v]) :=
    Final.append_right ⟨wordToken v, rfl, closes_wordToken⟩
  refine ⟨⟨hfinal, ?_, fun hplain => ?_, ?_⟩, hwrite ▸ hquiet⟩
  · cases e with
    | var => trivial
    | _ => exact h.sane
  · cases e with
    | var => exact h.unnoted rfl
    | _ => cases hplain
  · have hlength : plain e = true →
      (writeExpr e).length + 2 ≤ (s ++ [.dot, wordToken v]).length := by
      intro hplain
      rw [h.exact_of_plain hplain, length_append]
      exact le_refl _
    cases e with
    | var => trivial
    | _ => exact fun hplain => ⟨hlength hplain, fun hargs => absurd rfl hargs⟩

theorem tryOn (h : ReadAs e s notes) : ReadAs (.tryOn e) (s ++ [.question]) notes where
  final := Final.append_right (final_singleton (by decide))
  sane := h.sane
  unnoted hplain := h.unnoted hplain
  callee := trivial
  quiet := by
    rw [writeExpr]
    exact h.quiet.behind h.final (.singleton _) (by decide)

theorem index {i : Expr} (h : ReadAs e s notes) (hindex : ReadAs i s' notes') :
    ReadAs (.index e i) (s ++ .lSquare :: (s' ++ [.rSquare])) (notes ++ notes') where
  final := by
    have hclose : Final (.lSquare :: s' ++ [.rSquare]) := (final_singleton (by decide)).append_right
    exact hclose.append_right
  sane := h.sane
  unnoted := nofun
  callee := trivial
  quiet := by
    rw [writeExpr]
    exact h.quiet.append ((hindex.quiet.snoc (by decide) (by decide)).cons (by decide) (by decide))

theorem range {hi : Expr} (h : ReadAs e s notes) (hhi : ReadAs hi s' notes') :
    ReadAs (.range e hi) (s ++ .dotDot :: s') (notes ++ notes') where
  final := hhi.final.append_right (s := [.dotDot]) |>.append_right
  sane := trivial
  unnoted := nofun
  callee := trivial
  quiet := by
    rw [writeExpr]
    exact h.quiet.append (hhi.quiet.cons (by decide) (by decide))

theorem bin {op : BinOp} {rhs : Expr} (h : ReadAs e s notes) (hrhs : ReadAs rhs s' notes') :
    ReadAs (.bin op e rhs) (s ++ binOpToken op :: s') (notes ++ notes') where
  final := hrhs.final.append_right (s := [binOpToken op]) |>.append_right
  sane := trivial
  unnoted := nofun
  callee := trivial
  quiet := by
    have hopens : Opens (binOpToken op) := by cases op <;> decide
    have hassign : binOpToken op ≠ .assign := by cases op <;> decide
    rw [writeExpr]
    exact h.quiet.append (hrhs.quiet.cons hopens hassign)

/-! ### Calls -/

section Calls

variable {args : List Expr} {v : Name}

theorem callVar (h : ReadAs (.var v) s notes) (hargs : ReadArgs args s' notes') :
    ReadAs (.call v.text args) (s ++ s') (notes ++ notes') where
  final := h.final.append hargs.ends
  sane := named_name v
  unnoted := nofun
  callee := trivial
  quiet := by
    rw [writeExpr, textTokens_name]
    exact h.quiet.append hargs.quiet

theorem callField {base : Name} (h : ReadAs (.field base v) s notes)
    (hargs : ReadArgs args s' notes') :
    ReadAs (.methodCall (.var base) v args) (s ++ s') (notes ++ notes') where
  final := h.final.append hargs.ends
  sane := trivial
  unnoted := nofun
  callee _ := by
    have hlength : s.length = 3 := by
      rw [h.exact_of_plain rfl]
      rfl
    have hwrite : (writeExpr (.var base)).length = 1 := rfl
    rw [hwrite, length_append, hlength]
    refine ⟨by omega, fun hne => ?_⟩
    have hpos : 0 < s'.length := by
      refine length_pos_of_ne_nil ?_
      exact hargs.final.elim (fun hnil => absurd hnil.2 hne) Final.ne_nil
    omega
  quiet := by
    rw [writeExpr]
    exact h.quiet.append hargs.quiet

/-- What is noted when the call of a method is called. -/
def calleeNotes (receiver : Expr) (inner : List Expr) : List Slip :=
  if plain receiver then if inner.isEmpty then [] else [.droppedArguments] else [.garbledCallee]

theorem quiet_callee {receiver : Expr} {inner : List Expr}
    (h : ReadAs (.methodCall receiver v inner) s notes) :
    Quiet s (textTokens (calleeText receiver v)) (notes ++ calleeNotes receiver inner) := by
  have hsane : Sane receiver := h.sane
  have hassign := (hsane.named_callee v).noAssign
  rw [calleeNotes]
  split
  · next hplain =>
    have hcallee := h.callee hplain
    have htext := hsane.textTokens_callee v hplain
    split
    · next hempty =>
      obtain rfl := List.isEmpty_iff.mp hempty
      have hquiet := h.quiet
      rw [writeExpr, writeExprs] at hquiet
      rwa [append_nil, htext]
    · next hne =>
      refine h.quiet.instead (by decide) hassign fun _ => ?_
      rw [htext, length_append]
      exact hcallee.2 fun hnil => hne (List.isEmpty_iff.mpr hnil)
  · next hplain =>
    refine h.quiet.instead (by decide) hassign fun hlegal => ?_
    exact absurd hlegal (hsane.callee_not_legal v (Bool.eq_false_iff.mpr hplain))

theorem callMethod {receiver : Expr} {inner : List Expr}
    (h : ReadAs (.methodCall receiver v inner) s notes) (hargs : ReadArgs args s' notes') :
    ReadAs (.call (calleeText receiver v) args) (s ++ s')
      (notes ++ calleeNotes receiver inner ++ notes') where
  final := h.final.append hargs.ends
  sane := @Sane.named_callee receiver v h.sane
  unnoted := nofun
  callee := trivial
  quiet := by
    rw [writeExpr]
    exact h.quiet_callee.append hargs.quiet

end Calls

end ReadAs

/-- A parser of expressions that writes back what it reads. -/
def KeepsExpr (p : Parse Expr) : Prop :=
  ∀ P, Keeps Quiet P p fun e s w notes => w = writeExpr e ∧ Firm e s notes

/-- What the rest of an expression makes of its beginning. -/
def Goes (lhs e : Expr) (s : List Token) (notes : List Slip) : Prop :=
  ∀ ⦃s₀ notes₀⦄, ReadAs lhs s₀ notes₀ → ReadAs e (s₀ ++ s) (notes₀ ++ notes)

theorem goes_nil {e : Expr} : Goes e e [] [] := by
  intro s₀ notes₀ h
  rwa [append_nil, append_nil]

theorem Goes.trans {e₁ e₂ e₃ : Expr} {s s' : List Token} {notes notes' : List Slip}
    (h : Goes e₁ e₂ s notes) (h' : Goes e₂ e₃ s' notes') :
    Goes e₁ e₃ (s ++ s') (notes ++ notes') := by
  intro s₀ notes₀ h₀
  rw [← append_assoc, ← append_assoc]
  exact h' (h h₀)

section Views

variable {P : List Lexeme → Prop} {p : Parse Expr}

theorem KeepsExpr.readAs (hp : KeepsExpr p) :
    Keeps Unrelated P p fun e s _ notes => ReadAs e s notes :=
  (hp P).unrelated.mono fun _ _ _ _ _ ⟨hquiet, hwrite, hfirm⟩ => ⟨hfirm, hwrite ▸ hquiet⟩

theorem keepsExpr_of_readAs (hp : ∀ P, Keeps Unrelated P p fun e s _ notes => ReadAs e s notes) :
    KeepsExpr p := fun P =>
  .related ((hp P).mono fun e _ _ _ _ h => ⟨writeExpr e, h.quiet, rfl, h.toFirm⟩)

end Views

/-! ### Operators -/

section Operators

variable {P : List Lexeme → Prop} {opOf : Token → Option BinOp} {operand : Parse Expr}

theorem goes_bin {op : BinOp} {lhs rhs : Expr} {s : List Token} {notes : List Slip}
    (h : ReadAs rhs s notes) : Goes lhs (.bin op lhs rhs) (binOpToken op :: s) notes :=
  fun _ _ h₀ => h₀.bin h

theorem keeps_binLoop (hop : ∀ t op, opOf t = some op → bare [t] = [binOpToken op])
    (hoperand : KeepsExpr operand) (fuel : Nat) (lhs : Expr) :
    Keeps Unrelated P (binLoop opOf operand fuel lhs) fun e s _ notes => Goes lhs e s notes := by
  induction fuel generalizing P lhs with
  | zero => exact .outOfFuel
  | succ fuel ih =>
    refine .peek fun l => ?_
    split
    · next op hl =>
      refine .advance rfl trivial (.bind hoperand.readAs fun rhs s _ notes _ hrhs => ?_)
      refine (ih (.bin op lhs rhs)).mono fun e s' _ notes' _ hgoes => ?_
      rw [hop _ _ hl, ← append_assoc]
      exact (goes_bin hrhs).trans hgoes
    · exact .pure goes_nil

theorem keeps_binChain (hop : ∀ t op, opOf t = some op → bare [t] = [binOpToken op])
    (hoperand : KeepsExpr operand) (fuel : Nat) : KeepsExpr (binChain opOf operand fuel) :=
  keepsExpr_of_readAs fun _ => .bind hoperand.readAs fun lhs _ _ _ _ hlhs =>
    (keeps_binLoop hop hoperand fuel lhs).mono fun _ _ _ _ _ hgoes => hgoes hlhs

end Operators

/-! ### Primary expressions -/

section Nested

variable {expr : Parse Expr} (hexpr : KeepsExpr expr) (fuel : Nat)
include hexpr

theorem keeps_parenthesized {P : List Lexeme → Prop} :
    Keeps Quiet P (parenthesized expr) fun e s w notes => w = writeExpr e ∧ Firm e s notes := by
  refine .expect .nil (.bind (hexpr Anywhere) fun e s w notes _ ⟨hwrite, hfirm⟩ => ?_)
  refine .expect .nil (.pure ?_)
  simpa using ⟨hwrite, hfirm⟩

theorem keeps_braced {P : List Lexeme → Prop} :
    Keeps Quiet P (braced expr) fun e s w _ =>
      w = .lBrace :: (writeExpr e ++ [.rBrace]) ∧ Final s := by
  refine .expect (.token (by decide) (by decide)) ?_
  refine .bind (hexpr Anywhere) fun e s w notes _ ⟨hwrite, _⟩ => ?_
  refine .expect (.token (by decide) (by decide)) (.pure ⟨by simp [hwrite], ?_⟩)
  have hclose : Final (bare [.rBrace] ++ []) := final_singleton (by decide)
  exact hclose.append_right.append_right

theorem keeps_args {P : List Lexeme → Prop} :
    Keeps Unrelated P (closedList expr fuel) fun args s _ notes => ReadArgs args s notes := by
  have hlist : Listwise (fun e s w notes => w = writeExpr e ∧ Firm e s notes)
      fun args s w _ => w = writeExprs args ∧ (s = [] ∧ args = [] ∨ Final s) := by
    refine ⟨⟨rfl, Or.inl ⟨rfl, rfl⟩⟩, fun ⟨hwrite, hfirm⟩ ⟨hwrites, hfinal⟩ => ?_⟩
    exact ⟨by rw [writeExprs, hwrite, hwrites],
      Or.inr (hfirm.final.append (hfinal.imp_left And.left))⟩
  exact (keeps_closedList hlist (hexpr Anywhere) fuel).unrelated.mono
    fun _ _ _ _ _ ⟨hquiet, hwrite, hfinal⟩ => ⟨hwrite ▸ hquiet, hfinal⟩

theorem keeps_ifExpr {P : List Lexeme → Prop} :
    Keeps Quiet P (parseIfExpr expr) fun e s w notes => w = writeExpr e ∧ Firm e s notes := by
  refine .expect (.token (by decide) (by decide)) ?_
  refine .bind (hexpr Anywhere) fun condition _ _ _ _ hcondition => ?_
  refine .bind (keeps_braced hexpr) fun thenExpr _ _ _ _ hthen => ?_
  refine .expect (.token (by decide) (by decide)) ?_
  refine .map (keeps_braced hexpr) fun elseExpr s _ _ _ helse => ⟨?_, ?_⟩
  · simp [writeExpr, hcondition.1, hthen.1, helse.1]
  · exact ⟨helse.2.append_right.append_right.append_right.append_right,
      trivial, by rintro ⟨⟩, trivial⟩

theorem keeps_exprArm {P : List Lexeme → Prop} :
    Keeps Quiet P (parseExprArm expr fuel) fun arm _ w _ =>
      w = writePattern arm.1 ++ .fatArrow :: writeExpr arm.2 := by
  refine .bind (keeps_pattern fuel) fun pattern _ _ _ _ hpattern => ?_
  refine .expect (.token (by decide) (by decide)) ?_
  refine .bind (hexpr Anywhere) fun e _ _ _ _ ⟨hwrite, _⟩ => .skip rfl (.pure ?_)
  simp [hpattern, hwrite]

theorem keeps_matchExpr {P : List Lexeme → Prop} :
    Keeps Quiet P (parseMatchExpr expr fuel) fun e s w notes =>
      w = writeExpr e ∧ Firm e s notes := by
  have harms : Listwise (fun arm _ w _ => w = writePattern arm.1 ++ .fatArrow :: writeExpr arm.2)
      fun arms _ w _ => w = writeExprArms arms :=
    ⟨rfl, fun harm harms => by simp [writeExprArms, harm, harms]⟩
  have hclose : Final (bare [.rBrace] ++ []) := final_singleton (by decide)
  refine .expect (.token (by decide) (by decide)) ?_
  refine .bind (hexpr Anywhere) fun scrutinee _ _ _ _ hscrutinee => ?_
  refine .expect (.token (by decide) (by decide)) ?_
  refine .bind (keeps_untilToken harms (keeps_exprArm hexpr fuel) fuel)
    fun arms _ _ _ _ hwrite => ?_
  refine .expect (.token (by decide) (by decide)) (.pure ⟨?_, ?_⟩)
  · simp [writeExpr, hscrutinee.1, hwrite]
  · exact ⟨hclose.append_right.append_right.append_right.append_right,
      trivial, by rintro ⟨⟩, trivial⟩

theorem keeps_forallExpr {P : List Lexeme → Prop} :
    Keeps Quiet P (parseForallExpr expr fuel) fun e s w notes =>
      w = writeExpr e ∧ Firm e s notes := by
  refine .expect (.token (by decide) (by decide)) (.ident fun v => ?_)
  refine .expect (.token (by decide) (by decide)) ?_
  refine .bind (keeps_type fuel) fun varTy _ _ _ _ hty => .peek fun l => ?_
  split
  · next htok =>
    refine .advance htok (.token (by decide) (by decide)) ?_
    refine .bind (hexpr Anywhere) fun domain _ _ _ _ hdomain => ?_
    refine .map (keeps_braced hexpr) fun body s _ _ _ hbody => ⟨?_, ?_⟩
    · simp [writeExpr, hty, hdomain.1, hbody.1]
    · exact ⟨hbody.2.append_right.append_right.append_right.append_right.append_right.append_right,
        trivial, by rintro ⟨⟩, trivial⟩
  · refine .map (keeps_braced hexpr).anywhere fun body s _ _ _ hbody => ⟨?_, ?_⟩
    · simp [writeExpr, hty, hbody.1]
    · exact ⟨hbody.2.append_right.append_right.append_right.append_right,
        trivial, by rintro ⟨⟩, trivial⟩

omit hexpr in
theorem readAs_var (v : Name) : ReadAs (.var v) [wordToken v] [] where
  final := final_singleton closes_wordToken
  sane := trivial
  unnoted _ := rfl
  callee := trivial
  quiet := .token opens_wordToken wordToken_ne_assign

omit hexpr in
theorem opName_of_aggregateOp {text : String} {op : AggregateOp} (h : aggregateOp text = some op) :
    op.opName = text := by
  unfold aggregateOp at h
  split at h <;> cases h <;> rfl

theorem keeps_identRest {P : List Lexeme → Prop} (v : Name) :
    Keeps Unrelated P (parseIdentRest expr fuel v) fun e s _ notes =>
      ReadAs e ([wordToken v] ++ s) notes := by
  refine .peek fun l => ?_
  split
  · next op hop =>
    have hname : op.opName = v.text := by
      split at hop
      · exact opName_of_aggregateOp hop
      · cases hop
    refine .expect trivial (.map (keeps_args hexpr fuel) fun args s _ notes _ hargs => ?_)
    have hvar := readAs_var v
    refine ⟨⟨hvar.final.append hargs.ends, trivial, nofun, trivial⟩, ?_⟩
    rw [writeExpr, hname, textTokens_name]
    exact hvar.quiet.append hargs.quiet
  · split
    · next htok =>
      refine .advance htok trivial (.silent takes_expectIdent (fun _ => trivial) fun field => ?_)
      exact .pure ((readAs_var v).field field)
    · exact .pure (readAs_var v)

theorem keeps_wrapped {l : Lexeme} {tok : Token} {f : Expr → Expr}
    (htok : l.token = tok) (hsep : tok.isSeparator = false) (hopens : Opens tok)
    (hassign : tok ≠ .assign) (hwrite : ∀ e, writeExpr (f e) = tok :: writeExpr e)
    (hsane : ∀ e, Sane e → Sane (f e)) (hplain : ∀ e, plain (f e) = true → plain e = true)
    (hcallee : ∀ e s, CalleeFits s (f e)) :
    Keeps Quiet (NextIs l) (do
      let _ ← advance
      let e ← parenthesized expr
      pure (f e)) fun e s w notes => w = writeExpr e ∧ Firm e s notes := by
  have hbare : bare [tok] = [tok] := bare_cons_of_keep hsep
  refine .advance htok (hbare.symm ▸ .token hopens hassign) ?_
  refine .map (keeps_parenthesized hexpr) fun e s w notes _ ⟨he, hfirm⟩ => ⟨?_, ?_⟩
  · rw [hbare, hwrite, he]
    rfl
  · exact ⟨hfirm.final.append_right, hsane e hfirm.sane, fun h => hfirm.unnoted (hplain e h),
      hcallee e _⟩

theorem keeps_primary : KeepsExpr (parsePrimary expr fuel) := by
  refine fun P => .peek fun l => ?_
  cases htok : l.token with
  | int n =>
    refine .advance htok (quiet_int n) (.pure ⟨?_, ?_⟩)
    · rw [writeExpr, writeInt, if_neg (by omega), Int.natAbs_natCast, natToken_val]
      rfl
    · have hsane : 0 ≤ (n.val : Int) ∧ (n.val : Int) < 2 ^ 63 := by
        have := n.isLt
        omega
      exact ⟨final_singleton ⟨by rintro ⟨⟩, by rintro ⟨⟩⟩, hsane, fun _ => rfl, trivial⟩
  | lParen => exact (keeps_parenthesized hexpr).anywhere
  | ident i =>
    refine .related (.advance htok trivial ?_)
    refine (keeps_identRest hexpr fuel i.name).mono fun e s _ notes _ h => ?_
    have hbare : bare [.ident i] = [wordToken i.name] := by rw [wordToken_ident]; rfl
    rw [hbare]
    exact ⟨writeExpr e, h.quiet, rfl, h.toFirm⟩
  | kw k =>
    cases k with
    | old =>
      exact keeps_wrapped hexpr htok rfl (by decide) (by decide) (fun _ => by rw [writeExpr])
        (fun _ => id) (fun _ => id) fun _ _ => trivial
    | ifKw => exact (keeps_ifExpr hexpr).anywhere
    | matchKw => exact (keeps_matchExpr hexpr fuel).anywhere
    | forall_ => exact (keeps_forallExpr hexpr fuel).anywhere
    | result =>
      have hvar := readAs_var ⟨"Result", by decide⟩
      exact .advance htok (.token (by decide) (by decide)) (.pure ⟨rfl, hvar.toFirm⟩)
    | ok =>
      have htext : textTokens "Ok" = [.kw .ok] := textTokens_name ⟨"Ok", by decide⟩
      exact keeps_wrapped hexpr htok rfl (by decide) (by decide)
        (fun _ => by simp [writeExpr, writeExprs, htext])
        (fun _ _ => named_name ⟨"Ok", by decide⟩) (by rintro _ ⟨⟩) fun _ _ => trivial
    | err =>
      have htext : textTokens "Err" = [.kw .err] := textTokens_name ⟨"Err", by decide⟩
      exact keeps_wrapped hexpr htok rfl (by decide) (by decide)
        (fun _ => by simp [writeExpr, writeExprs, htext])
        (fun _ _ => named_name ⟨"Err", by decide⟩) (by rintro _ ⟨⟩) fun _ _ => trivial
    | _ => exact .reject
  | _ => exact .reject

/-! ### Chains -/

def callNotes : Expr → List Slip
  | .methodCall receiver _ inner => ReadAs.calleeNotes receiver inner
  | _ => []

omit hexpr in
theorem keeps_noteCall {β : Type} {P : List Lexeme → Prop} {f : Unit → Parse β} {e : Expr}
    {K : β → List Token → List Token → List Slip → Prop}
    (hf : Keeps Unrelated Anywhere (f ()) fun b s w notes => K b s w (callNotes e ++ notes)) :
    Keeps Unrelated P (noteCall e >>= f) K := by
  have hpure : callNotes e = [] → noteCall e = pure () →
    Keeps Unrelated P (noteCall e >>= f) K := by
    intro hnone hskip
    rw [hnone] at hf
    rw [hskip]
    exact hf.anywhere
  cases e with
  | methodCall receiver method inner =>
    by_cases hplain : plain receiver = true
    · have hcall : noteCall (.methodCall receiver method inner) =
          Parser.noteIf (!inner.isEmpty) .droppedArguments := if_pos hplain
      have hnotes : callNotes (.methodCall receiver method inner) =
          if !inner.isEmpty then [.droppedArguments] else [] := by
        rw [callNotes, ReadAs.calleeNotes, if_pos hplain]
        cases inner <;> rfl
      rw [hnotes] at hf
      rw [hcall]
      exact .noteIf hf
    · have hcall : noteCall (.methodCall receiver method inner) =
          Parser.noteIf true .garbledCallee := if_neg hplain
      have hnotes : callNotes (.methodCall receiver method inner) = [.garbledCallee] := by
        rw [callNotes, ReadAs.calleeNotes, if_neg hplain]
      rw [hnotes] at hf
      rw [hcall]
      exact .noteIf hf
  | _ => exact hpure rfl rfl

omit hexpr in
theorem goes_call {args : List Expr} {e call : Expr} {s : List Token} {notes : List Slip}
    (h : callOf args e = some call) (hargs : ReadArgs args s notes) :
    Goes e call s (callNotes e ++ notes) := by
  intro s₀ notes₀ h₀
  cases e with
  | var v =>
    cases h
    exact h₀.callVar hargs
  | field base v =>
    cases h
    exact h₀.callField hargs
  | methodCall receiver v inner =>
    cases h
    rw [← append_assoc]
    exact h₀.callMethod hargs
  | _ => cases h

theorem keeps_postfixLoop {P : List Lexeme → Prop} (e : Expr) :
    Keeps Unrelated P (postfixLoop expr fuel e) fun e' s _ notes => Goes e e' s notes := by
  induction fuel generalizing P e with
  | zero => exact .outOfFuel
  | succ fuel ih =>
    refine .peek fun l => ?_
    split
    · refine keeps_noteCall (.expect trivial (.bind (keeps_args hexpr fuel) ?_))
      intro args s w notes _ hargs
      split
      · next call hcall =>
        refine (ih call).mono fun e' s' _ notes' _ hgoes => ?_
        have := (goes_call hcall hargs).trans hgoes
        rwa [append_assoc] at this
      · exact .reject
    · next htok =>
      refine .advance htok trivial (.silent takes_expectIdent (fun _ => trivial) fun v => ?_)
      refine (ih _).mono fun e' s' _ notes' _ hgoes => ?_
      have hstep : Goes e (fieldOf v e) [.dot, wordToken v] [] := fun s₀ notes₀ h₀ => by
        rw [append_nil]
        exact h₀.field v
      exact hstep.trans hgoes
    · next htok =>
      refine .advance htok trivial (.bind hexpr.readAs fun i s w notes _ hindex => ?_)
      refine .expect trivial ((ih _).mono fun e' s' _ notes' _ hgoes => ?_)
      have hstep : Goes e (.index e i) (.lSquare :: (s ++ [.rSquare])) notes :=
        fun _ _ h₀ => h₀.index hindex
      simpa using hstep.trans hgoes
    · next htok =>
      refine .advance htok trivial ((ih _).mono fun e' s' _ notes' _ hgoes => ?_)
      have hstep : Goes e (.tryOn e) [.question] [] := fun s₀ notes₀ h₀ => by
        rw [append_nil]
        exact h₀.tryOn
      exact hstep.trans hgoes
    · next htok =>
      refine .advance htok trivial (.bind hexpr.readAs fun hi s w notes _ hhi => ?_)
      refine (ih _).mono fun e' s' _ notes' _ hgoes => ?_
      have hstep : Goes e (.range e hi) (.dotDot :: s) notes := fun _ _ h₀ => h₀.range hhi
      exact hstep.trans hgoes
    · exact .pure goes_nil

theorem keeps_postfix : KeepsExpr (parsePostfix expr fuel) :=
  keepsExpr_of_readAs fun _ => .bind (keeps_primary hexpr fuel).readAs fun e _ _ _ _ h =>
    (keeps_postfixLoop hexpr fuel e).mono fun _ _ _ _ _ hgoes => hgoes h

/-! ### Precedence -/

theorem keeps_unary (n : Nat) : KeepsExpr (parseUnary expr fuel n) := by
  induction n with
  | zero => exact fun _ => .outOfFuel
  | succ n ih =>
    refine fun P => .peek fun l => ?_
    split
    · next htok =>
      refine .advance htok (.token (by decide) (by decide)) ?_
      refine .map (ih Anywhere) fun e s w notes _ hread => ⟨?_, ?_⟩
      · rw [hread.1, writeExpr]
        rfl
      · exact ⟨hread.2.final.append_right, trivial, by rintro ⟨⟩, trivial⟩
    · exact keeps_postfix hexpr fuel _

theorem keeps_mul : KeepsExpr (parseMul expr fuel) :=
  keeps_binChain (fun t op h => by unfold mulOp at h; split at h <;> cases h <;> rfl)
    (keeps_unary hexpr fuel fuel) fuel

theorem keeps_add : KeepsExpr (parseAdd expr fuel) :=
  keeps_binChain (fun t op h => by unfold addOp at h; split at h <;> cases h <;> rfl)
    (keeps_mul hexpr fuel) fuel

theorem keeps_cmp : KeepsExpr (parseCmp expr fuel) := by
  have hop : ∀ t op, cmpOp t = some op → bare [t] = [binOpToken op] := by
    intro t op h
    unfold cmpOp at h
    split at h <;> cases h <;> rfl
  refine keepsExpr_of_readAs fun P => .bind (keeps_add hexpr fuel).readAs
    fun lhs s _ notes _ hlhs => ?_
  refine .peek fun l => ?_
  split
  · next op hl =>
    refine .advance rfl trivial (.map (keeps_add hexpr fuel).readAs fun rhs _ _ _ _ hrhs => ?_)
    rw [hop _ _ hl]
    exact hlhs.bin hrhs
  · exact .pure (goes_nil hlhs)

theorem keeps_and : KeepsExpr (parseAnd expr fuel) :=
  keeps_binChain (fun t op h => by unfold andOp at h; split at h <;> cases h; rfl)
    (keeps_cmp hexpr fuel) fuel

theorem keeps_or : KeepsExpr (parseOr expr fuel) :=
  keeps_binChain (fun t op h => by unfold orOp at h; split at h <;> cases h; rfl)
    (keeps_and hexpr fuel) fuel

end Nested

theorem keeps_expr (fuel : Nat) : KeepsExpr (parseExpr fuel) := by
  induction fuel with
  | zero => exact fun _ => .outOfFuel
  | succ fuel ih => exact keeps_or ih fuel

end Oikos.Telos.Parser
