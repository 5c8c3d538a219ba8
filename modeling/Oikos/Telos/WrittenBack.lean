/-
The parser writes back the statements, items and modules that it reads, but for what was
noted: expressions that it makes assignments of, and the braces of an arm.  The clauses of a
function are put in the order in which they stand in the source.
-/
import Oikos.Telos.KeptExprs

namespace Oikos.Telos.Parser

open List

section Statements

variable {P : List Lexeme → Prop} (fuel : Nat)

theorem kept_expr : Keeps Kept P (parseExpr fuel) fun e _ w _ => w = writeExpr e :=
  (keeps_expr fuel P).kept.mono fun _ _ _ _ _ h => h.1

theorem kept_type : Keeps Kept P (parseType fuel) fun t _ w _ => w = writeTy t :=
  (keeps_type fuel).kept

theorem bare_of_assignOp {t : Token} {op : AssignOp} (h : assignOp t = some op) :
    bare [t] = [assignOpToken op] := by
  unfold assignOp at h
  split at h <;> cases h <;> rfl

theorem kept_assignOp (op : AssignOp) : Kept [assignOpToken op] [assignOpToken op] [] :=
  .token (by cases op <;> decide)

theorem keeps_assign :
    Keeps Kept P (parseAssign fuel) fun a _ w _ => w = writeAssign a := by
  refine .bind (kept_expr fuel) fun target _ _ _ _ htarget => .peek fun l => ?_
  split
  · next op hop =>
    refine .advance rfl (bare_of_assignOp hop ▸ kept_assignOp op) ?_
    refine .bind (kept_expr fuel) fun value _ _ _ _ hvalue => .skip rfl (.pure ?_)
    simp [writeAssign, bare_of_assignOp hop, htarget, hvalue]
  · exact .reject

theorem keeps_exprStmt :
    Keeps Kept P (parseExprStmt fuel) fun s _ w _ => w = writeStmt s := by
  refine .bind (kept_expr fuel) fun e _ _ _ _ he => .peek fun l => ?_
  split
  · next op hop =>
    refine .advance rfl (bare_of_assignOp hop ▸ kept_assignOp op) ?_
    refine .bind (kept_expr fuel) fun value _ _ _ _ hvalue => .skip rfl (.pure ?_)
    simp [writeStmt, writeAssign, bare_of_assignOp hop, he, hvalue]
  · have hzero : Kept [] (.assign :: writeInt 0) [.expressionStatement] :=
      ⟨nofun, by decide, fun h => absurd (mem_singleton.mpr rfl) h, .nil, nofun⟩
    refine .note hzero (.skip rfl (.pure ?_))
    simp [writeStmt, writeAssign, writeExpr, assignOpToken, he]

theorem keeps_let : Keeps Kept P (parseLet fuel) fun s _ w _ => w = writeStmt s := by
  refine .expect (.token (by decide)) (.ident fun v => .peek fun l => ?_)
  split
  · next htok =>
    refine .advance htok (.token (by decide)) (.bind (kept_type fuel) fun ty _ _ _ _ hty => ?_)
    refine .expect (.token (by decide)) (.bind (kept_expr fuel) fun value _ _ _ _ hvalue => ?_)
    exact .skip rfl (.pure (by simp [writeStmt, hty, hvalue]))
  · refine .expect (.token (by decide)) (.bind (kept_expr fuel) fun value _ _ _ _ hvalue => ?_)
    exact .skip rfl (.pure (by simp [writeStmt, hvalue]))

theorem keeps_return : Keeps Kept P (parseReturn fuel) fun s _ w _ => w = writeStmt s := by
  refine .expect (.token (by decide)) (.peek fun l => ?_)
  split
  · refine .bind (kept_expr fuel) fun e _ _ _ _ he => .skip rfl (.pure ?_)
    simp [writeStmt, he]
  · exact .skip rfl (.pure (by simp [writeStmt]))

theorem keeps_mutate : Keeps Kept P (parseMutate fuel) fun s _ w _ => w = writeStmt s := by
  refine .expect (.token (by decide)) (.expect (.token (by decide)) ?_)
  refine .expect (.token (by decide)) ?_
  refine .bind (keeps_untilToken (listwise_flatMap writeAssign) (keeps_assign fuel) fuel) ?_
  intro assigns _ _ _ _ hassigns
  exact .expect (.token (by decide)) (.pure (by simp [writeStmt, hassigns]))

end Statements

/-! ### Blocks -/

theorem writeStmts_eq_flatMap (ss : List Stmt) : writeStmts ss = ss.flatMap writeStmt := by
  induction ss with
  | nil => rfl
  | cons s ss ih => rw [writeStmts, ih, flatMap_cons]

theorem kept_armBody {s w : List Token} {notes : List Slip} (h : Kept s w notes) (count : Nat) :
    Kept (.lBrace :: (s ++ [.rBrace])) (armBody count w)
      (notes ++ if count == 1 then [.armBraces] else []) := by
  have hbraces := (h.snoc (t := .rBrace) (by decide)).cons (t := .lBrace) (by decide)
  by_cases hone : count = 1
  · rw [armBody, if_pos hone, if_pos (beq_iff_eq.mpr hone)]
    have hlength : s.length < (.lBrace :: (s ++ [.rBrace]) : List Token).length := by
      rw [length_cons, length_append]
      omega
    exact h.leftOut (by decide) hlength (by simp [count_append]) hbraces.legal hbraces.opens
  · rw [armBody, if_neg hone, if_neg (by simp [hone]), append_nil]
    exact hbraces

section Nested

variable {P : List Lexeme → Prop} {stmt : Parse Stmt} (fuel : Nat)
  (hstmt : Keeps Kept Anywhere stmt fun s _ w _ => w = writeStmt s)
include hstmt

theorem keeps_stmts {stop : Token} :
    Keeps Kept P (untilToken stop stmt fuel) fun ss _ w _ => w = writeStmts ss :=
  (keeps_untilToken (listwise_flatMap writeStmt) hstmt fuel).mono fun _ _ _ _ _ h => by
    rw [h, writeStmts_eq_flatMap]

theorem keeps_blockRest :
    Keeps Kept P (blockRest stmt fuel) fun ss _ w _ => w = writeStmts ss ++ [.rBrace] := by
  refine .bind (keeps_stmts fuel hstmt) fun ss _ _ _ _ hwrite => ?_
  exact .expect (.token (by decide)) (.pure (by simp [hwrite]))

theorem keeps_ifStmt : Keeps Kept P (parseIfStmt stmt fuel) fun s _ w _ => w = writeStmt s := by
  refine .expect (.token (by decide)) ?_
  refine .bind (kept_expr fuel) fun condition _ _ _ _ hcondition => .expect (.token (by decide)) ?_
  refine .bind (keeps_blockRest fuel hstmt) fun thenBody _ _ _ _ hthen => .peek fun l => ?_
  split
  · next htok =>
    refine .advance htok (.token (by decide)) (.expect (.token (by decide)) ?_)
    refine .map (keeps_blockRest fuel hstmt) fun elseBody _ _ _ _ helse => ?_
    simp [writeStmt, hcondition, hthen, helse]
  · exact .pure (by simp [writeStmt, hcondition, hthen])

theorem keeps_armBlock {l : Lexeme} (htok : l.token = .lBrace) (pattern : Pattern) :
    Keeps Kept (NextIs l) (do
      let _ ← advance
      let body ← blockRest stmt fuel
      noteIf (body.length == 1) .armBraces
      pure (pattern, body)) fun arm _ w _ =>
        arm.1 = pattern ∧ w = armBody arm.2.length (writeStmts arm.2) := by
  have hblock : Keeps Unrelated Anywhere (blockRest stmt fuel) fun ss s _ notes =>
      ∃ s₀, s = s₀ ++ [.rBrace] ∧ Kept s₀ (writeStmts ss) notes := by
    refine .bind (keeps_stmts fuel hstmt).unrelated fun ss s w notes _ ⟨hkept, hwrite⟩ => ?_
    refine .expect trivial (.pure ⟨s, by simp, ?_⟩)
    rw [← hwrite]
    simpa using hkept
  refine .related (.advance htok trivial (.bind hblock ?_))
  intro body s _ notes _ ⟨s₀, hs, hkept⟩
  refine .noteIf (.pure ⟨_, ?_, rfl, rfl⟩)
  simpa [hs] using kept_armBody hkept body.length

theorem keeps_stmtArm : Keeps Kept P (parseStmtArm stmt fuel) fun arm _ w _ =>
    w = writePattern arm.1 ++ .fatArrow :: armBody arm.2.length (writeStmts arm.2) := by
  refine .bind (keeps_pattern fuel).kept fun pattern _ _ _ _ hpattern => ?_
  refine .expect (.token (by decide)) (.peek fun l => ?_)
  split
  · next htok =>
    refine (keeps_armBlock fuel hstmt htok pattern).mono fun arm _ _ _ _ ⟨hfst, hwrite⟩ => ?_
    simp [hfst, hwrite, hpattern]
  · refine .map hstmt.anywhere fun s _ _ _ _ hwrite => ?_
    simp [armBody, writeStmts, hpattern, hwrite]

theorem keeps_matchStmt :
    Keeps Kept P (parseMatchStmt stmt fuel) fun s _ w _ => w = writeStmt s := by
  have harms : Listwise (fun arm _ w _ => w = writePattern arm.1 ++
      .fatArrow :: armBody arm.2.length (writeStmts arm.2)) fun arms _ w _ => w =
      writeStmtArms arms :=
    ⟨rfl, fun harm harms => by simp [writeStmtArms, harm, harms]⟩
  refine .expect (.token (by decide)) ?_
  refine .bind (kept_expr fuel) fun scrutinee _ _ _ _ hscrutinee => .expect (.token (by decide)) ?_
  refine .bind (keeps_untilToken harms (keeps_stmtArm fuel hstmt) fuel)
    fun arms _ _ _ _ hwrite => ?_
  exact .expect (.token (by decide)) (.pure (by simp [writeStmt, hscrutinee, hwrite]))

theorem keeps_stmtAt : Keeps Kept P (parseStmtAt stmt fuel) fun s _ w _ => w = writeStmt s := by
  refine .peek fun l => ?_
  split
  · exact keeps_mutate fuel
  · exact keeps_let fuel
  · exact keeps_ifStmt fuel hstmt
  · exact keeps_matchStmt fuel hstmt
  · exact keeps_return fuel
  · exact keeps_exprStmt fuel

end Nested

theorem keeps_stmt {P : List Lexeme → Prop} (fuel : Nat) :
    Keeps Kept P (parseStmt fuel) fun s _ w _ => w = writeStmt s := by
  induction fuel generalizing P with
  | zero => exact .outOfFuel
  | succ fuel ih => exact keeps_stmtAt fuel ih

/-! ### Places of lexemes -/

variable {offset : Nat} {cs : List Char} {lexemes : List Lexeme} {src : String}

theorem lexFrom_start {skip : Nat} (h : lexFrom skip offset cs = .ok lexemes) :
    Ordered lexemes ∧ ∀ l ∈ lexemes, offset ≤ l.start := by
  induction cs generalizing skip offset lexemes with
  | nil =>
    have heof : lexemes = [⟨.eof, offset, offset⟩] := by
      cases skip <;> cases h <;> rfl
    rw [heof]
    refine ⟨pairwise_singleton _ _, fun l hl => ?_⟩
    rw [mem_singleton.mp hl]
  | cons c cs ih =>
    cases skip with
    | succ skip =>
      obtain ⟨hordered, hstart⟩ := ih h
      exact ⟨hordered, fun l hl => (Nat.le_succ offset).trans (hstart l hl)⟩
    | zero =>
      obtain ⟨⟨tok, n⟩, hone, h⟩ := bind_eq_ok.mp h
      obtain ⟨rest, hrest, h⟩ := bind_eq_ok.mp h
      cases h
      obtain ⟨hordered, hstart⟩ := ih hrest
      cases tok with
      | none => exact ⟨hordered, fun l hl => (Nat.le_succ offset).trans (hstart l hl)⟩
      | some tok =>
        refine ⟨pairwise_cons.mpr ⟨fun l hl => hstart l hl, hordered⟩, fun l hl => ?_⟩
        rcases mem_cons.mp hl with rfl | hl
        · exact le_refl _
        · exact (Nat.le_succ offset).trans (hstart l hl)

theorem ordered_of_lex (h : lex src = .ok lexemes) : Ordered lexemes :=
  (lexFrom_start h).1

/-! ### Lines and columns -/

/-- The first place comes before the second one. -/
def Before (c d : Span) : Prop :=
  c.line < d.line ∨ (c.line = d.line ∧ c.col < d.col)

/-- Offsets are placed in order. -/
def Placing (index : LineIndex) : Prop :=
  ∀ ⦃o p⦄, o < p → Before (index.spanAt o) (index.spanAt p)

theorem startsAfter_sorted (offset : Nat) (cs : List Char) :
    (startsAfter offset cs).Pairwise (· < ·) ∧ ∀ n ∈ startsAfter offset cs, offset < n := by
  induction cs generalizing offset with
  | nil => exact ⟨.nil, nofun⟩
  | cons c cs ih =>
    obtain ⟨hsorted, hlt⟩ := ih (offset + 1)
    rw [startsAfter]
    split
    · refine ⟨pairwise_cons.mpr ⟨hlt, hsorted⟩, fun n hn => ?_⟩
      rcases mem_cons.mp hn with rfl | hn
      · exact Nat.lt_succ_self offset
      · exact (Nat.lt_succ_self offset).trans (hlt n hn)
    · exact ⟨hsorted, fun n hn => (Nat.lt_succ_self offset).trans (hlt n hn)⟩

theorem getD_le_of_lt_countP {starts : List Nat} {o i : Nat} (hsorted : starts.Pairwise (· < ·))
    (hi : i < starts.countP (· ≤ o)) : starts.getD i 0 ≤ o := by
  induction starts generalizing i with
  | nil => exact Nat.zero_le o
  | cons a starts ih =>
    obtain ⟨hlt, hsorted⟩ := pairwise_cons.mp hsorted
    by_cases ha : a ≤ o
    · cases i with
      | zero => exact ha
      | succ i =>
        rw [countP_cons_of_pos (by simpa using ha)] at hi
        exact ih hsorted (by omega)
    · have hnone : (a :: starts).countP (· ≤ o) = 0 := by
        rw [countP_eq_zero]
        intro n hn
        have : a ≤ n := by
          rcases mem_cons.mp hn with rfl | hn
          · exact le_refl _
          · exact (hlt n hn).le
        simp only [decide_eq_true_eq]
        omega
      omega

theorem placing_new (src : String) : Placing (.new src) := by
  intro o p hop
  obtain ⟨hsorted, hpos⟩ := startsAfter_sorted 0 src.toList
  have hall : (LineIndex.new src).lineStarts.Pairwise (· < ·) :=
    pairwise_cons.mpr ⟨hpos, hsorted⟩
  have hmono : (LineIndex.new src).lineStarts.countP (· ≤ o) ≤
      (LineIndex.new src).lineStarts.countP (· ≤ p) := by
    refine countP_mono_left fun n _ hn => ?_
    simp only [decide_eq_true_eq] at hn ⊢
    omega
  have hfirst : 0 < (LineIndex.new src).lineStarts.countP (· ≤ o) := by
    rw [countP_pos_iff]
    exact ⟨0, mem_cons_self, by simp⟩
  have hstart : (LineIndex.new src).lineStarts.getD
      ((LineIndex.new src).lineStarts.countP (· ≤ o) - 1) 0 ≤ o :=
    getD_le_of_lt_countP hall (by omega)
  rw [Before]
  by_cases hline : (LineIndex.new src).lineStarts.countP (· ≤ o) =
      (LineIndex.new src).lineStarts.countP (· ≤ p)
  · refine Or.inr ⟨?_, ?_⟩
    · simp only [LineIndex.spanAt]
      rw [hline]
    · simp only [LineIndex.spanAt]
      rw [← hline]
      omega
  · refine Or.inl ?_
    simp only [LineIndex.spanAt]
    omega

/-! ### Sorting -/

theorem insertionSort_before {x : Span × List Token} {xs ys : List (Span × List Token)}
    (h : ∀ y ∈ xs ++ ys, Before x.1 y.1) :
    (xs ++ x :: ys).insertionSort InOrder = x :: (xs ++ ys).insertionSort InOrder := by
  induction xs with
  | nil =>
    rw [nil_append, insertionSort_cons, nil_append]
    cases hsorted : ys.insertionSort InOrder with
    | nil => rfl
    | cons y zs =>
      have hy : y ∈ ys := by
        rw [← mem_insertionSort InOrder, hsorted]
        exact mem_cons_self
      have hbefore : InOrder x y := by
        rcases h y hy with hlt | ⟨heq, hlt⟩
        · exact Or.inl hlt
        · exact Or.inr ⟨heq, hlt.le⟩
      rw [orderedInsert, if_pos hbefore]
  | cons a xs ih =>
    have hnot : ¬InOrder a x := by
      have ha := h a (mem_cons_self ..)
      unfold Before at ha
      unfold InOrder
      omega
    rw [cons_append, insertionSort_cons,
      ih fun y hy => h y (mem_cons_of_mem a hy), orderedInsert, if_neg hnot]
    rfl

/-! ### Clauses -/

def Clauses.placed (c : Clauses) : List (Span × List Token) :=
  placedClauses .requires c.requiresSpans c.requires ++
    placedClauses .ensures c.ensuresSpans c.ensures

structure ClausesRead (index : LineIndex) (c : Clauses) (notes : List Slip) (ls : List Lexeme) :
    Prop where
  kept : Kept (sourceTokens ls) ((c.placed.insertionSort InOrder).flatMap Prod.snd) notes
  /-- Each clause is placed at one of the lexemes. -/
  here : ∀ x ∈ c.placed, ∃ l ∈ ls, x.1 = index.spanAt l.start

section Clauses

variable {index : LineIndex} {c c' : Clauses} {k : Keyword} {e : Expr} {l kwl : Lexeme}
  {xs ys : List (Span × List Token)} {notes notes' : List Slip} {ls ls' : List Lexeme}

theorem ClausesRead.step (h : ClausesRead index c notes' ls') (hindex : Placing index)
    (hplaced : c.placed = xs ++ ys)
    (hplaced' : c'.placed = xs ++ (index.spanAt l.start, .kw k :: writeExpr e) :: ys)
    (hkw : kwl.token = .kw k) (he : Kept (sourceTokens ls) (writeExpr e) notes)
    (hl : ls.head? = some l) (hordered : Ordered (kwl :: (ls ++ ls'))) :
    ClausesRead index c' (notes ++ notes') (kwl :: (ls ++ ls')) := by
  have hmem : l ∈ ls := mem_of_mem_head? hl
  have hbefore : ∀ y ∈ xs ++ ys, Before (index.spanAt l.start) y.1 := by
    intro y hy
    obtain ⟨l', hl', hspan⟩ := h.here y (hplaced ▸ hy)
    rw [hspan]
    exact hindex ((pairwise_append.mp (pairwise_cons.mp hordered).2).2.2 l hmem l' hl')
  constructor
  · rw [hplaced', insertionSort_before hbefore, flatMap_cons, sourceTokens_cons, hkw,
      sourceTokens_append, ← hplaced]
    have hopens : Opens (.kw k) := ⟨nofun, nofun⟩
    exact (he.cons hopens).append h.kept
  · intro x hx
    rw [hplaced', mem_append, mem_cons] at hx
    have hold : x ∈ xs ++ ys → ∃ l ∈ kwl :: (ls ++ ls'), x.1 = index.spanAt l.start := fun hx => by
      obtain ⟨l', hl', hspan⟩ := h.here x (hplaced ▸ hx)
      exact ⟨l', mem_cons_of_mem kwl (mem_append_right ls hl'), hspan⟩
    rcases hx with hx | rfl | hx
    · exact hold (mem_append_left ys hx)
    · exact ⟨l, mem_cons_of_mem kwl (mem_append_left ls' hmem), rfl⟩
    · exact hold (mem_append_right xs hx)

variable {P : List Lexeme → Prop} (fuel : Nat)

theorem takes_currentSpan {β : Type} {f : Span → Parse β} {K : β → List Slip → List Lexeme → Prop}
    (h : ∀ l, Takes Ordered (NextIs l) (f (index.spanAt l.start)) K) :
    Takes Ordered P (currentSpan index >>= f) K := by
  rw [currentSpan, bind_assoc]
  refine Takes.peek fun l => ?_
  rw [pure_bind]
  exact h l

theorem takes_clause : Takes Ordered (NextIs l) (parseExpr fuel) fun e notes ls =>
    Kept (sourceTokens ls) (writeExpr e) notes ∧ ls.head? = some l := by
  refine Takes.mono (Takes.headed ((keeps_expr fuel _).unrelated)) ?_
  rintro e notes ls ⟨⟨w, -, hquiet, rfl, hfirm⟩, hhead⟩
  refine ⟨hquiet.toKept, hhead fun hnil => hfirm.final.ne_nil ?_⟩
  rw [hnil]
  rfl

theorem takes_clauses (hindex : Placing index) (n : Nat) :
    Takes Ordered P (parseClauses index fuel n) fun c notes ls =>
      Ordered ls → ClausesRead index c notes ls := by
  induction n generalizing P with
  | zero => exact Takes.throw
  | succ n ih =>
    refine Takes.peek fun kwl => ?_
    split
    · next hkw =>
      refine Takes.advance (takes_currentSpan fun l => Takes.bind (takes_clause fuel) ?_)
      refine fun e notes ls ⟨he, hl⟩ => Takes.bind ih fun c notes' ls' hc => Takes.pure ?_
      rw [append_nil, append_nil]
      intro hordered
      have hrest := (pairwise_append.mp (pairwise_cons.mp hordered).2).2.1
      exact (hc hrest).step hindex (nil_append _).symm rfl hkw he hl hordered
    · split
      · next hkw =>
        refine Takes.advance (takes_currentSpan fun l => Takes.bind (takes_clause fuel) ?_)
        refine fun e notes ls ⟨he, hl⟩ => Takes.bind ih fun c notes' ls' hc => Takes.pure ?_
        rw [append_nil, append_nil]
        intro hordered
        have hrest := (pairwise_append.mp (pairwise_cons.mp hordered).2).2.1
        exact (hc hrest).step hindex rfl rfl hkw he hl hordered
      · exact Takes.pure fun _ => ⟨.nil, nofun⟩

theorem keeps_clauses (hindex : Placing index) (n : Nat) :
    Keeps Kept P (parseClauses index fuel n) fun c _ w _ =>
      w = writeClauses c.requires c.ensures c.requiresSpans c.ensuresSpans :=
  Takes.mono (takes_clauses fuel hindex n).front fun _ _ _ ⟨hread, _, hordered⟩ =>
    ⟨_, (hread (pairwise_append.mp hordered).1).kept, rfl⟩

end Clauses

section Items

variable {P : List Lexeme → Prop} (fuel : Nat)

theorem keeps_arg : Keeps Kept P parseArg fun a _ w _ => w = writeArg a := by
  refine .ident fun key => .peek fun l => ?_
  split
  · next htok =>
    refine .advance htok (.token (by decide)) (.peek fun next => ?_)
    cases hnext : next.token with
    | int n =>
      refine .advance hnext (quiet_int n).toKept (.pure ?_)
      rw [writeArg, writeInt, if_neg (by omega), Int.natAbs_natCast, natToken_val]
      rfl
    | ident i =>
      refine .advance hnext (.token ⟨by rintro ⟨⟩, by rintro ⟨⟩⟩) (.pure ?_)
      simp [writeArg]
    | _ => exact .reject
  · exact .pure (by simp [writeArg])

theorem keeps_attribute :
    Keeps Kept P (parseAttribute fuel) fun a _ w _ => w = writeAttribute a := by
  refine .expect (.token (by decide)) (.identOrKeyword fun name => .peek fun l => ?_)
  split
  · next htok =>
    refine .advance htok .nil
      (.map (keeps_closedList (listwise_flatMap writeArg) keeps_arg fuel) ?_)
    intro args _ _ _ _ hargs
    simp [writeAttribute, hargs]
  · exact .pure (by simp [writeAttribute])

theorem keeps_attributes :
    Keeps Kept P (whileToken .at_ (parseAttribute fuel) fuel) fun as _ w _ =>
      w = as.flatMap writeAttribute :=
  keeps_whileToken (listwise_flatMap writeAttribute) (keeps_attribute fuel) fuel

theorem keeps_field : Keeps Kept P (parseField fuel) fun f _ w _ => w = writeField f := by
  refine .ident fun name => .expect (.token (by decide)) ?_
  refine .bind (kept_type fuel) fun ty _ _ _ _ hty => .skip rfl (.pure ?_)
  simp [writeField, hty]

theorem keeps_fields {stop : Token} :
    Keeps Kept P (untilToken stop (parseField fuel) fuel) fun fs _ w _ =>
      w = fs.flatMap writeField :=
  keeps_untilToken (listwise_flatMap writeField) (keeps_field fuel) fuel

theorem keeps_struct : Keeps Kept P (parseStructDef fuel) fun sd _ w _ => w = writeStruct sd := by
  refine .expect (.token (by decide)) (.ident fun name => .expect (.token (by decide)) ?_)
  refine .bind (keeps_fields fuel) fun fields _ _ _ _ hfields => ?_
  exact .expect (.token (by decide)) (.pure (by simp [writeStruct, hfields]))

theorem kept_variantBraces {fields : List FieldDef} {s : List Token} {notes : List Slip}
    (h : Kept s (fields.flatMap writeField) notes) :
    Kept (.lBrace :: (s ++ [.rBrace]))
      (if fields.isEmpty then [] else .lBrace :: (fields.flatMap writeField ++ [.rBrace]))
      (notes ++ if fields.isEmpty then [.variantBraces] else []) := by
  have hbraces := (h.snoc (t := .rBrace) (by decide)).cons (t := .lBrace) (by decide)
  cases fields with
  | nil =>
    have hlength : s.length < (.lBrace :: (s ++ [.rBrace]) : List Token).length := by
      rw [length_cons, length_append]
      omega
    exact h.leftOut (by decide) hlength (by simp [count_append]) hbraces.legal hbraces.opens
  | cons f fs => simpa using hbraces

theorem keeps_variant : Keeps Kept P (parseVariant fuel) fun v _ w _ => w = writeVariant v := by
  refine .ident fun name => .peek fun l => ?_
  split
  · next htok =>
    refine .related (.advance htok trivial (.bind (keeps_fields fuel).unrelated ?_))
    intro fields s _ notes _ ⟨hkept, hfields⟩
    refine .expect trivial (.noteIf (.silent (takes_skip rfl) (fun _ => trivial) fun _ => .pure ?_))
    refine ⟨if fields.isEmpty then [] else .lBrace :: (fields.flatMap writeField ++ [.rBrace]), ?_,
      ?_⟩
    · rw [hfields] at hkept
      simpa using kept_variantBraces hkept
    · simp [writeVariant]
  · exact .skip rfl (.pure (by simp [writeVariant]))

theorem keeps_enum : Keeps Kept P (parseEnumDef fuel) fun ed _ w _ => w = writeEnum ed := by
  refine .expect (.token (by decide)) (.ident fun name => .expect (.token (by decide)) ?_)
  refine .bind (keeps_untilToken (listwise_flatMap writeVariant) (keeps_variant fuel) fuel) ?_
  intro variants _ _ _ _ hvariants
  exact .expect (.token (by decide)) (.pure (by simp [writeEnum, hvariants]))

theorem keeps_param : Keeps Kept P (parseParam fuel) fun p _ w _ => w = writeParam p := by
  have hmutability : ∀ l, Keeps Kept (NextIs l) (if l.token = .kw .mut then do
      let _ ← advance
      pure .mutable
    else pure .immutable : Parse ParamMutability) fun m _ w _ =>
      w = if m = .mutable then [.kw .mut] else [] := by
    intro l
    split
    · next htok => exact .advance htok (.token (by decide)) (.pure rfl)
    · exact .pure rfl
  refine .peek fun l => .bind (hmutability l) fun m _ _ _ _ hm => .ident fun name => ?_
  refine .expect (.token (by decide)) (.map (kept_type fuel) fun ty _ _ _ _ hty => ?_)
  cases m with
  | mutable => simp [writeParam, hm, hty]
  | immutable => simp [writeParam, hm, hty]

theorem keeps_returnTy : Keeps Kept P (parseReturnTy fuel) fun t _ w _ => w = writeReturnTy t := by
  refine .peek fun l => ?_
  split
  · next htok =>
    refine .advance htok (.token (by decide)) (.map (kept_type fuel) fun ty _ _ _ _ hty => ?_)
    simp [writeReturnTy, hty]
  · exact .pure rfl

theorem keeps_body :
    Keeps Kept P (parseBody fuel) fun body _ w _ => w = writeBody body.isNone (body.getD []) := by
  refine .peek fun l => ?_
  split
  · next htok => exact .advance htok .nil (.pure rfl)
  · refine .expect (.token (by decide)) ?_
    refine .map (keeps_blockRest fuel (keeps_stmt fuel)) fun body _ _ _ _ hbody => ?_
    simp [writeBody, hbody]

/-! ### Items -/

section Placed

variable {index : LineIndex}

theorem keeps_constraint :
    Keeps Kept P (parseConstraint index fuel) fun c _ w _ => w = writeExpr c.1 := by
  rw [parseConstraint, currentSpan, bind_assoc]
  refine .peek fun l => ?_
  rw [pure_bind]
  refine .bind (kept_expr fuel) fun e _ _ _ _ he => .skip rfl (.pure ?_)
  simp [he]

theorem keeps_func (hindex : Placing index) (attributes : List Attribute) :
    Keeps Kept P (parseFunc index fuel attributes) fun f _ w _ =>
      f.attributes = attributes ∧ writeFunc f = attributes.flatMap writeAttribute ++ w := by
  rw [parseFunc, currentSpan, bind_assoc]
  refine .peek fun l => ?_
  rw [pure_bind]
  refine .expect (.token (by decide)) (.ident fun name => .expect .nil ?_)
  refine .bind (keeps_closedList (listwise_flatMap writeParam) (keeps_param fuel) fuel) ?_
  intro params _ _ _ _ hparams
  refine .bind (keeps_returnTy fuel) fun returnTy _ _ _ _ hreturn => ?_
  refine .bind (keeps_clauses fuel hindex fuel) fun c _ _ _ _ hclauses => ?_
  refine .map (keeps_body fuel) fun body _ _ _ _ hbody => ⟨rfl, ?_⟩
  simp [writeFunc, hparams, hreturn, hclauses, hbody]

theorem keeps_invariant :
    Keeps Kept P (parseInvariant index fuel) fun inv _ w _ => w = writeInvariant inv := by
  have hconstraints : Listwise (fun (c : Expr × Span) _ w _ => w = writeExpr c.1)
      fun cs _ w _ => w = writeExprs (cs.map Prod.fst) :=
    ⟨rfl, fun hc hcs => by rw [map_cons, writeExprs, hc, hcs]⟩
  rw [parseInvariant, currentSpan, bind_assoc]
  refine .peek fun l => ?_
  rw [pure_bind]
  refine .expect (.token (by decide)) (.ident fun name => .expect (.token (by decide)) ?_)
  refine .bind (keeps_untilToken hconstraints (keeps_constraint fuel) fuel) ?_
  intro constraints _ _ _ _ hwrite
  exact .expect (.token (by decide)) (.pure (by simp [writeInvariant, hwrite]))

theorem keeps_noAttributes {α : Type} {attributes : List Attribute} {what : String}
    {item : Parse α} {G : α → List Token → List Token → List Slip → Prop}
    (hitem : attributes = [] → Keeps Kept P item G) :
    Keeps Kept P (noAttributes attributes what item) G := by
  rw [noAttributes]
  split
  · next hempty => exact hitem (List.isEmpty_iff.mp hempty)
  · exact .reject

theorem keeps_item (hindex : Placing index) :
    Keeps Kept P (parseItem index fuel) fun item _ w _ => w = writeItem item := by
  refine .bind (keeps_attributes fuel) fun attributes _ _ _ _ hattributes => .peek fun l => ?_
  have hnone : attributes = [] → attributes.flatMap writeAttribute = [] := by
    rintro rfl
    rfl
  split
  · refine keeps_noAttributes fun hempty => .map (keeps_invariant fuel) fun inv _ _ _ _ hinv => ?_
    rw [hattributes, hnone hempty, hinv]
    rfl
  · refine .map (keeps_func fuel hindex attributes) fun f _ _ _ _ ⟨_, hf⟩ => ?_
    rw [hattributes, writeItem, hf]
  · refine keeps_noAttributes fun hempty => .map (keeps_struct fuel) fun sd _ _ _ _ hsd => ?_
    rw [hattributes, hnone hempty, hsd]
    rfl
  · refine keeps_noAttributes fun hempty => .map (keeps_enum fuel) fun ed _ _ _ _ hed => ?_
    rw [hattributes, hnone hempty, hed]
    rfl
  · exact .reject

theorem keeps_module (hindex : Placing index) :
    Keeps Kept P (parseModule index fuel) fun m _ w _ => w = writeModule m := by
  refine .bind (keeps_attributes fuel) fun attributes _ _ _ _ hattributes => ?_
  refine .expect (.token (by decide)) (.ident fun name => .expect (.token (by decide)) ?_)
  refine .bind (keeps_untilToken (listwise_flatMap writeItem) (keeps_item fuel hindex) fuel) ?_
  intro items _ _ _ _ hitems
  exact .expect (.token (by decide)) (.pure (by simp [writeModule, hattributes, hitems]))

end Placed

end Items

/-! ### The end of the file -/

theorem lexOne_ne_eof {n : Nat} {c : Char} {tok : Token}
    (h : lexOne offset c cs = .ok (some tok, n)) : tok ≠ .eof := by
  unfold lexOne at h
  split at h
  · cases h
  split at h
  · cases h
  split at h
  · cases h
    rcases wordToken_cases _ with ⟨k, hk⟩ | hk | ⟨i, hk⟩ <;> rw [hk] <;> exact nofun
  split at h
  · dsimp only at h
    split at h
    · cases h
      exact nofun
    · cases h
  split at h
  · next tok' htwo =>
    cases h
    obtain ⟨d, -, hd⟩ := Option.bind_eq_some_iff.mp htwo
    rintro rfl
    unfold twoCharToken at hd
    split at hd <;> cases hd
  · split at h
    · next tok' hone =>
      cases h
      rintro rfl
      unfold charToken at hone
      split at hone <;> cases hone
    · cases h

theorem lexFrom_eof {skip : Nat} (h : lexFrom skip offset cs = .ok lexemes) :
    ∃ init last, lexemes = init ++ [last] ∧ last.token = .eof ∧ ∀ l ∈ init, l.token ≠ .eof := by
  induction cs generalizing skip offset lexemes with
  | nil =>
    have heof : lexemes = [⟨.eof, offset, offset⟩] := by
      cases skip <;> cases h <;> rfl
    exact ⟨[], _, heof, rfl, nofun⟩
  | cons c cs ih =>
    cases skip with
    | succ skip => exact ih h
    | zero =>
      obtain ⟨⟨tok, n⟩, hone, h⟩ := bind_eq_ok.mp h
      obtain ⟨rest, hrest, h⟩ := bind_eq_ok.mp h
      cases h
      obtain ⟨init, last, hlexemes, hlast, hinit⟩ := ih hrest
      cases tok with
      | none => exact ⟨init, last, hlexemes, hlast, hinit⟩
      | some tok =>
        refine ⟨⟨tok, offset, offset + 1 + n⟩ :: init, last, ?_, hlast, fun l hl => ?_⟩
        · rw [hlexemes]
          rfl
        · rcases mem_cons.mp hl with rfl | hl
          · exact lexOne_ne_eof hone
          · exact hinit l hl

theorem untilToken_stops {α : Type} {stop : Token} {item : Parse α} {fuel : Nat}
    {t t' : Tape Lexeme Slip} {as : List α} (h : untilToken stop item fuel t = .ok (as, t')) :
    ∃ l, t'.rest.head? = some l ∧ l.token = stop := by
  induction fuel generalizing t as with
  | zero => cases h
  | succ fuel ih =>
    obtain ⟨⟨l, t₁⟩, hpeek, h⟩ := bind_eq_ok.mp h
    by_cases htok : l.token = stop
    · simp only [if_pos htok] at h
      cases h
      unfold peek Tape.peek at hpeek
      split at hpeek
      · cases hpeek
      · next x rest hrest =>
        cases hpeek
        exact ⟨_, by rw [hrest]; rfl, htok⟩
    · simp only [if_neg htok] at h
      obtain ⟨⟨a, t₂⟩, -, h⟩ := bind_eq_ok.mp h
      obtain ⟨⟨as', t₃⟩, hrest, h⟩ := bind_eq_ok.mp h
      cases h
      exact ih hrest

/-- Nothing is behind the end of the file. -/
theorem eq_singleton_of_eof {ls rest : List Lexeme} {l : Lexeme}
    (hlex : lex src = .ok (ls ++ rest)) (hhead : rest.head? = some l) (hl : l.token = .eof) :
    rest = [l] := by
  obtain ⟨init, last, hsplit, hlast, hinit⟩ := lexFrom_eof hlex
  cases rest with
  | nil => cases hhead
  | cons x rest =>
    cases hhead
    have hnil : rest = [] := by
      by_contra hne
      obtain ⟨rest', last', rfl⟩ := (eq_nil_or_concat rest).resolve_left hne
      rw [concat_eq_append, ← cons_append, ← append_assoc] at hsplit
      have hinit' := (append_inj' hsplit rfl).1
      exact hinit l (by rw [← hinit']; simp) hl
    rw [hnil]

/-- Nothing but the end of the file is left. -/
theorem sourceTokens_of_eof {ls rest : List Lexeme} {l : Lexeme}
    (hlex : lex src = .ok (ls ++ rest)) (hhead : rest.head? = some l) (hl : l.token = .eof) :
    sourceTokens (ls ++ rest) = sourceTokens ls := by
  rw [eq_singleton_of_eof hlex hhead hl, sourceTokens_append, sourceTokens_cons, hl]
  exact append_nil _

/-! ### The round trip -/

theorem kept_of_parse {fuel : Nat} {modules : List SourceModule}
    {slips : List Slip} (hparse : parse fuel src = .ok (modules, slips))
    (hlex : lex src = .ok lexemes) :
    Kept (sourceTokens lexemes) (modules.flatMap writeModule) slips := by
  obtain ⟨lexemes', hlex', h⟩ := bind_eq_ok.mp hparse
  rw [hlex] at hlex'
  cases hlex'
  obtain ⟨⟨modules', tape⟩, hrun, h⟩ := bind_eq_ok.mp h
  cases h
  have hkeeps : Keeps Kept Anywhere (untilToken .eof (parseModule (.new src) fuel) fuel) _ :=
    keeps_untilToken (listwise_flatMap writeModule) (keeps_module fuel (placing_new src)) fuel
  obtain ⟨ls, notes, hrest, hnotes, w, hkept, hwrite⟩ := hkeeps (ordered_of_lex hlex) trivial hrun
  obtain ⟨l, hhead, hl⟩ := untilToken_stops hrun
  have hlexemes : lexemes = ls ++ tape.rest := hrest
  rw [hlexemes] at hlex ⊢
  rw [sourceTokens_of_eof hlex hhead hl, hnotes, nil_append, ← hwrite]
  exact hkept

/-- The modules are written back exactly when no branch was taken that keeps less, or more,
than was read. -/
theorem written_back_iff {fuel : Nat} {modules : List SourceModule}
    {slips : List Slip} (hparse : parse fuel src = .ok (modules, slips))
    (hlex : lex src = .ok lexemes) :
    modules.flatMap writeModule = sourceTokens lexemes ↔ slips = [] :=
  eq_comm.trans (kept_of_parse hparse hlex).eq_iff

theorem written_back_return :
    ∃ modules lexemes, parse 20 "module M { func f() { return a.b(2); } }" = .ok (modules, []) ∧
      lex "module M { func f() { return a.b(2); } }" = .ok lexemes ∧
      modules.flatMap writeModule = sourceTokens lexemes := by
  have hslips : (parse 20 "module M { func f() { return a.b(2); } }").map Prod.snd = .ok [] := by
    decide +kernel
  have hlexes : (lex "module M { func f() { return a.b(2); } }").map length = .ok 19 := by
    decide +kernel
  cases hparse : parse 20 "module M { func f() { return a.b(2); } }" with
  | error stop =>
    rw [hparse] at hslips
    cases hslips
  | ok result =>
    cases hlex : lex "module M { func f() { return a.b(2); } }" with
    | error stop =>
      rw [hlex] at hlexes
      cases hlexes
    | ok lexemes =>
      obtain ⟨modules, slips⟩ := result
      rw [hparse] at hslips
      cases hslips
      exact ⟨modules, lexemes, rfl, rfl, (written_back_iff hparse hlex).mpr rfl⟩

def writesBack (fuel : Nat) (src : String) : Result String Bool := do
  let (modules, _) ← parse fuel src
  let lexemes ← lex src
  .ok (modules.flatMap writeModule == sourceTokens lexemes)

/-- An expression that is made an assignment, and a call of which an argument is lost. -/
theorem not_written_back :
    writesBack 20 "module M { func f() { g(1); } }" = .ok false ∧
      writesBack 20 "module M { func f() { return a.b(2)(3); } }" = .ok false := by
  decide +kernel

end Oikos.Telos.Parser
