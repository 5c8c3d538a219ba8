/-
The tokenizer and the parser on any source: they end with a result or an error message,
the extents of the lexemes lie one behind the other in the source, and every place that a
tree reports is the line and column of the first lexeme of what it is a place of.
-/
import Oikos.Telos.Totality
import Oikos.Telos.WrittenBack

namespace Oikos.Telos.Parser

open List

/-! ### Extents of lexemes -/

/-- The extents of lexemes that come from these characters, which begin at an offset. -/
structure Extents (offset : Nat) (cs : List Char) (lexemes : List Lexeme) : Prop where
  inside : ∀ l ∈ lexemes, offset ≤ l.start ∧ l.start ≤ l.stop ∧ l.stop ≤ offset + cs.length
  /-- Only the end of the file is empty. -/
  proper : ∀ l ∈ lexemes, l.token = .eof ∨ l.start < l.stop
  apart : lexemes.Pairwise fun a b => a.start < b.start ∧ a.stop ≤ b.start

theorem length_takeWhile_le {α : Type} (p : α → Bool) (xs : List α) :
    (xs.takeWhile p).length ≤ xs.length :=
  (takeWhile_sublist p).length_le

variable {offset : Nat} {cs : List Char} {lexemes : List Lexeme}

/-- A round takes no more characters than there are. -/
theorem lexOne_le {n : Nat} {c : Char} {tok : Option Token}
    (h : lexOne offset c cs = .ok (tok, n)) : n ≤ cs.length := by
  unfold lexOne at h
  split at h
  · cases h
    exact Nat.zero_le _
  split at h
  · cases h
    exact length_takeWhile_le _ _
  split at h
  · cases h
    exact length_takeWhile_le _ _
  split at h
  · dsimp only at h
    split at h
    · cases h
      exact length_takeWhile_le _ _
    · cases h
  split at h
  · next two htwo =>
    cases h
    obtain ⟨d, hd, -⟩ := Option.bind_eq_some_iff.mp htwo
    exact length_pos_of_mem (mem_of_mem_head? hd)
  · split at h
    · cases h
      exact Nat.zero_le _
    · cases h

theorem extents_of_lexFrom {skip : Nat}
    (hskip : skip ≤ cs.length) (h : lexFrom skip offset cs = .ok lexemes) :
    Extents offset cs lexemes ∧ ∀ l ∈ lexemes, offset + skip ≤ l.start := by
  induction cs generalizing skip offset lexemes with
  | nil =>
    obtain rfl : skip = 0 := Nat.le_zero.mp hskip
    cases h
    refine ⟨⟨fun l hl => ?_, fun l hl => ?_, pairwise_singleton _ _⟩, fun l hl => ?_⟩
    all_goals rw [mem_singleton.mp hl]
    · exact ⟨le_refl _, le_refl _, Nat.le_add_right offset 0⟩
    · exact Or.inl rfl
    · exact le_refl _
  | cons c cs ih =>
    have hlen : (c :: cs).length = cs.length + 1 := length_cons
    cases skip with
    | succ skip =>
      obtain ⟨⟨hinside, hproper, hapart⟩, hstart⟩ := ih (by omega) h
      refine ⟨⟨fun l hl => ?_, hproper, hapart⟩, fun l hl => ?_⟩
      · have := hinside l hl
        omega
      · have := hstart l hl
        omega
    | zero =>
      obtain ⟨⟨tok, n⟩, hone, h⟩ := bind_eq_ok.mp h
      obtain ⟨rest, hrest, h⟩ := bind_eq_ok.mp h
      cases h
      have hn := lexOne_le hone
      obtain ⟨⟨hinside, hproper, hapart⟩, hstart⟩ := ih hn hrest
      have hwide : ∀ l ∈ rest, offset ≤ l.start ∧ l.start ≤ l.stop ∧
          l.stop ≤ offset + (c :: cs).length := fun l hl => by
        have := hinside l hl
        omega
      cases tok with
      | none => exact ⟨⟨hwide, hproper, hapart⟩, fun l hl => (hwide l hl).1⟩
      | some tok =>
        refine ⟨⟨fun l hl => ?_, fun l hl => ?_, ?_⟩, fun l hl => ?_⟩
        · rcases mem_cons.mp hl with rfl | hl
          · dsimp only
            omega
          · exact hwide l hl
        · rcases mem_cons.mp hl with rfl | hl
          · exact Or.inr (by dsimp only; omega)
          · exact hproper l hl
        · refine pairwise_cons.mpr ⟨fun l hl => ?_, hapart⟩
          have := hstart l hl
          dsimp only
          omega
        · rcases mem_cons.mp hl with rfl | hl
          · exact le_refl _
          · exact (hwide l hl).1

theorem length_of_lexFrom {skip : Nat}
    (h : lexFrom skip offset cs = .ok lexemes) : lexemes.length ≤ cs.length + 1 := by
  induction cs generalizing skip offset lexemes with
  | nil =>
    cases skip <;> cases h <;> exact le_refl _
  | cons c cs ih =>
    cases skip with
    | succ skip => exact (ih h).trans (Nat.le_succ _)
    | zero =>
      obtain ⟨⟨tok, n⟩, hone, h⟩ := bind_eq_ok.mp h
      obtain ⟨rest, hrest, h⟩ := bind_eq_ok.mp h
      cases h
      have hle := ih hrest
      cases tok with
      | none => exact hle.trans (Nat.le_succ _)
      | some tok => exact Nat.succ_le_succ hle

theorem stops_lexOne {c : Char} :
    Stops (fun stop => ∃ message, stop = .err message) (lexOne offset c cs) := by
  unfold lexOne
  split
  · exact .ok _
  split
  · exact .ok _
  split
  · exact .ok _
  split
  · dsimp only
    split
    · exact .ok _
    · exact .error ⟨_, rfl⟩
  split
  · exact .ok _
  · split
    · exact .ok _
    · exact .error ⟨_, rfl⟩

theorem stops_lexFrom (skip offset : Nat) (cs : List Char) :
    Stops (fun stop => ∃ message, stop = .err message) (lexFrom skip offset cs) := by
  induction cs generalizing skip offset with
  | nil => cases skip <;> exact .ok _
  | cons c cs ih =>
    cases skip with
    | succ skip => exact ih skip (offset + 1)
    | zero => exact stops_lexOne.bind fun _ _ => (ih _ _).bind fun _ _ => .ok _

/-! ### Places -/

def behind (place : Span) (c : Char) : Span :=
  if c = '\n' then ⟨place.line + 1, 1⟩ else ⟨place.line, place.col + 1⟩

/-- The line and the column of the character at an offset, both counted from one. -/
def position (src : String) (offset : Nat) : Span :=
  (src.toList.take offset).foldl behind ⟨1, 1⟩

theorem spanAt_start {starts : List Nat} {start : Nat}
    (hstarts : ∀ n ∈ starts, n ≤ offset) (hstart : start ≤ offset) :
    (LineIndex.mk (starts ++ start :: startsAfter offset cs)).spanAt offset =
      ⟨starts.length + 1, offset - start + 1⟩ := by
  have hbefore : starts.countP (· ≤ offset) = starts.length :=
    countP_eq_length.mpr fun n hn => by simpa using hstarts n hn
  have hbehind : (startsAfter offset cs).countP (· ≤ offset) = 0 :=
    countP_eq_zero.mpr fun n hn => by simpa using (startsAfter_sorted offset cs).2 n hn
  have hcount : (starts ++ start :: startsAfter offset cs).countP (· ≤ offset) =
      starts.length + 1 := by
    rw [countP_append, countP_cons_of_pos (by simpa using hstart), hbefore, hbehind]
  rw [LineIndex.spanAt]
  dsimp only
  rw [hcount, Nat.add_sub_cancel, getD_eq_getElem?_getD,
    getElem?_append_right (le_refl _),
    Nat.sub_self]
  rfl

theorem spanAt_startsAfter {starts : List Nat} {start offset k : Nat} {cs : List Char}
    (hstarts : ∀ n ∈ starts, n ≤ offset) (hstart : start ≤ offset) (hk : k ≤ cs.length) :
    (LineIndex.mk (starts ++ start :: startsAfter offset cs)).spanAt (offset + k) =
      (cs.take k).foldl behind ⟨starts.length + 1, offset - start + 1⟩ := by
  induction cs generalizing starts start offset k with
  | nil =>
    obtain rfl : k = 0 := Nat.le_zero.mp hk
    exact spanAt_start hstarts hstart
  | cons c cs ih =>
    cases k with
    | zero => exact spanAt_start hstarts hstart
    | succ k =>
      have hk' : k ≤ cs.length := Nat.le_of_succ_le_succ hk
      have hoffset : offset + (k + 1) = offset + 1 + k := by omega
      rw [hoffset, take_succ_cons, foldl_cons, startsAfter, behind]
      by_cases hc : c = '\n'
      · rw [if_pos hc, if_pos hc, append_cons starts start,
          ih (forall_mem_append.mpr ⟨fun n hn => (hstarts n hn).trans (Nat.le_succ offset), by
            simpa using hstart.trans (Nat.le_succ offset)⟩) (le_refl _) hk', Nat.sub_self,
          length_append]
        rfl
      · have hcol : offset + 1 - start + 1 = offset - start + 1 + 1 := by omega
        rw [if_neg hc, if_neg hc, ih (fun n hn => (hstarts n hn).trans (Nat.le_succ offset))
          (hstart.trans (Nat.le_succ offset)) hk', hcol]

theorem spanAt_new {src : String} (h : offset ≤ src.toList.length) :
    (LineIndex.new src).spanAt offset = position src offset := by
  have := @spanAt_startsAfter [] 0 0 offset src.toList nofun (le_refl 0) h
  rwa [zero_add] at this

/-! ### What the places belong to -/

/-- The parser makes `a` of these lexemes, in front of some others. -/
def Reads {α : Type} (p : Parse α) (a : α) (ls : List Lexeme) : Prop :=
  ∃ t t', p t = .ok (a, t') ∧ t.rest = ls ++ t'.rest

/-- The lexemes of each, one behind the other. -/
def Segmented {α : Type} (R : α → List Lexeme → Prop) (as : List α) (ls : List Lexeme) : Prop :=
  ∃ pieces, List.Forall₂ R as pieces ∧ ls = pieces.flatten

section Placed

variable (src : String) (fuel : Nat)

/-- An expression that is read from these lexemes, and the place of the first one. -/
def ExprPlaced (e : Expr) (span : Span) (ls : List Lexeme) : Prop :=
  Reads (parseExpr fuel) e ls ∧ ∃ l, ls.head? = some l ∧ span = position src l.start

/-- Clauses, each with its keyword in front of it. -/
inductive ClausesPlaced : Clauses → List Lexeme → Prop where
  | none : ClausesPlaced ⟨[], [], [], []⟩ []
  | requires {k : Lexeme} {e : Expr} {span : Span} {c : Clauses} {ls ls' : List Lexeme}
      (hk : k.token = .kw .requires) (he : ExprPlaced src fuel e span ls)
      (hc : ClausesPlaced c ls') :
      ClausesPlaced
        { c with requires := e :: c.requires, requiresSpans := span :: c.requiresSpans }
        (k :: (ls ++ ls'))
  | ensures {k : Lexeme} {e : Expr} {span : Span} {c : Clauses} {ls ls' : List Lexeme}
      (hk : k.token = .kw .ensures) (he : ExprPlaced src fuel e span ls)
      (hc : ClausesPlaced c ls') :
      ClausesPlaced
        { c with ensures := e :: c.ensures, ensuresSpans := span :: c.ensuresSpans }
        (k :: (ls ++ ls'))

def FuncPlaced (f : SourceFunc) (ls : List Lexeme) : Prop :=
  ∃ kw signature clauses body, ls = kw :: (signature ++ (clauses ++ body)) ∧
    kw.token = .kw .func ∧ f.span = position src kw.start ∧
    ClausesPlaced src fuel ⟨f.requires, f.ensures, f.requiresSpans, f.ensuresSpans⟩ clauses

def ConstraintPlaced (c : Expr × Span) (ls : List Lexeme) : Prop :=
  ∃ expr separator, ls = expr ++ separator ∧ ExprPlaced src fuel c.1 c.2 expr

def InvariantPlaced (inv : Invariant) (ls : List Lexeme) : Prop :=
  ∃ kw opening body closing constraints, ls = kw :: (opening ++ (body ++ closing)) ∧
    kw.token = .kw .invariant ∧ inv.span = position src kw.start ∧
    inv.constraints = constraints.map Prod.fst ∧ inv.constraintSpans = constraints.map Prod.snd ∧
    Segmented (ConstraintPlaced src fuel) constraints body

def ItemPlaced (item : SourceItem) (ls : List Lexeme) : Prop :=
  ∃ attributes rest, ls = attributes ++ rest ∧
    match item with
    | .invariant inv => InvariantPlaced src fuel inv rest
    | .func f => FuncPlaced src fuel f rest
    | .struct _ | .enum _ => True

def ModulePlaced (m : SourceModule) (ls : List Lexeme) : Prop :=
  ∃ opening items closing, ls = opening ++ (items ++ closing) ∧
    Segmented (ItemPlaced src fuel) m.items items

def Within (ls : List Lexeme) : Prop :=
  Ordered ls ∧ ∀ l ∈ ls, l.start ≤ src.toList.length

instance : Stays (Within src) where
  rest h := ⟨Stays.rest h.1, fun l hl => h.2 l (List.mem_append_right _ hl)⟩

section Takes

variable {src fuel} {α β : Type} {P : List Lexeme → Prop} {p : Parse α}

/-- Lexemes are taken, whatever they are. -/
abbrev TakesSome (src : String) (P : List Lexeme → Prop) (p : Parse α) : Prop :=
  Takes (Within src) P p fun _ _ _ => True

theorem takes_within {G : α → List Slip → List Lexeme → Prop} (h : Takes Ordered P p G) :
    Takes (Within src) P p G :=
  fun _ _ _ hQ => h hQ.1

theorem takesSome {G : α → List Slip → List Lexeme → Prop} (h : Takes Ordered P p G) :
    TakesSome src P p :=
  (takes_within h).mono fun _ _ _ _ => trivial

theorem takes_reads {Q : List Lexeme → Prop} {G : α → List Slip → List Lexeme → Prop}
    (h : Takes Q P p G) : Takes Q P p fun a ns ls => G a ns ls ∧ Reads p a ls := by
  intro t a t' hQ hP hrun
  obtain ⟨ls, ns, hrest, hnotes, hG⟩ := h hQ hP hrun
  exact ⟨ls, ns, hrest, hnotes, hG, t, t', hrun, hrest⟩

theorem takes_segmented {R : α → List Lexeme → Prop} {item : Parse α} {stop : Token}
    (hitem : Takes (Within src) Anywhere item fun a _ ls => R a ls) (n : Nat) :
    Takes (Within src) P (untilToken stop item n) fun as _ ls => Segmented R as ls := by
  induction n generalizing P with
  | zero => exact Takes.throw
  | succ n ih =>
    refine Takes.peek fun l => ?_
    split
    · exact Takes.pure ⟨[], .nil, rfl⟩
    · refine Takes.bind (hitem.pre fun _ _ => trivial) fun a _ ls ha => ?_
      refine Takes.bind ih fun as _ ls' ⟨pieces, hpieces, hls'⟩ => Takes.pure ?_
      refine ⟨ls :: pieces, .cons ha hpieces, ?_⟩
      rw [append_nil, hls', flatten_cons]

theorem takes_place {f : Span → Parse β} {K : β → List Slip → List Lexeme → Prop}
    (h : ∀ l, Takes (Within src) (NextIs l) (f (position src l.start)) K) :
    Takes (Within src) P (currentSpan (.new src) >>= f) K := by
  rw [currentSpan, bind_assoc]
  refine Takes.peek fun l => ?_
  rw [pure_bind]
  intro t b t' hQ hnext hrun
  have hstart : l.start ≤ src.toList.length := hQ.2 l (mem_of_mem_head? hnext)
  rw [spanAt_new hstart] at hrun
  exact h l hQ hnext hrun

theorem takes_placedExpr {l : Lexeme} :
    Takes (Within src) (NextIs l) (parseExpr fuel) fun e _ ls =>
      ExprPlaced src fuel e (position src l.start) ls :=
  (takes_reads (takes_within (takes_clause fuel))).mono fun _ _ _ ⟨⟨_, hhead⟩, hreads⟩ =>
    ⟨hreads, l, hhead, rfl⟩

theorem takes_one {tok : Token} :
    Takes (Within src) P (expect tok) fun _ _ ls => ∃ l, ls = [l] ∧ l.token = tok := by
  refine Takes.peek fun l => ?_
  split
  · next htok => exact Takes.advance (Takes.pure ⟨l, rfl, htok⟩)
  · exact Takes.throw

theorem takes_expected {tok : Token} {l : Lexeme} {f : Unit → Parse β}
    {K : β → List Slip → List Lexeme → Prop}
    (h : l.token = tok → Takes (Within src) Anywhere (f ()) fun b _ ls => ∀ ns, K b ns (l :: ls)) :
    Takes (Within src) (NextIs l) (expect tok >>= f) K := by
  refine Takes.bind takes_one.headed fun _ ns ls ⟨⟨l', hls, htok⟩, hhead⟩ => ?_
  rw [hls] at hhead
  obtain rfl : l' = l := Option.some.inj (hhead (cons_ne_nil l' []))
  rw [hls]
  exact (h htok).mono fun b ns' ls' hK => hK (ns ++ ns')

theorem takes_clausesPlaced (n : Nat) :
    Takes (Within src) P (parseClauses (.new src) fuel n) fun c _ ls =>
      ClausesPlaced src fuel c ls := by
  induction n generalizing P with
  | zero => exact Takes.throw
  | succ n ih =>
    refine Takes.peek fun k => ?_
    split
    · next hk =>
      refine Takes.advance (takes_place fun l => Takes.bind takes_placedExpr ?_)
      refine fun e _ ls he => Takes.bind ih fun c _ ls' hc => Takes.pure ?_
      rw [append_nil]
      exact .requires hk he hc
    · split
      · next hk =>
        refine Takes.advance (takes_place fun l => Takes.bind takes_placedExpr ?_)
        refine fun e _ ls he => Takes.bind ih fun c _ ls' hc => Takes.pure ?_
        rw [append_nil]
        exact .ensures hk he hc
      · exact Takes.pure .none

theorem takes_func (attributes : List Attribute) :
    Takes (Within src) P (parseFunc (.new src) fuel attributes) fun f _ ls =>
      FuncPlaced src fuel f ls := by
  have hparams : TakesSome src Anywhere (closedList (parseParam fuel) fuel) :=
    takesSome (keeps_closedList (listwise_flatMap writeParam) (keeps_param fuel) fuel)
  refine takes_place fun kw => takes_expected fun hkw => ?_
  refine Takes.bind (takesSome takes_expectIdent) fun name _ ls₁ _ => ?_
  refine Takes.bind (takesSome takes_expect) fun _ _ ls₂ _ => ?_
  refine Takes.bind hparams fun params _ ls₃ _ => ?_
  refine Takes.bind (takesSome (keeps_returnTy fuel)) fun returnTy _ ls₄ _ => ?_
  refine Takes.bind (takes_clausesPlaced fuel) fun c _ ls₅ hc => ?_
  refine Takes.bind (takesSome (keeps_body fuel)) fun body _ ls₆ _ => Takes.pure fun _ => ?_
  refine ⟨kw, ls₁ ++ ls₂ ++ ls₃ ++ ls₄, ls₅, ls₆, ?_, hkw, rfl, hc⟩
  simp

theorem takes_constraint :
    Takes (Within src) P (parseConstraint (.new src) fuel) fun c _ ls =>
      ConstraintPlaced src fuel c ls := by
  refine takes_place fun l => Takes.bind takes_placedExpr fun e _ expr he => ?_
  refine Takes.bind (takesSome (takes_skip rfl)) fun _ _ separator _ => Takes.pure ?_
  exact ⟨expr, separator, by rw [append_nil], he⟩

theorem takes_invariant :
    Takes (Within src) P (parseInvariant (.new src) fuel) fun inv _ ls =>
      InvariantPlaced src fuel inv ls := by
  refine takes_place fun kw => takes_expected fun hkw => ?_
  refine Takes.bind (takesSome takes_expectIdent) fun name _ ls₁ _ => ?_
  refine Takes.bind (takesSome takes_expect) fun _ _ ls₂ _ => ?_
  refine Takes.bind (takes_segmented takes_constraint fuel) fun constraints _ body hbody => ?_
  refine Takes.bind (takesSome takes_expect) fun _ _ ls₃ _ => Takes.pure fun _ => ?_
  refine ⟨kw, ls₁ ++ ls₂, body, ls₃, constraints, ?_, hkw, rfl, rfl, rfl, hbody⟩
  simp

theorem takes_item :
    Takes (Within src) P (parseItem (.new src) fuel) fun item _ ls =>
      ItemPlaced src fuel item ls := by
  refine Takes.bind (takesSome (keeps_attributes fuel)) fun attributes _ ls₁ _ => ?_
  refine Takes.peek fun l => ?_
  split
  · rw [noAttributes]
    split
    · refine Takes.bind takes_invariant fun inv _ ls hinv => Takes.pure ?_
      exact ⟨ls₁, ls, by rw [append_nil], hinv⟩
    · exact Takes.throw
  · refine Takes.bind (takes_func attributes) fun f _ ls hf => Takes.pure ?_
    exact ⟨ls₁, ls, by rw [append_nil], hf⟩
  · rw [noAttributes]
    split
    · refine Takes.bind (takesSome (keeps_struct fuel)) fun sd _ ls _ => Takes.pure ?_
      exact ⟨ls₁, ls, by rw [append_nil], trivial⟩
    · exact Takes.throw
  · rw [noAttributes]
    split
    · refine Takes.bind (takesSome (keeps_enum fuel)) fun ed _ ls _ => Takes.pure ?_
      exact ⟨ls₁, ls, by rw [append_nil], trivial⟩
    · exact Takes.throw
  · exact Takes.throw

theorem takes_module :
    Takes (Within src) P (parseModule (.new src) fuel) fun m _ ls =>
    ModulePlaced src fuel m ls := by
  refine Takes.bind (takesSome (keeps_attributes fuel)) fun attributes _ ls₁ _ => ?_
  refine Takes.bind (takesSome takes_expect) fun _ _ ls₂ _ => ?_
  refine Takes.bind (takesSome takes_expectIdent) fun name _ ls₃ _ => ?_
  refine Takes.bind (takesSome takes_expect) fun _ _ ls₄ _ => ?_
  refine Takes.bind (takes_segmented takes_item fuel) fun items _ ls hitems => ?_
  refine Takes.bind (takesSome takes_expect) fun _ _ ls₅ _ => Takes.pure ?_
  refine ⟨ls₁ ++ ls₂ ++ ls₃ ++ ls₄, ls, ls₅, ?_, hitems⟩
  simp

end Takes

end Placed

/-! ### Any source -/

/-- The lexemes of a source end with the end of the file and nowhere before. -/
theorem sealed_of_lex {src : String} (hlex : lex src = .ok lexemes) : Sealed lexemes := by
  obtain ⟨init, last, hsplit, hlast, -⟩ := lexFrom_eof hlex
  refine ⟨fun l hl => ?_⟩
  obtain ⟨before, hbefore⟩ := hl
  rw [hsplit] at hbefore
  have := (append_inj' hbefore rfl).2
  cases this
  exact hlast

theorem within_of_lex {src : String} (hlex : lex src = .ok lexemes) : Within src lexemes := by
  refine ⟨ordered_of_lex hlex, fun l hl => ?_⟩
  have := (extents_of_lexFrom (Nat.zero_le _) hlex).1.inside l hl
  omega

theorem parsed_or_rejected {src : String} {fuel : Nat}
    (hlex : lex src = .ok lexemes) (hfuel : lexemes.length + 1 ≤ fuel) :
    (∃ message, parse fuel src = .error (.err message)) ∨
      ∃ modules slips ls last, parse fuel src = .ok (modules, slips) ∧
        lexemes = ls ++ [last] ∧ last.token = .eof ∧
        Segmented (ModulePlaced src fuel) modules ls := by
  have hsealed := sealed_of_lex hlex
  have hnil : lexemes ≠ [] := by
    obtain ⟨init, last, hsplit, -⟩ := lexFrom_eof hlex
    rw [hsplit]
    exact append_ne_nil_of_right_ne_nil init (cons_ne_nil last [])
  have hparse : parse fuel src =
      (untilToken .eof (parseModule (.new src) fuel) fuel ⟨lexemes, []⟩ >>= fun r =>
        .ok (r.1, r.2.notes)) := by
    rw [parse, hlex]
    rfl
  have hends : Finishes lexemes Anywhere fuel
    (untilToken .eof (parseModule (.new src) fuel) fuel) :=
    finishes_untilToken (le_refl fuel) consumes_module
  have hplaced : Takes (Within src) Anywhere
      (untilToken .eof (parseModule (.new src) fuel) fuel) fun ms _ ls =>
        Segmented (ModulePlaced src fuel) ms ls := takes_segmented takes_module fuel
  rcases hends ⟨lexemes, []⟩ suffix_rfl hnil trivial hfuel with
    ⟨message, hrun⟩ | ⟨modules, tape, hrun, -⟩
  · exact Or.inl ⟨message, by rw [hparse, hrun]; rfl⟩
  · obtain ⟨ls, notes, hrest, -, hmodules⟩ := hplaced (within_of_lex hlex) trivial hrun
    obtain ⟨last, hhead, hlast⟩ := untilToken_stops hrun
    have hsplit : lexemes = ls ++ tape.rest := hrest
    rw [eq_singleton_of_eof (hsplit ▸ hlex) hhead hlast] at hsplit
    exact Or.inr ⟨modules, tape.notes, ls, last, by rw [hparse, hrun]; rfl, hsplit, hlast, hmodules⟩

/-- On every source the tokenizer returns lexemes that lie one behind the other in it, or an
error; the parser, whose loops and calls never need more rounds than there are characters and
two, returns modules in which every place is that of a lexeme, or an error. -/
theorem front_end_total (src : String) :
    ((∃ message, lex src = .error (.err message)) ∨
      ∃ lexemes, lex src = .ok lexemes ∧ Extents 0 src.toList lexemes) ∧
    ∀ fuel, src.toList.length + 2 ≤ fuel →
      (∃ message, parse fuel src = .error (.err message)) ∨
        ∃ modules slips ls last, parse fuel src = .ok (modules, slips) ∧
          lex src = .ok (ls ++ [last]) ∧ last.token = .eof ∧
          Segmented (ModulePlaced src fuel) modules ls := by
  cases hlex : lex src with
  | error stop =>
    obtain ⟨message, rfl⟩ := stops_lexFrom 0 0 src.toList stop hlex
    refine ⟨Or.inl ⟨message, rfl⟩, fun fuel _ => Or.inl ⟨message, ?_⟩⟩
    rw [parse, hlex]
    rfl
  | ok lexemes =>
    refine ⟨Or.inr ⟨lexemes, rfl, (extents_of_lexFrom (Nat.zero_le _) hlex).1⟩, ?_⟩
    intro fuel hfuel
    have hlength : lexemes.length ≤ src.toList.length + 1 := length_of_lexFrom hlex
    refine (parsed_or_rejected hlex (by omega)).imp id ?_
    rintro ⟨modules, slips, ls, last, hparse, rfl, hlast, hplaced⟩
    exact ⟨modules, slips, ls, last, hparse, rfl, hlast, hplaced⟩

end Oikos.Telos.Parser
