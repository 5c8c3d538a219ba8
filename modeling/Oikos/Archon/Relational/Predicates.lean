/-
`LIKE` on characters and on bytes.  The matcher works on the bytes of UTF-8, so
`_` stands for one byte; a pattern finds the right texts as long as no group of
wildcards has to tell one character from several bytes.

`WHERE` and three-valued logic: a comparison that meets `NULL` is unknown, and
the executor takes it for false wherever it stands.  Under `NOT` this keeps rows
that the logic of SQL does not.
-/
import Mathlib.Data.List.Infix
import Oikos.Lib.GoText
import Oikos.Lib.Wildcard
import Oikos.Archon.Relational.Executor
import Oikos.Lib.Kleene

namespace Oikos.Archon.Relational

open List

/-! ### Patterns -/

/-- The element of a pattern that a byte stands for. -/
def wildByte (b : UInt8) : Wild UInt8 :=
  if b = 37 then .any else if b = 95 then .one else .lit b

/-- The element of a pattern that a character stands for. -/
def wildChar (c : Char) : Wild Char :=
  if c = '%' then .any else if c = '_' then .one else .lit c

/-- The text consists of consecutive segments for the characters of the pattern. -/
def LikeSplits (text pattern : String) : Prop :=
  Splits (pattern.toList.map wildChar) text.toList

/-- The matcher on bytes. -/
theorem likeRecurse_iff (text pat : List UInt8) :
    likeRecurse text pat = true ↔ Splits (pat.map wildByte) text := by
  induction pat generalizing text with
  | nil =>
    rw [likeRecurse, map_nil, splits_nil, List.isEmpty_iff]
  | cons p pat ih =>
    rw [likeRecurse.eq_def, map_cons, wildByte]
    dsimp only
    split
    · rw [splits_any, any_eq_true]
      constructor
      · rintro ⟨more, hmore, hlike⟩
        obtain ⟨seg, hseg⟩ := (mem_tails _ _).mp hmore
        exact ⟨seg, more, hseg.symm, (ih more).mp hlike⟩
      · rintro ⟨seg, more, rfl, hmore⟩
        exact ⟨more, (mem_tails _ _).mpr (suffix_append seg more), (ih more).mpr hmore⟩
    · by_cases hone : p = 95
      · rw [if_pos hone, splits_one]
        cases text with
        | nil => simp
        | cons t text =>
          dsimp only
          rw [if_pos hone, ih]
          constructor
          · exact fun h => ⟨t, text, rfl, h⟩
          · rintro ⟨a, more, htext, h⟩
            rw [(cons.inj htext).2]
            exact h
      · rw [if_neg hone, splits_lit]
        cases text with
        | nil => simp
        | cons t text =>
          dsimp only
          rw [if_neg hone, Bool.and_eq_true, beq_iff_eq, ih]
          constructor
          · rintro ⟨rfl, h⟩
            exact ⟨text, rfl, h⟩
          · rintro ⟨more, htext, h⟩
            obtain ⟨rfl, rfl⟩ := cons.inj htext
            exact ⟨rfl, h⟩

/-! ### UTF-8 -/

theorem selfSync_utf8 : SelfSync String.utf8EncodeChar UInt8.IsUTF8FirstByte where
  ne_nil c := String.utf8EncodeChar_ne_nil
  lead_iff c i h := UInt8.isUTF8FirstByte_getElem_utf8EncodeChar
  eq_of_append {a b x y} h := by
    have hdecode : ∀ c more, ByteArray.utf8DecodeChar?
        ((String.utf8EncodeChar c).toByteArray ++ toByteArray more) 0 = some c := fun c more =>
      ByteArray.utf8DecodeChar?_utf8EncodeChar_append
    have ha := hdecode a x
    rw [← toByteArray_append, h, toByteArray_append, hdecode b y] at ha
    exact (Option.some.inj ha).symm

/-- The bytes of a character that is no wildcard are no wildcards. -/
theorem utf8EncodeChar_ne_wild {c : Char} (hany : c ≠ '%') (hone : c ≠ '_') :
    ∀ b ∈ String.utf8EncodeChar c, b ≠ 37 ∧ b ≠ 95 := by
  intro b hb
  constructor
  · rintro rfl
    exact hany (selfSync_utf8.eq_of_mem rfl hb)
  · rintro rfl
    exact hone (selfSync_utf8.eq_of_mem rfl hb)

theorem map_wildByte_utf8EncodeChar (c : Char) :
    (String.utf8EncodeChar c).map wildByte = encodeWild String.utf8EncodeChar (wildChar c) := by
  unfold wildChar
  split
  · next h =>
    subst h
    rfl
  · next hany =>
    split
    · next h =>
      subst h
      rfl
    · next hone =>
      rw [encodeWild]
      refine map_congr_left fun b hb => ?_
      obtain ⟨h37, h95⟩ := utf8EncodeChar_ne_wild hany hone b hb
      rw [wildByte, if_neg h37, if_neg h95]

/-- The matcher asks for the same literals as the characters do, and weighs
what is between them in bytes. -/
theorem likeMatch_iff_covers (text pattern : String) :
    likeMatch text pattern = true ↔
      Covers (fun c => [c]) (fun c => (String.utf8EncodeChar c).length)
        (runs (pattern.toList.map wildChar)).1 (runs (pattern.toList.map wildChar)).2
        text.toList := by
  have hpattern : (utf8 pattern).map wildByte =
      (pattern.toList.map wildChar).flatMap (encodeWild String.utf8EncodeChar) := by
    rw [utf8, ← bytesOf_eq, bytesOf, map_flatMap, flatMap_map]
    exact flatMap_congr fun c _ => map_wildByte_utf8EncodeChar c
  rw [likeMatch, likeRecurse_iff, hpattern, splits_iff_covers, utf8, ← bytesOf_eq, bytesOf,
    selfSync_utf8.covers_flatMap]

theorem likeSplits_iff_covers (text pattern : String) :
    LikeSplits text pattern ↔
      Covers (fun c => [c]) (fun _ => 1) (runs (pattern.toList.map wildChar)).1
        (runs (pattern.toList.map wildChar)).2 text.toList := by
  have hself : ∀ pat : List (Wild Char), pat.flatMap (encodeWild fun c => [c]) = pat := by
    intro pat
    induction pat with
    | nil => rfl
    | cons w pat ih =>
      rw [flatMap_cons, ih]
      cases w <;> rfl
  rw [LikeSplits, ← splits_iff_covers, hself]

/-- No group of wildcards between two literals has a `_`, except for one `_` beside
a `%`. -/
def PlainPattern (pattern : String) : Prop :=
  ∀ r ∈ allRuns (runs (pattern.toList.map wildChar)).1 (runs (pattern.toList.map wildChar)).2,
    r.Plain

instance : DecidablePred PlainPattern := fun _ =>
  inferInstanceAs (Decidable (∀ r ∈ allRuns _ _, Wildcards.Plain r))

/-- A pattern finds the right texts, if all its groups of wildcards are plain, and
only then; texts of ASCII characters are always told right. -/
theorem like_match_iff (pattern : String) :
    ((∀ text, likeMatch text pattern = true ↔ LikeSplits text pattern) ↔ PlainPattern pattern) ∧
      ∀ text : String, (∀ c ∈ text.toList, c.toNat < 128) →
        (likeMatch text pattern = true ↔ LikeSplits text pattern) := by
  have hpos : ∀ c, 0 < (String.utf8EncodeChar c).length := fun c =>
    length_pos_iff.mpr String.utf8EncodeChar_ne_nil
  constructor
  · have hweights := @covers_iff_plain Char _ (runs (pattern.toList.map wildChar)).1
      (runs (pattern.toList.map wildChar)).2 _ 'x' 'é' hpos rfl rfl
    rw [PlainPattern, ← hweights]
    constructor
    · intro h text
      have htext := h (String.ofList text)
      rwa [likeMatch_iff_covers, likeSplits_iff_covers, String.toList_ofList] at htext
    · intro h text
      rw [likeMatch_iff_covers, likeSplits_iff_covers]
      exact h text.toList
  · intro text hascii
    rw [likeMatch_iff_covers, likeSplits_iff_covers]
    refine covers_congr fun r _ seg hseg => ?_
    have hsame : weigh (fun c => (String.utf8EncodeChar c).length) seg =
        weigh (fun _ => 1) seg := by
      refine weigh_congr fun c hc => ?_
      rw [String.length_utf8EncodeChar, Char.utf8Size_eq_one_iff]
      have hlt := hascii c (hseg c hc)
      exact UInt32.le_iff_toNat_le.mpr (Nat.le_of_lt_succ hlt)
    rw [Wildcards.Fills, Wildcards.Fills, hsame]

theorem like_match_iff_prefix (text : String) : likeMatch text "a%" = true ↔ LikeSplits text "a%" :=
  (like_match_iff "a%").1.mpr (by decide) text

/-- The pattern `_` does not match the text of the one character `é`. -/
theorem underscore_is_a_byte :
    likeMatch "é" "_" = false ∧ LikeSplits "é" "_" ∧
      ¬ (likeMatch "é" "_" = true ↔ LikeSplits "é" "_") := by
  have hlike : likeMatch "é" "_" = false := by
    -- the two bytes of the character are one too many
    refine Bool.eq_false_iff.mpr fun h => ?_
    have hweigh : weigh (fun c => (String.utf8EncodeChar c).length) ['é'] = 1 :=
      (likeMatch_iff_covers "é" "_").mp h
    exact absurd hweigh (by decide)
  have hsplits : LikeSplits "é" "_" := ⟨[['é']], .cons rfl .nil, rfl⟩
  refine ⟨hlike, hsplits, ?_⟩
  intro h
  cases hlike.symm.trans (h.mpr hsplits)

/-! ### The leaves of a predicate -/

section Leaves

variable {columns : List String} {row : Row} {outer : List Scope}

def leafTruth (columns : List String) (row : Row) (outer : List Scope) : Expr → Option Truth
  | .cmp name op value =>
    match (column name columns row outer).toOption, value with
    | some .null, _ => some .unknown
    | some _, .null => some .unknown
    | some (.int v), .int rhs => some (.ofBool (evalCmp op v rhs))
    | some (.text v), .text rhs => some (.ofBool (evalCmp op v rhs))
    | _, _ => none
  | .cmpColumn left op right =>
    match (column left columns row outer).toOption, (column right columns row outer).toOption with
    | some .null, some _ => some .unknown
    | some _, some .null => some .unknown
    | some (.int v), some (.int w) => some (.ofBool (evalCmp op v w))
    | some (.text v), some (.text w) => some (.ofBool (evalCmp op v w))
    | _, _ => none
  | .isNull name negated =>
    (column name columns row outer).toOption.map fun v => .ofBool (v.isNull != negated)
  | .like name pattern =>
    (column name columns row outer).toOption.map fun
      | .null => .unknown
      | .text t => .ofBool (likeMatch t pattern)
      | _ => .no
  | .inInt name values =>
    (column name columns row outer).toOption.map fun
      | .null => .unknown
      | .int v => .ofBool (values.contains v)
      | _ => .no
  | .betweenInt name low high =>
    (column name columns row outer).toOption.map fun
      | .null => .unknown
      | .int v => .ofBool (decide (low ≤ v) && decide (v ≤ high))
      | _ => .no
  | .agg func name =>
    (column (aggDefaultAlias func name) columns row outer).toOption.map fun v => .ofBool !v.isNull
  | _ => none

theorem toOption_eq_some {E A : Type} {x : Except E A} {a : A} (h : x.toOption = some a) :
    x = .ok a := by
  cases x with
  | ok b =>
    cases h
    rfl
  | error e => cases h

theorem evalExprScoped_leaf {t : Truth} :
    ∀ {e : Expr}, leafTruth columns row outer e = some t →
      evalExprScoped columns row outer e = .ok (t.decided false)
  | .cmp name op value, h => by
    unfold leafTruth at h
    dsimp only at h
    rw [evalExprScoped]
    split at h
    · next hv =>
      cases h
      rw [toOption_eq_some hv]
      rfl
    · next v hnull hv =>
      cases h
      rw [toOption_eq_some hv]
      cases v <;> rfl
    · next v rhs hv =>
      cases h
      rw [toOption_eq_some hv, Truth.decided_ofBool]
      rfl
    · next v rhs hv =>
      cases h
      rw [toOption_eq_some hv, Truth.decided_ofBool]
      rfl
    · cases h
  | .cmpColumn left op right, h => by
    unfold leafTruth at h
    dsimp only at h
    rw [evalExprScoped]
    split at h
    · next w hv hw =>
      cases h
      rw [toOption_eq_some hv, toOption_eq_some hw]
      cases w <;> rfl
    · next v hnull hv hw =>
      cases h
      rw [toOption_eq_some hv, toOption_eq_some hw]
      cases v <;> rfl
    · next v w hv hw =>
      cases h
      rw [toOption_eq_some hv, toOption_eq_some hw, Truth.decided_ofBool]
      rfl
    · next v w hv hw =>
      cases h
      rw [toOption_eq_some hv, toOption_eq_some hw, Truth.decided_ofBool]
      rfl
    · cases h
  | .isNull name negated, h => by
    obtain ⟨v, hv, rfl⟩ := Option.map_eq_some_iff.mp h
    rw [evalExprScoped, toOption_eq_some hv, ok_bind, Truth.decided_ofBool]
  | .like name pattern, h => by
    obtain ⟨v, hv, rfl⟩ := Option.map_eq_some_iff.mp h
    rw [evalExprScoped, toOption_eq_some hv, ok_bind]
    cases v with
    | text t => rw [Truth.decided_ofBool]
    | _ => rfl
  | .inInt name values, h => by
    obtain ⟨v, hv, rfl⟩ := Option.map_eq_some_iff.mp h
    rw [evalExprScoped, toOption_eq_some hv, ok_bind]
    cases v with
    | int i => rw [Truth.decided_ofBool]
    | _ => rfl
  | .betweenInt name low high, h => by
    obtain ⟨v, hv, rfl⟩ := Option.map_eq_some_iff.mp h
    rw [evalExprScoped, toOption_eq_some hv, ok_bind]
    cases v with
    | int i => rw [Truth.decided_ofBool]
    | _ => rfl
  | .agg func name, h => by
    obtain ⟨v, hv, rfl⟩ := Option.map_eq_some_iff.mp h
    rw [evalExprScoped, toOption_eq_some hv, ok_bind, Truth.decided_ofBool]
  | .and .., h => by cases h
  | .or .., h => by cases h
  | .not .., h => by cases h
  | .exists .., h => by cases h
  | .inSubquery .., h => by cases h
  | .scalarCmp .., h => by cases h

end Leaves

/-! ### Predicates -/

namespace Expr

variable {columns : List String} {row : Row} {outer : List Scope} {e : Expr}

/-- The predicate as a formula over its leaves. -/
def formula : Expr → Formula Expr
  | .and l r => .and l.formula r.formula
  | .or l r => .or l.formula r.formula
  | .not inner => .not inner.formula
  | e => .leaf e

def Defined (columns : List String) (row : Row) (outer : List Scope) (e : Expr) : Prop :=
  ∀ l ∈ e.formula.leaves, (leafTruth columns row outer l).isSome

/-- The truth values of the leaves. -/
def truth (columns : List String) (row : Row) (outer : List Scope) (l : Expr) : Truth :=
  (leafTruth columns row outer l).getD .unknown

/-- The value of the predicate in three-valued logic. -/
def kleene (columns : List String) (row : Row) (e : Expr) : Truth :=
  e.formula.kleene (truth columns row [])

theorem evalExprScoped_of_leaf (hformula : e.formula = .leaf e) (h : e.Defined columns row outer) :
    evalExprScoped columns row outer e =
      .ok (e.formula.taking (truth columns row outer) false false) := by
  have hsome := h e (by rw [hformula]; exact mem_cons_self)
  obtain ⟨t, ht⟩ := Option.isSome_iff_exists.mp hsome
  rw [evalExprScoped_leaf ht, hformula, Formula.taking, truth, ht]
  rfl

theorem evalExprScoped_eq : ∀ {e : Expr}, e.Defined columns row outer →
    evalExprScoped columns row outer e =
      .ok (e.formula.taking (truth columns row outer) false false)
  | .and l r, h => by
    have hl := evalExprScoped_eq (e := l) fun x hx => h x (mem_append_left _ hx)
    have hr := evalExprScoped_eq (e := r) fun x hx => h x (mem_append_right _ hx)
    rw [evalExprScoped, hl, hr, ok_bind, formula, Formula.taking]
    cases l.formula.taking (truth columns row outer) false false <;> rfl
  | .or l r, h => by
    have hl := evalExprScoped_eq (e := l) fun x hx => h x (mem_append_left _ hx)
    have hr := evalExprScoped_eq (e := r) fun x hx => h x (mem_append_right _ hx)
    rw [evalExprScoped, hl, hr, ok_bind, formula, Formula.taking]
    cases l.formula.taking (truth columns row outer) false false <;> rfl
  | .not inner, h => by
    have hinner := evalExprScoped_eq (e := inner) h
    rw [evalExprScoped, hinner, ok_bind, formula, Formula.taking]
  | .cmp .., h => evalExprScoped_of_leaf rfl h
  | .cmpColumn .., h => evalExprScoped_of_leaf rfl h
  | .isNull .., h => evalExprScoped_of_leaf rfl h
  | .like .., h => evalExprScoped_of_leaf rfl h
  | .inInt .., h => evalExprScoped_of_leaf rfl h
  | .betweenInt .., h => evalExprScoped_of_leaf rfl h
  | .agg .., h => evalExprScoped_of_leaf rfl h
  | .exists .., h => evalExprScoped_of_leaf rfl h
  | .inSubquery .., h => evalExprScoped_of_leaf rfl h
  | .scalarCmp .., h => evalExprScoped_of_leaf rfl h

/-- The truth of no unknown leaf under an odd number of `NOT`s matters on the row. -/
def Indifferent (columns : List String) (row : Row) (e : Expr) : Prop :=
  e.formula.Indifferent (truth columns row [])

/-- `WHERE` keeps the rows on which the predicate is true in three-valued logic,
exactly if no unknown leaf under an odd number of `NOT`s matters. -/
theorem where_kleene_iff (h : e.Defined columns row []) :
    (evalExpr e columns row = .ok true ↔ e.kleene columns row = .yes) ↔
      e.Indifferent columns row := by
  rw [evalExpr, evalExprScoped_eq h, Except.ok.injEq, kleene, Indifferent]
  exact Formula.taking_false_iff

/-- `a = 1`. -/
def aIsOne : Expr :=
  .cmp "a" .eq (.int 1)

theorem where_kleene_iff_one :
    evalExpr (.not aIsOne) ["a"] [.int 2] = .ok true ↔
      (Expr.not aIsOne).kleene ["a"] [.int 2] = .yes := by
  refine (where_kleene_iff ?_).mpr rfl
  intro l hl
  obtain rfl := mem_singleton.mp hl
  rfl

/-- `NOT a = 1` keeps the row on which `a` is `NULL`. -/
theorem not_null_comparison_is_true :
    (Expr.not aIsOne).Defined ["a"] [.null] [] ∧
      evalExpr (.not aIsOne) ["a"] [.null] = .ok true ∧
      (Expr.not aIsOne).kleene ["a"] [.null] = .unknown ∧
      ¬ (evalExpr (.not aIsOne) ["a"] [.null] = .ok true ↔
        (Expr.not aIsOne).kleene ["a"] [.null] = .yes) := by
  refine ⟨?_, rfl, rfl, ?_⟩
  · intro l hl
    obtain rfl := mem_singleton.mp hl
    rfl
  · intro h
    cases h.mp rfl

end Expr

end Oikos.Archon.Relational
