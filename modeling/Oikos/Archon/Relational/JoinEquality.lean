/-
Joins.  A query joins tables by the equality of stored values, while `WHERE`
compares values by the rules of SQL; the two agree on two integers, on two
texts, and where just one of the values is `NULL`.
-/
import Oikos.Archon.Relational.Grouping
import Oikos.Archon.Relational.Pipelines

namespace Oikos.Archon.Relational

open List Option

/-! ### Two kinds of equality -/

namespace Value

/-- Two integers, two texts, or just one `NULL`. -/
def comparable : Value → Value → Bool
  | .int _, .int _ => true
  | .text _, .text _ => true
  | .null, w => !w.isNull
  | v, .null => !v.isNull
  | _, _ => false

end Value

section Equality

variable {names : List String} {row : Row} {a b : String} {v w : Value}

/-- `WHERE a = b` agrees with the equality of values on comparable ones only. -/
theorem evalExpr_eq_iff (ha : column a names row [] = .ok v) (hb : column b names row [] = .ok w) :
    evalExpr (.cmpColumn a .eq b) names row = .ok (v.eq w) ↔ v.comparable w = true := by
  rw [evalExpr, evalExprScoped, ha, hb, ok_bind, ok_bind]
  cases v <;> cases w <;> unfold Value.eq Value.comparable
  case int.int i j =>
    have heq : evalCmp .eq i j = (i == j) := by
      rw [evalCmp, CmpOp.holds, Bool.eq_iff_iff, beq_iff_eq, beq_iff_eq,
        Std.LawfulEqCmp.compare_eq_iff_eq]
    simp only [heq]
  case text.text t u =>
    have heq : evalCmp .eq t u = (t == u) := by
      rw [evalCmp, CmpOp.holds, Bool.eq_iff_iff, beq_iff_eq, beq_iff_eq,
        Std.LawfulEqCmp.compare_eq_iff_eq]
    simp only [heq]
  all_goals simp [Value.isNull]

/-- What `WHERE a = b` keeps has equal values. -/
theorem eq_of_evalExpr (ha : column a names row [] = .ok v) (hb : column b names row [] = .ok w)
    (h : evalExpr (.cmpColumn a .eq b) names row = .ok true) : v.eq w = true := by
  have hcomparable : v.comparable w = true := by
    rw [evalExpr, evalExprScoped, ha, hb, ok_bind, ok_bind] at h
    cases v <;> cases w <;> first | rfl | cases h
  exact Except.ok.inj (((evalExpr_eq_iff ha hb).mpr hcomparable).symm.trans h)

end Equality

/-! ### Filters -/

section Filters

variable {P : Type} {ps : List P} {join : P → Bool} {combine : P → Row}
  {keep : Row → Result ExecError Bool} {rows : List Row}

theorem length_filterRows_le (hsub : ∀ p ∈ ps, keep (combine p) = .ok true → join p = true)
    (h : filterRows keep (ps.map combine) = .ok rows) : rows.length ≤ (ps.filter join).length := by
  induction ps generalizing rows with
  | nil =>
    cases h
    exact le_refl _
  | cons p ps ih =>
    obtain ⟨b, hb, h⟩ := bind_eq_ok.mp h
    obtain ⟨rest, hrest, h⟩ := bind_eq_ok.mp h
    cases h
    have hle := ih (fun q hq => hsub q (mem_cons_of_mem p hq)) hrest
    have hmono : (ps.filter join).length ≤ ((p :: ps).filter join).length :=
      ((sublist_cons_self p ps).filter join).length_le
    cases b with
    | false => exact hle.trans hmono
    | true =>
      rw [filter_cons, if_pos (hsub p mem_cons_self hb)]
      exact Nat.succ_le_succ hle

theorem filterRows_eq_filter_iff
    (hsub : ∀ p ∈ ps, keep (combine p) = .ok true → join p = true) :
    filterRows keep (ps.map combine) = .ok ((ps.filter join).map combine) ↔
      ∀ p ∈ ps, keep (combine p) = .ok (join p) := by
  induction ps with
  | nil => simp [filterRows]
  | cons p ps ih =>
    have ih := ih fun q hq => hsub q (mem_cons_of_mem p hq)
    rw [forall_mem_cons, map_cons, filterRows, filter_cons]
    constructor
    · intro h
      obtain ⟨b, hb, h⟩ := bind_eq_ok.mp h
      obtain ⟨rest, hrest, h⟩ := bind_eq_ok.mp h
      cases b with
      | true =>
        have hjoin := hsub p mem_cons_self hb
        rw [if_pos hjoin] at h
        obtain rfl := (cons.inj (Except.ok.inj h)).2
        exact ⟨hb.trans (congrArg _ hjoin.symm), ih.mp hrest⟩
      | false =>
        -- a row that only the join keeps makes its result longer
        have hle := length_filterRows_le
          (fun q hq => hsub q (mem_cons_of_mem p hq)) hrest
        cases hjoin : join p with
        | true =>
          rw [hjoin, if_pos rfl] at h
          have hlen := congrArg length (Except.ok.inj h)
          simp only [Bool.false_eq_true, if_false, map_cons, length_cons,
            length_map] at hlen
          omega
        | false =>
          rw [hjoin] at h
          obtain rfl := Except.ok.inj h
          exact ⟨hb, ih.mp hrest⟩
    · rintro ⟨hp, hps⟩
      rw [hp, ok_bind, ih.mpr hps, ok_bind]
      cases join p <;> rfl

theorem collect_filter {E : Type} (ps : List P) (join : P → Bool) (combine : P → Row) :
    collect (fun p => (.ok (if join p then some (combine p) else none) : Result E (Option Row)))
      ps = .ok ((ps.filter join).map combine) := by
  induction ps with
  | nil => rfl
  | cons p ps ih =>
    rw [collect, ih, ok_bind, ok_bind, filter_cons]
    cases join p <;> rfl

end Filters

/-! ### Joins -/

/-- The pairs of the nested loop. -/
def crossProduct (rows joinRows : List Row) : List (Row × Row) :=
  rows.flatMap fun lrow => joinRows.map fun jrow => (lrow, jrow)

/-- The rows of the cross product on which `WHERE a = b` holds. -/
def crossWhere (names : List String) (a b : String) (rows joinRows : List Row) :
    Result ExecError (List Row) :=
  filterRows (evalExpr (.cmpColumn a .eq b) names)
    ((crossProduct rows joinRows).map fun p => p.1 ++ p.2)

/-- Among the names of the columns of the cross product, `a` and `b` name those
that the join compares. -/
structure NamesJoined (columns joinCols : List String) (join : Join) (names : List String)
    (a b : String) : Prop where
  left : ∃ i, columns.findIdx? (· == join.leftCol) = some i ∧ names.findIdx? (· == a) = some i
  right : ∃ j, joinCols.findIdx? (· == join.rightCol) = some j ∧
    names.findIdx? (· == b) = some (columns.length + j)

namespace Database

variable {db : Database} {exec : RunSelect} {ctes : List CTE} {columns joinCols names : List String}
  {rows joinRows : List Row} {join : Join} {a b : String}

theorem namesJoined_own (hleft : join.leftCol ∈ columns) (hright : join.rightCol ∈ joinCols)
    (hnew : join.table.name ++ "." ++ join.rightCol ∉ columns) :
    NamesJoined columns joinCols join
      (columns ++ joinCols.map fun c => join.table.name ++ "." ++ c) join.leftCol
      (join.table.name ++ "." ++ join.rightCol) where
  left := by
    obtain ⟨i, hi⟩ := findIdx?_of_mem hleft
    exact ⟨i, hi, by rw [findIdx?_append, hi]; rfl⟩
  right := by
    obtain ⟨j, hj⟩ := findIdx?_of_mem hright
    refine ⟨j, hj, ?_⟩
    have hnone : columns.findIdx? (· == join.table.name ++ "." ++ join.rightCol) = none := by
      rw [findIdx?_eq_none_iff]
      intro c hc
      exact beq_eq_false_iff_ne.mpr fun heq => hnew (heq ▸ hc)
    have hsame : ((fun c => c == join.table.name ++ "." ++ join.rightCol) ∘
        fun c => join.table.name ++ "." ++ c) = (· == join.rightCol) := by
      funext c
      rw [Function.comp_apply, Bool.eq_iff_iff, beq_iff_eq, beq_iff_eq]
      exact String.append_right_inj _
    rw [findIdx?_append, hnone, findIdx?_map, hsame, hj]
    simp [add_comm]

/-- The join returns what `WHERE a = b` keeps of the cross product: the same rows,
or the same error. -/
def JoinsLikeWhere (db : Database) (exec : RunSelect) (ctes : List CTE) (columns : List String)
    (rows : List Row) (join : Join) (joinRows : List Row) (names : List String) (a b : String) :
    Prop :=
  (db.joinTable exec ctes (columns, rows) join).map Prod.snd =
    mapErr DbError.ofExecError (crossWhere names a b rows joinRows)

theorem joined_values (hnames : NamesJoined columns joinCols join names a b) {l r : Row}
    (hl : l.length = columns.length) (hr : r.length = joinCols.length) :
    ∃ v w, valueAt columns join.leftCol l = some v ∧ valueAt joinCols join.rightCol r = some w ∧
      column a names (l ++ r) [] = .ok v ∧ column b names (l ++ r) [] = .ok w := by
  obtain ⟨i, hi, ha⟩ := hnames.left
  obtain ⟨j, hj, hb⟩ := hnames.right
  have hilt : i < l.length := hl ▸ (findIdx?_eq_some_iff_getElem.mp hi).1
  have hjlt : j < r.length := hr ▸ (findIdx?_eq_some_iff_getElem.mp hj).1
  have hv : (l ++ r)[i]? = some (l.get ⟨i, hilt⟩) := by
    rw [getElem?_append_left hilt, getElem?_eq_getElem hilt]
    rfl
  have hw : (l ++ r)[columns.length + j]? = some (r.get ⟨j, hjlt⟩) := by
    rw [← hl, getElem?_append_right (Nat.le_add_right _ _), Nat.add_sub_cancel_left,
      getElem?_eq_getElem hjlt]
    rfl
  refine ⟨l.get ⟨i, hilt⟩, r.get ⟨j, hjlt⟩, ?_, ?_, ?_, ?_⟩
  · rw [valueAt, hi, bind_some, getElem?_eq_getElem hilt]
    rfl
  · rw [valueAt, hj, bind_some, getElem?_eq_getElem hjlt]
    rfl
  · simp only [column, findValue, ha, index_eq_ok hv, ok_bind]
  · simp only [column, findValue, hb, index_eq_ok hw, ok_bind]

/-- The join keeps the pair: its compared values are equal. -/
def joinedPair (columns joinCols : List String) (join : Join) (p : Row × Row) : Bool :=
  ((valueAt columns join.leftCol p.1).getD .null).eq
    ((valueAt joinCols join.rightCol p.2).getD .null)

theorem mem_crossProduct {p : Row × Row} :
    p ∈ crossProduct rows joinRows ↔ p.1 ∈ rows ∧ p.2 ∈ joinRows := by
  constructor
  · intro hp
    obtain ⟨l, hl, hp⟩ := mem_flatMap.mp hp
    obtain ⟨r, hr, rfl⟩ := mem_map.mp hp
    exact ⟨hl, hr⟩
  · rintro ⟨hl, hr⟩
    exact mem_flatMap.mpr ⟨p.1, hl, mem_map.mpr ⟨p.2, hr, rfl⟩⟩

theorem joinTable_rows
    (hjoin : db.resolveTableRefWithCtes exec ctes join.table = .ok (joinCols, joinRows))
    (hleft : Table.Even ⟨columns, rows⟩) (hright : Table.Even ⟨joinCols, joinRows⟩)
    (hnames : NamesJoined columns joinCols join names a b) :
    (db.joinTable exec ctes (columns, rows) join).map Prod.snd =
      .ok (((crossProduct rows joinRows).filter (joinedPair columns joinCols join)).map
        fun p => p.1 ++ p.2) := by
  obtain ⟨i, hi, _⟩ := hnames.left
  obtain ⟨j, hj, _⟩ := hnames.right
  have hcollect : collect (fun (p : Row × Row) => do
      let l ← index p.1 i
      let r ← index p.2 j
      .ok (if l.eq r then some (p.1 ++ p.2) else none)) (crossProduct rows joinRows) =
      (.ok (((crossProduct rows joinRows).filter (joinedPair columns joinCols join)).map
        fun p => p.1 ++ p.2) : Result DbError (List Row)) := by
    rw [← collect_filter]
    apply collect_congr
    intro p hp
    obtain ⟨hl, hr⟩ := mem_crossProduct.mp hp
    obtain ⟨v, w, hv, hw, _⟩ := joined_values hnames (hleft p.1 hl) (hright p.2 hr)
    have hkeep : joinedPair columns joinCols join p = v.eq w := by
      rw [joinedPair, hv, hw, getD_some, getD_some]
    rw [valueAt, hi, bind_some] at hv
    rw [valueAt, hj, bind_some] at hw
    rw [index_eq_ok hv, ok_bind, index_eq_ok hw, ok_bind, hkeep]
  simp only [joinTable, hjoin, columnPosition, hi, hj, ok_bind]
  change (collect _ (crossProduct rows joinRows) >>= _).map Prod.snd = _
  rw [hcollect]
  rfl

theorem ok_eq_mapErr {E E' A : Type} {g : E → E'} {x : Result E A} {value : A} :
    Except.ok value = mapErr g x ↔ x = .ok value := by
  constructor
  · intro h
    cases x with
    | ok kept => exact congrArg _ (Except.ok.inj h).symm
    | error stop => cases stop <;> cases h
  · rintro rfl
    rfl

/-- A join is `WHERE` on the cross product exactly when every pair of compared
values consists of two integers, of two texts, or of `NULL` and another value. -/
theorem join_like_where_iff
    (hjoin : db.resolveTableRefWithCtes exec ctes join.table = .ok (joinCols, joinRows))
    (hleft : Table.Even ⟨columns, rows⟩) (hright : Table.Even ⟨joinCols, joinRows⟩)
    (hnames : NamesJoined columns joinCols join names a b) :
    db.JoinsLikeWhere exec ctes columns rows join joinRows names a b ↔
      ∀ l ∈ rows, ∀ r ∈ joinRows, ∀ v w, valueAt columns join.leftCol l = some v →
        valueAt joinCols join.rightCol r = some w → v.comparable w = true := by
  rw [JoinsLikeWhere, joinTable_rows hjoin hleft hright hnames, ok_eq_mapErr, crossWhere,
    filterRows_eq_filter_iff]
  · constructor
    · intro h l hl r hr v w hv hw
      have hpair := h (l, r) (mem_crossProduct.mpr ⟨hl, hr⟩)
      obtain ⟨v', w', hv', hw', ha, hb⟩ := joined_values hnames (hleft l hl) (hright r hr)
      obtain rfl := some.inj (hv.symm.trans hv')
      obtain rfl := some.inj (hw.symm.trans hw')
      simp only [joinedPair, hv, hw, getD_some] at hpair
      exact (evalExpr_eq_iff ha hb).mp hpair
    · intro h p hp
      obtain ⟨hl, hr⟩ := mem_crossProduct.mp hp
      obtain ⟨v, w, hv, hw, ha, hb⟩ := joined_values hnames (hleft p.1 hl) (hright p.2 hr)
      simp only [joinedPair, hv, hw, getD_some]
      exact (evalExpr_eq_iff ha hb).mpr (h p.1 hl p.2 hr v w hv hw)
  · intro p hp hkeep
    obtain ⟨hl, hr⟩ := mem_crossProduct.mp hp
    obtain ⟨v, w, hv, hw, ha, hb⟩ := joined_values hnames (hleft p.1 hl) (hright p.2 hr)
    simp only [joinedPair, hv, hw, getD_some]
    exact eq_of_evalExpr ha hb hkeep

/-- `JOIN u ON a = b`. -/
def joinU : Join :=
  ⟨.inner, .named "u" none, "a", "b"⟩

theorem namesJoined_joinU :
    NamesJoined ["id", "a"] ["id", "b"] joinU ["id", "a", "u.id", "u.b"] "a" "u.b" :=
  namesJoined_own (by decide) (by decide) (by decide)

/-- The tables `t` and `u` with the columns `a` and `b` of integers. -/
def tablesTU : Database :=
  (empty.runCreateTable ⟨"t", [⟨"a", .int⟩]⟩).1.runCreateTable ⟨"u", [⟨"b", .int⟩]⟩ |>.1

/-- Rows that join on equal integers. -/
theorem join_like_where_iff_ints :
    ∃ db rs, run 1 tablesTU [(.insert ⟨"t", [], [.int 1, .int 2]⟩, []),
        (.insert ⟨"u", [], [.int 1, .int 2]⟩, [])] = .ok (db, rs) ∧
      db.JoinsLikeWhere (db.runSelectScoped 0) [] ["id", "a"] [[.int 1, .int 2]] joinU
        [[.int 1, .int 2]] ["id", "a", "u.id", "u.b"] "a" "u.b" := by
  refine ⟨_, _, rfl, ?_⟩
  refine (@join_like_where_iff _ _ _ _ ["id", "b"] _ _ _ _ _ _ rfl ?_ ?_ namesJoined_joinU).mpr ?_
  · simp [Table.Even]
  · simp [Table.Even]
  · intro l hl r hr v w hv hw
    obtain rfl := mem_singleton.mp hl
    obtain rfl := mem_singleton.mp hr
    cases hv
    cases hw
    rfl

/-- `SELECT * FROM t JOIN u ON a = b` on two rows that hold `NULL`: the join
returns their pair, and `WHERE a = u.b` would not. -/
theorem join_matches_nulls :
    ∃ db rs, run 1 tablesTU [(.insert ⟨"t", [], [.int 1, .null]⟩, []),
        (.insert ⟨"u", [], [.int 1, .null]⟩, [])] = .ok (db, rs) ∧
      db.runSelect 1 { selectAll (.named "t" none) with joins := [joinU] } [] =
        .ok ⟨["id", "a", "u.id", "u.b"], [[.int 1, .null, .int 1, .null]]⟩ ∧
      db.scanTable "t" = .ok (["id", "a"], [[.int 1, .null]]) ∧
      db.scanTable "u" = .ok (["id", "b"], [[.int 1, .null]]) ∧
      crossWhere ["id", "a", "u.id", "u.b"] "a" "u.b" [[.int 1, .null]] [[.int 1, .null]] =
        .ok [] ∧
      ¬ db.JoinsLikeWhere (db.runSelectScoped 0) [] ["id", "a"] [[.int 1, .null]] joinU
        [[.int 1, .null]] ["id", "a", "u.id", "u.b"] "a" "u.b" := by
  refine ⟨_, _, rfl, rfl, rfl, rfl, rfl, ?_⟩
  intro h
  cases h

end Database

end Oikos.Archon.Relational
