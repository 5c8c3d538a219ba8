/-
The grammar of the SQL dialect over lexemes: the statements that the parser
module documents, and for the rest the forms that the syntax trees document.
-/
import Oikos.Archon.Relational.Lexemes

namespace Oikos.Archon.Relational

/-! ### Names and literals -/

/-- Any word may be a name. -/
def anyWord (_ : String) : Bool :=
  true

def columnWord (s : String) : Bool :=
  !isKw s && (aggregateFunc s).isNone

/-- The word is not `NULL`. -/
def valueWord (s : String) : Bool :=
  !eqIgnoreCase s "null"

/-- A name, possibly qualified, whose first word satisfies `p`. -/
inductive Name : (String → Bool) → String → List Lexeme → Prop
  | one {p m s} : m.Is (.ident s) → p s = true → Name p s [m]
  | field {p m s d f ls} : m.Is (.ident s) → p s = true → d.Is .dot → Name anyWord f ls →
      Name p (s ++ "." ++ f) (m :: d :: ls)

def Element (x : F32) (text : List Char) : Prop :=
  ',' ∉ text ∧ f32FromStr (trim text) = some x

inductive VectorText : List F32 → List Char → Prop
  | empty {content} : content.dropWhile isAsciiWhitespace = [] → VectorText [] content
  | elements {vals content} : SepBy (· = ',') Element vals content → VectorText vals content

inductive Lit : Literal → List Lexeme → Prop
  | int {v m} : m.Is (.int v) → Lit (.int v) [m]
  | text {s m} : m.Is (.text s) → Lit (.text s) [m]
  | vector {vals content} : VectorText vals content → Lit (.vector vals) [.bracket content]
  | null {m} : m.IsWord "null" → Lit .null [m]

/-- `*` or a column, as the argument of an aggregate. -/
inductive Argument : String → List Lexeme → Prop
  | star {m} : m.Is .star → Argument "*" [m]
  | column {c ls} : Name anyWord c ls → Argument c ls

inductive Call : AggregateFunc → String → List Lexeme → Prop
  | mk {m f func l column ls r} : m.Is (.ident f) → aggregateFunc f = some func → l.Is .lparen →
      Argument column ls → r.Is .rparen → Call func column (m :: l :: (ls ++ [r]))

/-! ### Select lists -/

inductive SelectItem where
  | column (name : String) (aliasName : Option String)
  | aggregate (func : AggregateFunc) (column : String) (aliasName : Option String)
deriving Repr, DecidableEq

namespace SelectItem

def label : SelectItem → String
  | .column name aliasName => aliasName.getD name
  | .aggregate func _ aliasName => aliasName.getD func.label

def toAggregate : SelectItem → Option Aggregate
  | .column _ _ => none
  | .aggregate func arg aliasName => some ⟨aliasName.getD func.label, func, arg⟩

end SelectItem

/-- `AS name`, if an alias is given. -/
inductive Alias : Option String → List Lexeme → Prop
  | none : Alias .none []
  | some {k name ls} : k.IsWord "as" → Name anyWord name ls → Alias (.some name) (k :: ls)

inductive Item : SelectItem → List Lexeme → Prop
  | column {name ls aliasName la} : Name anyWord name ls → Alias aliasName la →
      Item (.column name aliasName) (ls ++ la)
  | aggregate {func column ls aliasName la} : Call func column ls → Alias aliasName la →
      Item (.aggregate func column aliasName) (ls ++ la)

/-- `*`, or items separated by commas. -/
inductive SelectList : List String → Bool → List Aggregate → List Lexeme → Prop
  | star {m} : m.Is .star → SelectList [] true [] [m]
  | items {items ls} : SepBy (Lexeme.Is .comma) Item items ls →
      SelectList (items.map SelectItem.label) false (items.filterMap SelectItem.toAggregate) ls

/-! ### Clauses -/

inductive Clause where
  | filter (e : Expr)
  | groupBy (columns : List String)
  | having (e : Expr)
  | orderBy (columns : List OrderBy)
  | cosine (c : OrderByCosine)
  | limit (k : UInt64)

namespace Clause

def apply (stmt : SelectStatement) : Clause → SelectStatement
  | .filter e => { stmt with filter := some e }
  | .groupBy columns => { stmt with groupBy := stmt.groupBy ++ columns }
  | .having e => { stmt with having := some e }
  | .orderBy columns => { stmt with orderBy := stmt.orderBy ++ columns }
  | .cosine c => { stmt with orderByCosine := some c }
  | .limit k => { stmt with limit := some k }

end Clause

inductive Direction : Bool → List Lexeme → Prop
  | none : Direction false []
  | asc {m} : m.IsWord "asc" → Direction false [m]
  | desc {m} : m.IsWord "desc" → Direction true [m]

inductive OrderItem : OrderBy → List Lexeme → Prop
  | mk {m name descending ls} : m.Is (.ident name) → Direction descending ls →
      OrderItem ⟨name, descending⟩ (m :: ls)

/-! ### Expressions and queries -/

/-- How tightly an expression binds. -/
inductive Rank where
  | disj
  | conj
  | unary

/-- The phrases that contain one another. -/
inductive Phrase where
  | expr (rank : Rank) (e : Expr)
  | table (t : TableRef)
  | joins (js : List Join)
  | clause (c : Clause)
  | clauses (cs : List Clause)
  | select (stmt : SelectStatement)

/-- The lexemes are the phrase.  The last argument has the clauses of every query
in it, as they come. -/
inductive Derives : Phrase → List Lexeme → List (List Clause) → Prop
  | or {l ll ql k r lr qr} : Derives (.expr .disj l) ll ql → k.IsWord "or" →
      Derives (.expr .conj r) lr qr → Derives (.expr .disj (.or l r)) (ll ++ k :: lr) (ql ++ qr)
  | disj {e ls q} : Derives (.expr .conj e) ls q → Derives (.expr .disj e) ls q
  | and {l ll ql k r lr qr} : Derives (.expr .conj l) ll ql → k.IsWord "and" →
      Derives (.expr .unary r) lr qr → Derives (.expr .conj (.and l r)) (ll ++ k :: lr) (ql ++ qr)
  | conj {e ls q} : Derives (.expr .unary e) ls q → Derives (.expr .conj e) ls q
  | not {k e ls q} : k.IsWord "not" → Derives (.expr .unary e) ls q →
      Derives (.expr .unary (.not e)) (k :: ls) q
  | paren {l e ls q r} : l.Is .lparen → Derives (.expr .disj e) ls q → r.Is .rparen →
      Derives (.expr .unary e) (l :: (ls ++ [r])) q
  | exists {k l w stmt ls q r} : k.IsWord "exists" → l.Is .lparen → w.IsWord "select" →
      Derives (.select stmt) ls q → r.Is .rparen →
      Derives (.expr .unary (.exists stmt)) (k :: l :: w :: (ls ++ [r])) q
  | agg {func column ls} : Call func column ls → Derives (.expr .unary (.agg func column)) ls []
  | aggCmp {func column ls op o value lv} : Call func column ls → o.Is (.op op) → Lit value lv →
      Derives (.expr .unary (.cmp (aggDefaultAlias func column) op value)) (ls ++ o :: lv) []
  | isNull {column ls k n} : Name columnWord column ls → k.IsWord "is" → n.IsWord "null" →
      Derives (.expr .unary (.isNull column false)) (ls ++ [k, n]) []
  | isNotNull {column ls k w n} : Name columnWord column ls → k.IsWord "is" → w.IsWord "not" →
      n.IsWord "null" → Derives (.expr .unary (.isNull column true)) (ls ++ [k, w, n]) []
  | eqNull {column ls o n} : Name columnWord column ls → o.Is (.op .eq) → n.IsWord "null" →
      Derives (.expr .unary (.isNull column false)) (ls ++ [o, n]) []
  | neNull {column ls o n} : Name columnWord column ls → o.Is (.op .ne) → n.IsWord "null" →
      Derives (.expr .unary (.isNull column true)) (ls ++ [o, n]) []
  | like {column ls k pattern m} : Name columnWord column ls → k.IsWord "like" →
      m.Is (.text pattern) → Derives (.expr .unary (.like column pattern)) (ls ++ [k, m]) []
  | between {column ls k low l a high h} : Name columnWord column ls → k.IsWord "between" →
      l.Is (.int low) → a.IsWord "and" → h.Is (.int high) →
      Derives (.expr .unary (.betweenInt column low high)) (ls ++ [k, l, a, h]) []
  | inInt {column ls k l values lv r} : Name columnWord column ls → k.IsWord "in" → l.Is .lparen →
      SepBy (Lexeme.Is .comma) (fun v ms => ∃ m, ms = [m] ∧ m.Is (.int v)) values lv →
      r.Is .rparen →
      Derives (.expr .unary (.inInt column values)) (ls ++ k :: l :: (lv ++ [r])) []
  | inSubquery {column ls k l w stmt lq q r} : Name columnWord column ls → k.IsWord "in" →
      l.Is .lparen → w.IsWord "select" → Derives (.select stmt) lq q → r.Is .rparen →
      Derives (.expr .unary (.inSubquery column stmt)) (ls ++ k :: l :: w :: (lq ++ [r])) q
  | cmpInt {column ls op o v m} : Name columnWord column ls → o.Is (.op op) → m.Is (.int v) →
      Derives (.expr .unary (.cmp column op (.int v))) (ls ++ [o, m]) []
  | cmpText {column ls op o s m} : Name columnWord column ls → o.Is (.op op) → m.Is (.text s) →
      Derives (.expr .unary (.cmp column op (.text s))) (ls ++ [o, m]) []
  | cmpColumn {column ls op o right lr} : Name columnWord column ls → o.Is (.op op) →
      Name valueWord right lr →
      Derives (.expr .unary (.cmpColumn column op right)) (ls ++ o :: lr) []
  | scalarCmp {column ls op o l w stmt lq q r} : Name columnWord column ls → o.Is (.op op) →
      l.Is .lparen → w.IsWord "select" → Derives (.select stmt) lq q → r.Is .rparen →
      Derives (.expr .unary (.scalarCmp column op stmt)) (ls ++ o :: l :: w :: (lq ++ [r])) q
  | named {m name aliasName la} : m.Is (.ident name) → Alias aliasName la →
      Derives (.table (.named name aliasName)) (m :: la) []
  | subquery {l w stmt ls q r k aliasName la} : l.Is .lparen → w.IsWord "select" →
      Derives (.select stmt) ls q → r.Is .rparen → k.IsWord "as" → Name anyWord aliasName la →
      Derives (.table (.subquery stmt aliasName)) (l :: w :: (ls ++ r :: k :: la)) q
  | noJoins : Derives (.joins []) [] []
  | join {k t lt qt o left ll e right lr js lj qj} : k.IsWord "join" → Derives (.table t) lt qt →
      o.IsWord "on" → Name anyWord left ll → e.Is (.op .eq) → Name anyWord right lr →
      Derives (.joins js) lj qj →
      Derives (.joins (⟨.inner, t, left, right⟩ :: js))
        (k :: (lt ++ o :: (ll ++ e :: (lr ++ lj)))) (qt ++ qj)
  | filter {k e ls q} : k.IsWord "where" → Derives (.expr .disj e) ls q →
      Derives (.clause (.filter e)) (k :: ls) q
  | groupBy {k b columns ls} : k.IsWord "group" → b.IsWord "by" →
      SepBy (Lexeme.Is .comma) (Name anyWord) columns ls →
      Derives (.clause (.groupBy columns)) (k :: b :: ls) []
  | having {k e ls q} : k.IsWord "having" → Derives (.expr .disj e) ls q →
      Derives (.clause (.having e)) (k :: ls) q
  | orderBy {k b columns ls} : k.IsWord "order" → b.IsWord "by" →
      SepBy (Lexeme.Is .comma) OrderItem columns ls →
      Derives (.clause (.orderBy columns)) (k :: b :: ls) []
  | cosine {k b w l column ls c p r t v m} : k.IsWord "order" → b.IsWord "by" →
      w.IsWord "cosine" → l.Is .lparen → Name anyWord column ls → c.Is .comma → p.Is .param →
      r.Is .rparen → t.IsWord "limit" → m.Is (.int v) →
      Derives (.clause (.cosine ⟨column, 1, v.toUInt64⟩))
        (k :: b :: w :: l :: (ls ++ [c, p, r, t, m])) []
  | limit {k v m} : k.IsWord "limit" → m.Is (.int v) → 0 ≤ v.toInt →
      Derives (.clause (.limit v.toUInt64)) [k, m] []
  | noClauses : Derives (.clauses []) [] []
  | clauses {c lc qc cs ls q} : Derives (.clause c) lc qc → Derives (.clauses cs) ls q →
      Derives (.clauses (c :: cs)) (lc ++ ls) (qc ++ q)
  | select {columns star aggregates li k t lt qt js lj qj cs lc qc} :
      SelectList columns star aggregates li → k.IsWord "from" → Derives (.table t) lt qt →
      Derives (.joins js) lj qj → Derives (.clauses cs) lc qc →
      Derives (.select (cs.foldl Clause.apply
          ⟨columns, star, t, none, js, [], aggregates, [], none, none, none, []⟩))
        (li ++ k :: (lt ++ (lj ++ lc))) (cs :: (qt ++ (qj ++ qc)))

/-! ### Statements -/

end Oikos.Archon.Relational
