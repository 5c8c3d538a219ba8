/-
The recursive-descent SQL parser of `tpt-archon-relational`.  The expression and
`SELECT` parsers call each other; each takes the parsers for what is nested in
it as an argument, and `nested` ties them together with one unit of fuel less
per level.  The repetitions inside a function have fuel of their own.
-/
import Oikos.Lib.GoText
import Oikos.Archon.Relational.Lexer
import Oikos.Archon.Relational.Executor

namespace Oikos.Archon.Relational

/-! ### Lists -/

section Lists

variable {α : Type}

def closedList (item : Parse α) (message : String) : Nat → List α → Parse (List α)
  | 0, _ => outOfFuel
  | fuel + 1, acc => do
    let x ← item
    let tok ← nextTok
    if tok = .comma then closedList item message fuel (acc ++ [x])
    else if tok = .rparen then pure (acc ++ [x])
    else fail message

def commaList (item : Parse α) : Nat → List α → Parse (List α)
  | 0, _ => outOfFuel
  | fuel + 1, acc => do
    let x ← item
    let tok ← nextTok
    if tok = .comma then commaList item fuel (acc ++ [x])
    else
      pushBack tok
      pure (acc ++ [x])

end Lists

/-! ### Literals -/

def trim (cs : List Char) : List Char :=
  ((cs.dropWhile isWhitespace).reverse.dropWhile isWhitespace).reverse

def endsElement (c : Char) : Bool :=
  c == ',' || c == ']'

/-- The elements of a vector up to its closing bracket.  The opening bracket has
been read. -/
def parseVectorLiteral : Nat → List F32 → Parse Literal
  | 0, _ => outOfFuel
  | fuel + 1, vals => fun lx =>
    match lx.rest.dropWhile isAsciiWhitespace with
    | [] => .error (.err ⟨"unterminated vector literal"⟩)
    | c :: cs =>
      if c = ']' then .ok (.vector vals, lx.seek cs)
      else
        match f32FromStr (trim ((c :: cs).takeWhile (!endsElement ·))) with
        | none => .error (.err ⟨"invalid vector element"⟩)
        | some f =>
          let rem := ((c :: cs).dropWhile (!endsElement ·)).dropWhile isAsciiWhitespace
          let rem := if rem.head? = some ',' then rem.tail else rem
          parseVectorLiteral fuel (vals ++ [f]) (lx.seek rem)

def parseLiteral (fuel : Nat) : Parse Literal := do
  match ← nextTok with
  | .int v => pure (.int v)
  | .text s => pure (.text s)
  | .lbracket => parseVectorLiteral fuel []
  | tok => if tok.isWord "null" then pure .null else fail "expected a value"

/-! ### Expressions -/

/-- The parsers for what an expression or a `SELECT` contains. -/
structure Nested where
  expr : Parse Expr
  select : Parse SelectStatement

def aggregateFunc (name : String) : Option AggregateFunc :=
  let name := toAsciiLowercase name
  if name = "count" then some .count
  else if name = "sum" then some .sum
  else if name = "avg" then some .avg
  else if name = "min" then some .min
  else if name = "max" then some .max
  else none

/-- The argument of an aggregate call, from after its opening parenthesis. -/
def aggregateArgument (fuel : Nat) : Parse String := do
  let peek ← nextTok
  if peek = .star then
    expectTok .rparen "')'"
    pure "*"
  else
    pushBack peek
    let column ← expectIdent fuel "column in aggregate"
    expectTok .rparen "')'"
    pure column

def qualifiedRest (fuel : Nat) (name : String) : Parse String := do
  let peek ← nextTok
  if peek = .dot then
    let field ← expectIdent fuel "field name after '.'"
    pure (name ++ "." ++ field)
  else
    pushBack peek
    pure name

/-- `EXISTS (SELECT ...)`, after the keyword. -/
def parseExists (n : Nested) : Parse Expr := do
  expectTok .lparen "'(' after EXISTS"
  expectKw "select"
  let query ← n.select
  expectTok .rparen "')' after EXISTS subquery"
  pure (.exists query)

/-- An aggregate call and the comparison that may follow it, after the name. -/
def parseAggregate (fuel : Nat) (func : AggregateFunc) : Parse Expr := do
  expectTok .lparen "'(' after aggregate function"
  let column ← aggregateArgument fuel
  match ← nextTok with
  | .op op =>
    let value ← parseLiteral fuel
    pure (.cmp (aggDefaultAlias func column) op value)
  | tok =>
    pushBack tok
    pure (.agg func column)

/-- `IS [NOT] NULL`, after `IS`. -/
def parseIs (column : String) : Parse Expr := do
  let tok ← nextTok
  if tok.isWord "not" then
    expectKw "null"
    pure (.isNull column true)
  else if tok.isWord "null" then pure (.isNull column false)
  else fail "expected NULL or NOT NULL after IS"

def parseLike (column : String) : Parse Expr := do
  match ← nextTok with
  | .text pattern => pure (.like column pattern)
  | _ => fail "expected pattern string after LIKE"

def parseBetween (column : String) : Parse Expr := do
  let low ← expectInt "BETWEEN low"
  expectKw "and"
  let high ← expectInt "BETWEEN high"
  pure (.betweenInt column low high)

/-- `IN (v, ...)` or `IN (SELECT ...)`, after `IN`. -/
def parseIn (fuel : Nat) (n : Nested) (column : String) : Parse Expr := do
  expectTok .lparen "'(' after IN"
  let peek ← nextTok
  if peek.isWord "select" then
    let query ← n.select
    expectTok .rparen "')' after IN subquery"
    pure (.inSubquery column query)
  else
    pushBack peek
    let values ← closedList (expectInt "value in IN list") "expected ',' or ')' in IN list" fuel []
    pure (.inInt column values)

def parseOperand (fuel : Nat) (n : Nested) (column : String) (op : CmpOp) : Parse Expr := do
  match ← nextTok with
  | .ident right =>
    if eqIgnoreCase right "null" then
      match op with
      | .eq => pure (.isNull column false)
      | .ne => pure (.isNull column true)
      | _ => fail "comparison with NULL requires IS / IS NOT"
    else
      let right ← qualifiedRest fuel right
      pure (.cmpColumn column op right)
  | .int v => pure (.cmp column op (.int v))
  | .text s => pure (.cmp column op (.text s))
  | .lparen =>
    expectKw "select"
    let query ← n.select
    expectTok .rparen "')' after scalar subquery"
    pure (.scalarCmp column op query)
  | _ => fail "expected value after operator"

def parseColumnTest (fuel : Nat) (n : Nested) (column : String) : Parse Expr := do
  let tok ← nextTok
  if tok.isWord "is" then parseIs column
  else if tok.isWord "like" then parseLike column
  else if tok.isWord "between" then parseBetween column
  else if tok.isWord "in" then parseIn fuel n column
  else
    match tok with
    | .op op => parseOperand fuel n column op
    | _ => fail "expected operator or IS after column name"

def parsePrimaryExpr (fuel : Nat) (n : Nested) : Parse Expr := do
  match ← nextTok with
  | .ident name =>
    if eqIgnoreCase name "exists" then parseExists n
    else
      match aggregateFunc name with
      | some func => parseAggregate fuel func
      | none =>
        if isKw name then fail ("unexpected keyword '" ++ name ++ "' in expression")
        else
          let column ← qualifiedRest fuel name
          parseColumnTest fuel n column
  | .lparen =>
    let inner ← n.expr
    expectTok .rparen "')'"
    pure inner
  | _ => fail "expected column name or '(' in expression"

def parseNot (primary : Parse Expr) : Nat → Parse Expr
  | 0 => outOfFuel
  | fuel + 1 => do
    let tok ← nextTok
    if tok.isWord "not" then
      let inner ← parseNot primary fuel
      pure (.not inner)
    else
      pushBack tok
      primary

def chain (keyword : String) (join : Expr → Expr → Expr) (operand : Parse Expr) :
    Nat → Expr → Parse Expr
  | 0, _ => outOfFuel
  | fuel + 1, left => do
    let tok ← nextTok
    if tok.isWord keyword then
      let right ← operand
      chain keyword join operand fuel (join left right)
    else
      pushBack tok
      pure left

def parseAnd (fuel : Nat) (n : Nested) : Parse Expr := do
  let operand := parseNot (parsePrimaryExpr fuel n) fuel
  let left ← operand
  chain "and" .and operand fuel left

def parseOr (fuel : Nat) (n : Nested) : Parse Expr := do
  let left ← parseAnd fuel n
  chain "or" .or (parseAnd fuel n) fuel left

/-! ### SELECT -/

/-- A table by name or `(SELECT ...) AS alias`. -/
def parseTableRef (fuel : Nat) (n : Nested) : Parse TableRef := do
  match ← nextTok with
  | .lparen =>
    let tok ← nextTok
    if tok.isWord "select" then
      let query ← n.select
      expectTok .rparen "')' after subquery"
      let tok ← nextTok
      if tok.isWord "as" then
        let aliasName ← expectIdent fuel "subquery alias"
        pure (.subquery query aliasName)
      else
        pushBack tok
        fail "subquery must have an AS alias"
    else fail "expected SELECT in subquery"
  | .ident name =>
    let tok ← nextTok
    if tok.isWord "as" then
      let aliasName ← expectIdent fuel "table alias"
      pure (.named name (some aliasName))
    else
      pushBack tok
      pure (.named name none)
  | _ => fail "expected table name or '('"

/-- `format!("{agg:?}").to_lowercase()`: the label of an aggregate without an
alias. -/
def AggregateFunc.label : AggregateFunc → String
  | .count => "count"
  | .sum => "sum"
  | .avg => "avg"
  | .min => "min"
  | .max => "max"

/-- An item of the select list as the statement keeps it: its label, the
aggregate it adds, and whether the comma after it has been read. -/
structure ListedItem where
  label : String
  aggregate : Option Aggregate
  comma : Bool

/-- The alias of an aggregate call in the select list, if `tok` starts one. -/
def aggregateLabel (fuel : Nat) (func : AggregateFunc) (tok : Tok) : Parse String :=
  if tok.isWord "as" then expectIdent fuel "alias"
  else do
    pushBack tok
    pure func.label

def selectAggregate (fuel : Nat) (func : AggregateFunc) : Parse ListedItem := do
  let inner ← aggregateArgument fuel
  let tok ← nextTok
  let label ← aggregateLabel fuel func tok
  let tok ← nextTok
  if tok = .comma then pure ⟨label, some ⟨label, func, inner⟩, true⟩
  else
    pushBack tok
    pure ⟨label, some ⟨label, func, inner⟩, false⟩

def selectName (fuel : Nat) (name : String) : Parse (String × Tok) := do
  let next ← nextTok
  if next = .dot then
    let field ← expectIdent fuel "field name after '.'"
    let next ← nextTok
    pure (name ++ "." ++ field, next)
  else pure (name, next)

def selectColumn (fuel : Nat) (name : String) : Parse ListedItem := do
  let (name, next) ← selectName fuel name
  if next.isWord "as" then
    let aliasName ← expectIdent fuel "alias"
    pure ⟨aliasName, none, false⟩
  else
    pushBack next
    pure ⟨name, none, false⟩

/-- An item of the select list that starts with `t`. -/
def selectItem (fuel : Nat) (t : Tok) : Parse ListedItem :=
  match t with
  | .ident name =>
    match aggregateFunc name with
    | some func => do
      let next ← nextTok
      if next = .lparen then selectAggregate fuel func
      else
        pushBack next
        pure ⟨name, none, false⟩
    | none => selectColumn fuel name
  | _ => fail "expected column name"

/-- The items of the select list from the token `t` on, and the token after
them. -/
def selectItems (itemFuel : Nat) :
    Nat → Tok → List String → List Aggregate → Parse (List String × List Aggregate × Tok)
  | 0, _, _, _ => outOfFuel
  | fuel + 1, t, columns, aggregates => do
    let item ← selectItem itemFuel t
    let columns := columns ++ [item.label]
    let aggregates := aggregates ++ item.aggregate.toList
    if item.comma then
      let t ← nextTok
      selectItems itemFuel fuel t columns aggregates
    else
      let t ← nextTok
      if t = .comma then
        let t ← nextTok
        selectItems itemFuel fuel t columns aggregates
      else pure (columns, aggregates, t)

def parseJoin (fuel : Nat) (n : Nested) : Parse Join := do
  let table ← parseTableRef fuel n
  expectKw "on"
  let leftCol ← expectIdent fuel "left column"
  expectTok (.op .eq) "'=' in ON clause"
  let rightCol ← expectIdent fuel "right column"
  pure ⟨.inner, table, leftCol, rightCol⟩

def parseJoins (itemFuel : Nat) (n : Nested) : Nat → List Join → Parse (List Join)
  | 0, _ => outOfFuel
  | fuel + 1, joins => do
    let t ← nextTok
    if t.isWord "join" then
      let join ← parseJoin itemFuel n
      parseJoins itemFuel n fuel (joins ++ [join])
    else
      pushBack t
      pure joins

/-- `cosine(column, ?) LIMIT k`, after `cosine`. -/
def parseCosine (fuel : Nat) : Parse OrderByCosine := do
  expectTok .lparen "'(' after cosine"
  let column ← expectIdent fuel "embedding column"
  expectTok .comma "',' in cosine(...)"
  let tok ← nextTok
  if tok = .param then
    expectTok .rparen "')' after cosine(...)"
    expectKw "limit"
    let k ← expectInt "LIMIT k"
    pure ⟨column, 1, k.toUInt64⟩
  else fail "expected '?' query vector"

/-- `[ASC|DESC]`. -/
def parseDirection : Parse Bool := do
  let next ← nextTok
  if next.isWord "asc" then pure false
  else if next.isWord "desc" then pure true
  else
    pushBack next
    pure false

/-- The columns of an `ORDER BY` after the first. -/
def parseMoreOrderBy : Nat → List OrderBy → Parse (List OrderBy)
  | 0, _ => outOfFuel
  | fuel + 1, acc => do
    let next ← nextTok
    if next = .comma then
      match ← nextTok with
      | .ident name =>
        let descending ← parseDirection
        parseMoreOrderBy fuel (acc ++ [⟨name, descending⟩])
      | _ => fail "expected column name in ORDER BY"
    else
      pushBack next
      pure acc

/-- A plain or a cosine `ORDER BY`, after the keywords. -/
def parseOrderBy (fuel : Nat) (stmt : SelectStatement) : Parse SelectStatement := do
  match ← nextTok with
  | .ident name =>
    if eqIgnoreCase name "cosine" then
      let cosine ← parseCosine fuel
      pure { stmt with orderByCosine := some cosine }
    else
      let descending ← parseDirection
      let more ← parseMoreOrderBy fuel []
      pure { stmt with orderBy := stmt.orderBy ++ ⟨name, descending⟩ :: more }
  | _ => fail "only ORDER BY <col> and ORDER BY cosine(...) are supported"

/-- `LIMIT n`, after the keyword. -/
def parseLimit : Parse UInt64 := do
  match ← nextTok with
  | .int v => if 0 ≤ v.toInt then pure v.toUInt64 else fail "expected non-negative LIMIT"
  | _ => fail "expected non-negative LIMIT"

/-- The clauses of a `SELECT` from the token `t` on, in any order. -/
def parseClauses (itemFuel : Nat) (n : Nested) :
    Nat → Tok → SelectStatement → Parse SelectStatement
  | 0, _, _ => outOfFuel
  | fuel + 1, t, stmt =>
    if t.isWord "where" then
      if stmt.filter.isSome then fail "duplicate WHERE"
      else do
        let e ← n.expr
        let t ← nextTok
        parseClauses itemFuel n fuel t { stmt with filter := some e }
    else if t.isWord "group" then do
      expectKw "by"
      let columns ← commaList (expectIdent itemFuel "column in GROUP BY") itemFuel []
      let t ← nextTok
      parseClauses itemFuel n fuel t { stmt with groupBy := stmt.groupBy ++ columns }
    else if t.isWord "having" then
      if stmt.having.isSome then fail "duplicate HAVING"
      else do
        let e ← n.expr
        let t ← nextTok
        parseClauses itemFuel n fuel t { stmt with having := some e }
    else if t.isWord "order" then do
      expectKw "by"
      let stmt ← parseOrderBy itemFuel stmt
      let t ← nextTok
      parseClauses itemFuel n fuel t stmt
    else if t.isWord "limit" then
      if stmt.limit.isSome then fail "duplicate LIMIT"
      else do
        let k ← parseLimit
        let t ← nextTok
        parseClauses itemFuel n fuel t { stmt with limit := some k }
    else do
      pushBack t
      pure stmt

/-- The select list: its labels, whether it is `*`, its aggregates, and the
token after it. -/
def parseSelectList (fuel : Nat) : Parse (List String × Bool × List Aggregate × Tok) := do
  let t ← nextTok
  if t = .star then
    let t ← nextTok
    pure ([], true, [], t)
  else
    let (columns, aggregates, t) ← selectItems fuel fuel t [] []
    pure (columns, false, aggregates, t)

/-- A `SELECT`, after the keyword. -/
def parseSelectInner (fuel : Nat) (n : Nested) : Parse SelectStatement := do
  let (columns, star, aggregates, t) ← parseSelectList fuel
  if t.isWord "from" then
    let table ← parseTableRef fuel n
    let joins ← parseJoins fuel n fuel []
    let t ← nextTok
    parseClauses fuel n fuel t
      ⟨columns, star, table, none, joins, [], aggregates, [], none, none, none, []⟩
  else fail "expected FROM"

/-- The parsers for expressions and queries nested at most `fuel` deep. -/
def nested : Nat → Nested
  | 0 => ⟨outOfFuel, outOfFuel⟩
  | fuel + 1 => ⟨parseOr fuel (nested fuel), parseSelectInner fuel (nested fuel)⟩

def parseExpr (fuel : Nat) : Parse Expr :=
  (nested fuel).expr

def parseSelectQuery (fuel : Nat) : Parse SelectStatement :=
  (nested fuel).select

/-! ### Statements -/

def parseCte (fuel : Nat) : Parse CTE := do
  let name ← expectIdent fuel "CTE name"
  expectKw "as"
  expectTok .lparen "'(' after AS in CTE"
  let tok ← nextTok
  if tok.isWord "select" then
    let query ← parseSelectQuery fuel
    expectTok .rparen "')' after CTE subquery"
    pure ⟨name, query⟩
  else fail "expected SELECT in CTE"

def parseWithClause (fuel : Nat) : Parse (List CTE) :=
  commaList (parseCte fuel) fuel []

def parseCreateView (fuel : Nat) : Parse CreateViewStatement := do
  let name ← expectIdent fuel "view name"
  expectKw "as"
  let tok ← nextTok
  if tok.isWord "select" then
    let query ← parseSelectQuery fuel
    expectEof "trailing tokens after statement"
    pure ⟨name, query⟩
  else fail "expected SELECT after CREATE VIEW ... AS"

/-- The dimension hint after `VECTOR` in `CREATE TABLE`: whatever stands in
brackets right after the keyword is skipped. -/
def skipHint : Parse Unit := fun lx =>
  match lx.rest with
  | [] => .ok ((), lx)
  | c :: cs =>
    if c = '[' then .ok ((), lx.seek (cs.dropWhile (· != ']')).tail) else .ok ((), lx)

def parseColumnDef (fuel : Nat) : Parse ColumnDef := do
  let name ← expectIdent fuel "column name"
  let tok ← nextTok
  if tok.isWord "int" || tok.isWord "integer" then pure ⟨name, .int⟩
  else if tok.isWord "text" then pure ⟨name, .text⟩
  else if tok.isWord "vector" then
    skipHint
    pure ⟨name, .vector⟩
  else fail "expected column type (INT, TEXT, VECTOR)"

def parseCreateTable (fuel : Nat) : Parse CreateTableStatement := do
  expectKw "table"
  let table ← expectIdent fuel "table name"
  expectTok .lparen "'('"
  let columns ← closedList (parseColumnDef fuel) "expected ',' or ')'" fuel []
  pure ⟨table, columns⟩

/-- The column list of an `INSERT`, if `t` opens one, and the token after it. -/
def insertColumns (fuel : Nat) (t : Tok) : Parse (List String × Tok) :=
  if t = .lparen then do
    let columns ← closedList (expectIdent fuel "column name") "expected ',' or ')'" fuel []
    let t ← nextTok
    pure (columns, t)
  else pure ([], t)

def parseInsert (fuel : Nat) : Parse InsertStatement := do
  expectKw "into"
  let table ← expectIdent fuel "table name"
  let t ← nextTok
  let (columns, t) ← insertColumns fuel t
  if t.isWord "values" then
    expectTok .lparen "'(' before values"
    let values ← closedList (parseLiteral fuel) "expected ',' or ')'" fuel []
    expectEof "trailing tokens after statement"
    pure ⟨table, columns, values⟩
  else fail "expected VALUES"

def parseAssignment (fuel : Nat) : Parse Assignment := do
  let column ← expectIdent fuel "column name"
  expectTok (.op .eq) "'=' in assignment"
  let value ← parseLiteral fuel
  pure ⟨column, value⟩

/-- The `WHERE` of an `UPDATE`, if `t` starts one. -/
def updateFilter (fuel : Nat) (t : Tok) : Parse (Option Expr) :=
  if t.isWord "where" then do
    let e ← parseExpr fuel
    pure (some e)
  else do
    pushBack t
    pure none

def parseUpdate (fuel : Nat) : Parse UpdateStatement := do
  let table ← expectIdent fuel "table name"
  expectKw "set"
  let assignments ← commaList (parseAssignment fuel) fuel []
  let t ← nextTok
  let filter ← updateFilter fuel t
  expectEof "trailing tokens"
  pure ⟨table, assignments, filter⟩

/-- The `WHERE` of a `DELETE`, if `t` starts one.  Unlike in `UPDATE`, another
token is not pushed back. -/
def deleteFilter (fuel : Nat) (t : Tok) : Parse (Option Expr) :=
  if t.isWord "where" then do
    let e ← parseExpr fuel
    pure (some e)
  else pure none

def parseDelete (fuel : Nat) : Parse DeleteStatement := do
  expectKw "from"
  let table ← expectIdent fuel "table name"
  let t ← nextTok
  let filter ← deleteFilter fuel t
  expectEof "trailing tokens after statement"
  pure ⟨table, filter⟩

/-- The digits and the closing bracket of a dimension hint in `ALTER TABLE`,
each if it is there. -/
def skipDigits : Parse Unit := fun lx =>
  let rem := lx.rest.dropWhile Char.isDigit
  .ok ((), lx.seek (if rem.head? = some ']' then rem.tail else rem))

/-- Unlike in `CREATE TABLE`, `INTEGER` is no type here, and without a hint it is
the word `vector` that is pushed back, not the token read after it. -/
def parseAddColumn (fuel : Nat) : Parse ColumnDef := do
  expectKw "column"
  let name ← expectIdent fuel "column name"
  let tok ← nextTok
  if tok.isWord "int" then pure ⟨name, .int⟩
  else if tok.isWord "text" then pure ⟨name, .text⟩
  else if tok.isWord "vector" then
    let tok ← nextTok
    if tok = .lbracket then
      skipDigits
      pure ⟨name, .vector⟩
    else
      pushBack (.ident "vector")
      pure ⟨name, .vector⟩
  else fail "expected column type (INT, TEXT, VECTOR)"

def parseAlterTable (fuel : Nat) : Parse AlterTableStatement := do
  let table ← expectIdent fuel "table name"
  let tok ← nextTok
  if tok.isWord "add" then
    let col ← parseAddColumn fuel
    pure ⟨table, .addColumn col⟩
  else if tok.isWord "drop" then
    expectKw "column"
    let name ← expectIdent fuel "column name"
    pure ⟨table, .dropColumn name⟩
  else if tok.isWord "rename" then
    expectKw "column"
    let oldName ← expectIdent fuel "old column name"
    expectKw "to"
    let newName ← expectIdent fuel "new column name"
    pure ⟨table, .renameColumn oldName newName⟩
  else fail "expected ADD, DROP, or RENAME after ALTER TABLE"

/-- `CREATE TABLE` or `CREATE VIEW`, after `CREATE`. -/
def parseCreate (fuel : Nat) : Parse Statement := do
  let sub ← nextTok
  if sub.isWord "table" then
    pushBack sub
    let stmt ← parseCreateTable fuel
    pure (.createTable stmt)
  else if sub.isWord "view" then
    let stmt ← parseCreateView fuel
    pure (.createView stmt)
  else fail "expected TABLE or VIEW after CREATE"

/-- A query with its `WITH` clause, after `WITH`. -/
def parseWith (fuel : Nat) : Parse SelectStatement := do
  let ctes ← parseWithClause fuel
  let tok ← nextTok
  if tok.isWord "select" then
    let stmt ← parseSelectQuery fuel
    expectEof "trailing tokens after statement"
    pure { stmt with withCtes := ctes }
  else fail "expected SELECT after WITH"

def parseStatementFrom (fuel : Nat) (tok : Tok) : Parse Statement :=
  if tok.isWord "with" then do
    let stmt ← parseWith fuel
    pure (.select stmt)
  else if tok.isWord "select" then do
    let stmt ← parseSelectQuery fuel
    expectEof "trailing tokens after statement"
    pure (.select stmt)
  else if tok.isWord "insert" then do
    let stmt ← parseInsert fuel
    pure (.insert stmt)
  else if tok.isWord "update" then do
    let stmt ← parseUpdate fuel
    pure (.update stmt)
  else if tok.isWord "delete" then do
    let stmt ← parseDelete fuel
    pure (.delete stmt)
  else if tok.isWord "create" then parseCreate fuel
  else if tok.isWord "drop" then do
    let sub ← nextTok
    if sub.isWord "view" then
      let name ← expectIdent fuel "view name"
      expectEof "trailing tokens after statement"
      pure (.dropView name)
    else fail "expected VIEW after DROP"
  else if tok.isWord "alter" then do
    expectKw "table"
    let stmt ← parseAlterTable fuel
    expectEof "trailing tokens after statement"
    pure (.alterTable stmt)
  else if tok.isWord "begin" then pure .begin
  else if tok.isWord "commit" then pure .commit
  else if tok.isWord "rollback" then pure .rollback
  else fail "expected SELECT, INSERT, UPDATE, DELETE, CREATE TABLE, CREATE VIEW, DROP VIEW, ALTER TABLE, BEGIN, COMMIT, or ROLLBACK"

def parseStatement (fuel : Nat) (input : String) : Result ParseError Statement := do
  let (stmt, _) ← (nextTok >>= parseStatementFrom fuel) (Lexer.new input)
  pure stmt

end Oikos.Archon.Relational
