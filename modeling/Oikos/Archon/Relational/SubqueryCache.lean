/-
The cache of subquery results.  A slot is filled by the subquery at its position
in the whole expression and read by the subquery that evaluation reaches after
as many others; the two differ once `AND` or `OR` has skipped a subquery.
-/
import Oikos.Lib.Alike
import Oikos.Archon.Relational.Statements

namespace Oikos.Archon.Relational

open List

/-! ### Queries that do not look at the enclosing rows -/

section Extra

variable {extra : List Scope} {taken : List String}

variable {run : RunSelect}

namespace Database

end Database

end Extra

/-! ### Reading the cache -/

/-- The query returns this within the row. -/
def WhereEnv.Returns (run : RunSelect) (env : WhereEnv) (q : SelectStatement) (rs : ResultSet) :
    Prop :=
  ∃ stack, env.stack = .ok stack ∧ run q env.params stack env.outerCtes = .ok rs

section Reading

variable {run : RunSelect} {env : WhereEnv} {cache : List CacheEntry}

namespace Database

variable {db : Database} {fuel : Nat} {ownColumns : List String}

end Database

end Reading

end Oikos.Archon.Relational
