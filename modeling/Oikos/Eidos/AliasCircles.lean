/-
The termination of the eidos front end. Its recursions on types follow one name after
another through the aliases, and end just where no name that they start from leads into
a circle.
-/
import Oikos.Eidos.Erasure
import Oikos.Lib.Chain

namespace Oikos.Eidos

open List Option

/-! ### The names that types lead to -/

def Ty.alone : Ty → Option String
  | .named n => some n
  | _ => none

/-- The name under the refinements of a type. -/
def Ty.refined : Ty → Option String
  | .named n => some n
  | .refine _ ty _ => ty.refined
  | _ => none

def Ty.inner : Ty → Option String
  | .named n => some n
  | .array elem _ => elem.inner
  | .refine _ ty _ => ty.inner
  | .base _ => none

section Names

variable (aliases : List (String × Ty))

/-- Where the resolution of a type goes on from a name. -/
def nextName (n : String) : Option String :=
  (assocGet aliases n).bind Ty.alone

/-- Where the search for the length of an array goes on from a name. -/
def nextLength (n : String) : Option String :=
  (assocGet aliases n).bind Ty.refined

def nextErased (declared : List String) (n : String) : Option String :=
  (assocGet aliases n).bind fun ty =>
    if ty.isRefine && declared.contains n then none else ty.inner

end Names

/-- There is no name, or the chain from it ends within a number of steps. -/
def EndsIn (next : String → Option String) (fuel : Nat) (start : Option String) : Prop :=
  ∀ n, start = some n → endsWithin next fuel n = true

/-- There is no name, or it does not lead into a circle. -/
def Ends (next : String → Option String) (start : Option String) : Prop :=
  ∀ n, start = some n → ¬Circular next n

section EndsIn

variable {aliases : List (String × Ty)} {next : String → Option String} {fuel : Nat}
  {start : Option String} {n : String}

theorem endsIn_none : EndsIn next fuel none :=
  fun _ h => nomatch h

theorem endsIn_some : EndsIn next fuel (some n) ↔ endsWithin next fuel n = true := by
  constructor
  · exact fun h => h n rfl
  · rintro h _ ⟨⟩
    exact h

theorem Ends.of_endsIn (h : EndsIn next fuel start) : Ends next start := by
  intro n hn hcircular
  have hends := h n hn
  rw [hcircular.endsWithin_eq_false] at hends
  cases hends

theorem endsIn_iff (hnext : ∀ k, (next k).isSome = true → (assocGet aliases k).isSome = true)
    (hfuel : aliases.length ≤ fuel) : EndsIn next fuel start ↔ Ends next start := by
  have hkeys : ∀ k, (next k).isSome = true → k ∈ aliases.map Prod.fst := by
    intro k hk
    by_contra hmem
    have hsome := hnext k hk
    rw [assocGet_eq_none_iff.mpr hmem] at hsome
    cases hsome
  have hlength : (aliases.map Prod.fst).length ≤ fuel := by rwa [length_map]
  exact forall_congr' fun n => imp_congr_right fun _ => endsWithin_iff hkeys hlength

theorem isSome_of_bind {f : Ty → Option String} (k : String)
    (h : ((assocGet aliases k).bind f).isSome = true) : (assocGet aliases k).isSome = true := by
  cases hget : assocGet aliases k with
  | none =>
    rw [hget] at h
    cases h
  | some ty => rfl

end EndsIn

/-! ### Resolution and lengths -/

namespace Checker

variable {c : Checker} {fuel : Nat}

theorem isSome_resolve_named (n : String) :
    (c.resolve (fuel + 1) (.named n)).isSome = endsWithin (nextName c.aliases) fuel n := by
  induction fuel generalizing n with
  | zero =>
    rw [resolve, endsWithin, nextName]
    cases assocGet c.aliases n with
    | none => rfl
    | some ty => cases ty <;> rfl
  | succ fuel ih =>
    rw [resolve, endsWithin, nextName]
    cases assocGet c.aliases n with
    | none => rfl
    | some ty =>
      cases ty with
      | named m => exact ih m
      | _ => rfl

theorem isSome_resolve (ty : Ty) :
    (c.resolve (fuel + 1) ty).isSome = true ↔ EndsIn (nextName c.aliases) fuel ty.alone := by
  cases ty with
  | named n => rw [isSome_resolve_named, Ty.alone, endsIn_some]
  | _ => exact iff_of_true rfl endsIn_none

theorem isSome_arrayLenOf_zero : (ty : Ty) → (c.arrayLenOf 0 ty).isSome = ty.refined.isNone
  | .base _ => by simp [arrayLenOf, Ty.refined]
  | .array _ _ => by simp [arrayLenOf, Ty.refined]
  | .named _ => by simp [arrayLenOf, Ty.refined]
  | .refine _ ty _ => by
    rw [arrayLenOf, Ty.refined]
    exact isSome_arrayLenOf_zero ty

theorem isSome_arrayLenOf : (fuel : Nat) → (ty : Ty) →
    ((c.arrayLenOf (fuel + 1) ty).isSome = true ↔ EndsIn (nextLength c.aliases) fuel ty.refined)
  | _, .base _ => by
    rw [arrayLenOf]
    exact iff_of_true rfl endsIn_none
  | _, .array _ _ => by
    rw [arrayLenOf]
    exact iff_of_true rfl endsIn_none
  | fuel, .refine _ ty _ => by
    rw [arrayLenOf, Ty.refined]
    exact isSome_arrayLenOf fuel ty
  | 0, .named n => by
    rw [arrayLenOf, Ty.refined, endsIn_some, endsWithin, nextLength]
    cases assocGet c.aliases n with
    | none => exact iff_of_true rfl rfl
    | some ty =>
      dsimp only [bind_some]
      rw [isSome_arrayLenOf_zero]
  | fuel + 1, .named n => by
    rw [arrayLenOf, Ty.refined, endsIn_some, endsWithin, nextLength]
    cases assocGet c.aliases n with
    | none => exact iff_of_true rfl rfl
    | some ty =>
      dsimp only [bind_some]
      rw [isSome_arrayLenOf fuel ty]
      cases ty.refined with
      | none => exact iff_of_true endsIn_none rfl
      | some m => exact endsIn_some

theorem isSome_asRefine (ty : Ty) :
    (c.asRefine ty).isSome = (c.resolve (c.aliases.length + 1) ty).isSome := by
  rw [asRefine]
  cases c.resolve (c.aliases.length + 1) ty with
  | none => rfl
  | some ty => cases ty <;> rfl

end Checker

/-! ### The types of a module -/

mutual

def Expr.castTypes : Expr → List Ty
  | .num _ | .bool _ | .var _ => []
  | .arrayLit es => castTypesAll es
  | .bin _ a b => a.castTypes ++ b.castTypes
  | .un _ a => a.castTypes
  | .ifThen cond then_ els => cond.castTypes ++ (then_.castTypes ++ els.castTypes)
  | .letIn _ value body => value.castTypes ++ body.castTypes
  | .call _ args => castTypesAll args
  | .method recv _ args => recv.castTypes ++ castTypesAll args
  | .lambda _ body => body.castTypes
  | .record fields => castTypesFields fields
  | .cast value ty => ty :: value.castTypes
  | .ret e => e.castTypes

def castTypesAll : List Expr → List Ty
  | [] => []
  | e :: es => e.castTypes ++ castTypesAll es

def castTypesFields : List (String × Expr) → List Ty
  | [] => []
  | (_, e) :: fields => e.castTypes ++ castTypesFields fields

end

/-- The types that a function is written with. -/
def Fun.types (f : Fun) : List Ty :=
  f.ret :: (f.params.map Prod.snd ++ f.body.castTypes)

def declaredBy (declared : List String) : List Item → List String
  | [] => declared
  | .typeAlias name (.refine _ _ _) :: items => declaredBy (name :: declared) items
  | _ :: items => declaredBy declared items

def BasesEnd (ends : List String → Ty → Prop) (declared : List String) : List Item → Prop
  | [] => True
  | .typeAlias name (.refine _ base _) :: items =>
    ends declared base ∧ BasesEnd ends (name :: declared) items
  | _ :: items => BasesEnd ends declared items

/-- The structs of a module's refinement aliases. -/
def Module.declared (m : Module) : List String :=
  declaredBy [] m.items

/-! ### The erasure -/

section Erase

variable {aliases : List (String × Ty)} {fuel : Nat} {er : Eraser}
  {declared declared' : List String}
  {A B : Type} {P Q : Prop}

/-- The erasure goes on just where a condition is met, and with the same structs declared
for aliases. -/
def Goes (declared : List String) (x : Option (A × Eraser)) (P : Prop) : Prop :=
  (x.isSome = true ↔ P) ∧ ∀ a er, x = some (a, er) → er.structOf = declared

theorem Goes.pure (a : A) (h : er.structOf = declared) : Goes declared (some (a, er)) True := by
  refine ⟨iff_of_true rfl trivial, ?_⟩
  rintro _ _ ⟨⟩
  exact h

variable {x : Option (A × Eraser)}

theorem Goes.bind {f : A × Eraser → Option (B × Eraser)}
    (hx : Goes declared x P) (hf : ∀ a er, er.structOf = declared → Goes declared' (f (a, er)) Q) :
    Goes declared' (x.bind f) (P ∧ Q) := by
  cases x with
  | none =>
    exact ⟨iff_of_false (fun h => nomatch h) fun h => (hx.1.not.mp (fun h => nomatch h)) h.1,
      fun _ _ h => nomatch h⟩
  | some r =>
    obtain ⟨a, er⟩ := r
    obtain ⟨hiff, hall⟩ := hf a er (hx.2 a er rfl)
    exact ⟨hiff.trans (and_iff_right (hx.1.mp rfl)).symm, hall⟩

theorem Goes.last {f : A × Eraser → Option (B × Eraser)}
    (hx : Goes declared x P) (hf : ∀ a er, er.structOf = declared →
    Goes declared (f (a, er)) True) :
    Goes declared (x.bind f) P := by
  have h := hx.bind hf
  rwa [and_true] at h

theorem Goes.congr (h : Goes declared x P) (hPQ : P ↔ Q) : Goes declared x Q :=
  ⟨h.1.trans hPQ, h.2⟩

theorem eraseType_zero : (ty : Ty) → (er : Eraser) → er.structOf = declared →
    Goes declared (eraseType aliases 0 ty er) (ty.inner = none)
  | .base s, er, h => by
    rw [eraseType]
    exact (Goes.pure _ h).congr (iff_of_true trivial rfl)
  | .named n, er, h => by
    rw [eraseType]
    refine ⟨iff_of_false ?_ ?_, ?_⟩
    · rintro ⟨⟩
    · rintro ⟨⟩
    · rintro _ _ ⟨⟩
  | .array elem n, er, h => by
    rw [eraseType]
    exact (eraseType_zero elem er h).last fun a er h => Goes.pure _ h
  | .refine bind base _, er, h => by
    rw [eraseType]
    exact (eraseType_zero base er h).last fun a er h => Goes.pure _ h

theorem eraseType_goes : (fuel : Nat) → (ty : Ty) → (er : Eraser) → er.structOf = declared →
    Goes declared (eraseType aliases (fuel + 1) ty er)
      (EndsIn (nextErased aliases declared) fuel ty.inner)
  | _, .base s, er, h => by
    rw [eraseType]
    exact (Goes.pure _ h).congr (iff_of_true trivial endsIn_none)
  | fuel, .array elem n, er, h => by
    rw [eraseType]
    exact (eraseType_goes fuel elem er h).last fun a er h => Goes.pure _ h
  | fuel, .refine bind base _, er, h => by
    rw [eraseType]
    exact (eraseType_goes fuel base er h).last fun a er h => Goes.pure _ h
  | fuel, .named n, er, h => by
    have hnext : nextErased aliases declared n = (assocGet aliases n).bind fun ty =>
        if ty.isRefine && er.structOf.contains n then none else ty.inner := by
      rw [h]
      rfl
    rw [eraseType, Ty.inner]
    cases hget : assocGet aliases n with
    | none =>
      rw [hget, bind_none] at hnext
      exact (Goes.pure _ h).congr
        (iff_of_true trivial (endsIn_some.mpr (endsWithin_of_none hnext)))
    | some ty =>
      rw [hget, bind_some] at hnext
      dsimp only
      split
      · next hstop =>
        rw [if_pos hstop] at hnext
        exact (Goes.pure _ h).congr
          (iff_of_true trivial (endsIn_some.mpr (endsWithin_of_none hnext)))
      · next hgo =>
        rw [if_neg hgo] at hnext
        cases fuel with
        | zero =>
          refine (eraseType_zero ty er h).congr ?_
          rw [endsIn_some, endsWithin, hnext, Option.isNone_iff_eq_none]
        | succ fuel =>
          refine (eraseType_goes fuel ty er h).congr ?_
          rw [endsIn_some]
          cases hinner : ty.inner with
          | none =>
            rw [hinner] at hnext
            exact iff_of_true endsIn_none (endsWithin_of_none hnext)
          | some m =>
            rw [hinner] at hnext
            rw [endsIn_some, endsWithin_succ hnext]


/-- The types can be erased. -/
def ErasesAll (aliases : List (String × Ty)) (declared : List String) (fuel : Nat)
    (tys : List Ty) : Prop :=
  ∀ ty ∈ tys, EndsIn (nextErased aliases declared) fuel ty.inner

theorem erasesAll_append {tys tys' : List Ty} :
    ErasesAll aliases declared fuel (tys ++ tys') ↔
      ErasesAll aliases declared fuel tys ∧ ErasesAll aliases declared fuel tys' :=
  forall_mem_append

theorem erasesAll_cons {ty : Ty} {tys : List Ty} :
    ErasesAll aliases declared fuel (ty :: tys) ↔
      EndsIn (nextErased aliases declared) fuel ty.inner ∧ ErasesAll aliases declared fuel tys :=
  forall_mem_cons

theorem erasesAll_nil : ErasesAll aliases declared fuel [] :=
  fun _ h => nomatch h

mutual

theorem eraseExpr_goes : (e : Expr) → (er : Eraser) → er.structOf = declared →
    Goes declared (eraseExpr aliases (fuel + 1) e er) (ErasesAll aliases declared fuel e.castTypes)
  | .num _, er, h | .bool _, er, h | .var _, er, h => by
    rw [eraseExpr]
    exact (Goes.pure _ h).congr (iff_of_true trivial erasesAll_nil)
  | .arrayLit es, er, h => by
    rw [eraseExpr]
    exact (eraseAll_goes es er h).last fun _ er h => Goes.pure _ h
  | .bin op a b, er, h => by
    rw [eraseExpr, Expr.castTypes, erasesAll_append]
    exact (eraseExpr_goes a er h).bind fun _ er h =>
      (eraseExpr_goes b er h).last fun _ er h => Goes.pure _ h
  | .un op a, er, h => by
    rw [eraseExpr]
    exact (eraseExpr_goes a er h).last fun _ er h => Goes.pure _ h
  | .ifThen cond then_ els, er, h => by
    rw [eraseExpr, Expr.castTypes, erasesAll_append, erasesAll_append]
    exact (eraseExpr_goes cond er h).bind fun _ er h =>
      (eraseExpr_goes then_ er h).bind fun _ er h =>
        (eraseExpr_goes els er h).last fun _ er h => Goes.pure _ h
  | .letIn name value body, er, h => by
    rw [eraseExpr, Expr.castTypes, erasesAll_append]
    exact (eraseExpr_goes value er h).bind fun _ er h =>
      (eraseExpr_goes body (er.bindVar name _) h).last fun _ er h => Goes.pure _ h
  | .call func args, er, h => by
    rw [eraseExpr]
    exact (eraseAll_goes args er h).last fun _ er h => Goes.pure _ h
  | .method recv name args, er, h => by
    rw [eraseExpr, Expr.castTypes, erasesAll_append]
    exact (eraseExpr_goes recv er h).bind fun _ er h =>
      (eraseAll_goes args er h).last fun _ er h => Goes.pure _ h
  | .lambda params body, er, h => by
    rw [eraseExpr]
    exact (eraseExpr_goes body er h).last fun _ er h => Goes.pure _ h
  | .record fields, er, h => by
    rw [eraseExpr]
    exact (eraseFields_goes fields er h).last fun _ er h => Goes.pure _ h
  | .cast value ty, er, h => by
    rw [eraseExpr, Expr.castTypes, erasesAll_cons]
    exact (eraseType_goes fuel ty er h).bind fun _ er h =>
      (eraseExpr_goes value er h).last fun _ er h => Goes.pure _ h
  | .ret e, er, h => by
    rw [eraseExpr]
    exact (eraseExpr_goes e er h).last fun _ er h => Goes.pure _ h

theorem eraseAll_goes : (es : List Expr) → (er : Eraser) → er.structOf = declared →
    Goes declared (eraseAll aliases (fuel + 1) es er)
      (ErasesAll aliases declared fuel (castTypesAll es))
  | [], er, h => by
    rw [eraseAll]
    exact (Goes.pure _ h).congr (iff_of_true trivial erasesAll_nil)
  | e :: es, er, h => by
    rw [eraseAll, castTypesAll, erasesAll_append]
    exact (eraseExpr_goes e er h).bind fun _ er h =>
      (eraseAll_goes es er h).last fun _ er h => Goes.pure _ h

theorem eraseFields_goes : (fields : List (String × Expr)) → (er : Eraser) →
    er.structOf = declared → Goes declared (eraseFields aliases (fuel + 1) fields er)
      (ErasesAll aliases declared fuel (castTypesFields fields))
  | [], er, h => by
    rw [eraseFields]
    exact (Goes.pure _ h).congr (iff_of_true trivial erasesAll_nil)
  | (f, e) :: fields, er, h => by
    rw [eraseFields, castTypesFields, erasesAll_append]
    exact (eraseExpr_goes e er h).bind fun _ er h =>
      (eraseFields_goes fields er h).last fun _ er h => Goes.pure _ h

end

theorem eraseParams_goes (params : List (String × Ty)) (er : Eraser) (h : er.structOf = declared) :
    Goes declared (eraseParams aliases (fuel + 1) params er)
      (ErasesAll aliases declared fuel (params.map Prod.snd)) := by
  induction params generalizing er with
  | nil => exact (Goes.pure _ h).congr (iff_of_true trivial erasesAll_nil)
  | cons param params ih =>
    rw [map_cons, erasesAll_cons]
    exact (eraseType_goes fuel param.2 er h).bind fun ty er h =>
      (ih (er.bindVar param.1 ty) h).last fun _ er h => Goes.pure _ h

theorem eraseFun_goes (f : Fun) (er : Eraser) (h : er.structOf = declared)
    (hret : EndsIn (nextErased aliases declared) fuel f.ret.inner) :
    Goes declared (eraseFun aliases (fuel + 1) f er) (ErasesAll aliases declared fuel f.types) := by
  rw [eraseFun, Fun.types, erasesAll_cons, and_iff_right hret, erasesAll_append]
  refine (eraseParams_goes f.params { er with env := [] } h).bind fun _ er h => ?_
  dsimp only
  cases assocGet er.retOf f.name with
  | some ret => exact (eraseExpr_goes f.body er h).last fun _ er h => Goes.pure _ h
  | none =>
    refine Goes.congr ?_ (and_iff_right hret)
    exact (eraseType_goes fuel f.ret er h).bind fun _ er h =>
      (eraseExpr_goes f.body er h).last fun _ er h => Goes.pure _ h

theorem eraseFuns_goes (fs : List Fun) (er : Eraser) (h : er.structOf = declared)
    (hret : ∀ f ∈ fs, EndsIn (nextErased aliases declared) fuel f.ret.inner) :
    Goes declared (eraseFuns aliases (fuel + 1) fs er)
      (∀ f ∈ fs, ErasesAll aliases declared fuel f.types) := by
  induction fs generalizing er with
  | nil => exact (Goes.pure _ h).congr (iff_of_true trivial fun _ h => nomatch h)
  | cons f fs ih =>
    rw [forall_mem_cons]
    have hrets := forall_mem_cons.mp hret
    exact (eraseFun_goes f er h hrets.1).bind fun _ er h =>
      (ih er h hrets.2).last fun _ er h => Goes.pure _ h

theorem eraseReturns_goes (fs : List Fun) (er : Eraser) (h : er.structOf = declared) :
    Goes declared ((eraseReturns aliases (fuel + 1) fs er).map fun er => ((), er))
      (∀ f ∈ fs, EndsIn (nextErased aliases declared) fuel f.ret.inner) := by
  induction fs generalizing er with
  | nil => exact (Goes.pure _ h).congr (iff_of_true trivial fun _ h => nomatch h)
  | cons f fs ih =>
    rw [forall_mem_cons, eraseReturns, Option.bind_eq_bind, Option.map_bind]
    exact (eraseType_goes fuel f.ret er h).bind fun ty er h =>
      ih { er with retOf := (f.name, ty) :: er.retOf } h

theorem declareStructs_goes : (items : List Item) → (declared : List String) → (er : Eraser) →
    er.structOf = declared →
    Goes (declaredBy declared items)
      ((declareStructs aliases (fuel + 1) items er).map fun er => ((), er))
      (BasesEnd (fun declared ty => EndsIn (nextErased aliases declared) fuel ty.inner)
      declared items)
  | [], declared, er, h => Goes.pure _ h
  | .fn _ :: items, declared, er, h => declareStructs_goes items declared er h
  | .typeAlias _ (.base _) :: items, declared, er, h => declareStructs_goes items declared er h
  | .typeAlias _ (.named _) :: items, declared, er, h => declareStructs_goes items declared er h
  | .typeAlias _ (.array _ _) :: items, declared, er, h => declareStructs_goes items declared er h
  | .typeAlias name (.refine bind base pred) :: items, declared, er, h => by
    rw [declareStructs, declareStructFor, Option.bind_eq_bind, Option.bind_eq_bind,
      Option.bind_assoc, Option.map_bind, BasesEnd]
    exact (eraseType_goes fuel base er h).bind fun field er h =>
      declareStructs_goes items (name :: declared) _ (congrArg (name :: ·) h)

theorem isSome_eraseWithin (m : Module) :
    (eraseWithin (fuel + 1) m).isSome = true ↔
      BasesEnd (fun declared ty => EndsIn (nextErased m.aliases declared) fuel ty.inner)
      [] m.items ∧
        ∀ f ∈ m.funs, ErasesAll m.aliases m.declared fuel f.types := by
  have hdeclare : Goes m.declared ((declareStructs m.aliases (fuel + 1) m.items .empty).map
      fun er => ((), er)) (BasesEnd (fun declared ty =>
        EndsIn (nextErased m.aliases declared) fuel ty.inner) [] m.items) :=
    declareStructs_goes m.items [] .empty rfl
  rw [eraseWithin]
  cases hstructs : declareStructs m.aliases (fuel + 1) m.items .empty with
  | none =>
    rw [hstructs] at hdeclare
    exact iff_of_false (fun h => nomatch h) fun h => nomatch hdeclare.1.mpr h.1
  | some er =>
    rw [hstructs] at hdeclare
    have hdeclared : er.structOf = m.declared := hdeclare.2 () er rfl
    rw [and_iff_right (hdeclare.1.mp rfl)]
    have hreturns : Goes m.declared ((eraseReturns m.aliases (fuel + 1) m.funs er).map
        fun er => ((), er)) (∀ f ∈ m.funs,
          EndsIn (nextErased m.aliases m.declared) fuel f.ret.inner) :=
      eraseReturns_goes m.funs er hdeclared
    dsimp only [Option.bind_eq_bind, bind_some]
    cases hrets : eraseReturns m.aliases (fuel + 1) m.funs er with
    | none =>
      rw [hrets] at hreturns
      refine iff_of_false (fun h => nomatch h) fun h => ?_
      exact nomatch hreturns.1.mpr fun f hf => h f hf f.ret (mem_cons_self ..)
    | some er' =>
      rw [hrets] at hreturns
      have hfuns := eraseFuns_goes m.funs er' (hreturns.2 () er' rfl) (hreturns.1.mp rfl)
      rw [← hfuns.1]
      dsimp only [bind_some]
      cases eraseFuns m.aliases (fuel + 1) m.funs er' <;> rfl

end Erase

/-! ### The walk -/

mutual

def Expr.returnsLiteral : Expr → Bool
  | .num _ | .bool _ | .var _ => false
  | .arrayLit es => returnsLiteralAll es
  | .bin _ a b => a.returnsLiteral || b.returnsLiteral
  | .un _ a => a.returnsLiteral
  | .ifThen _ then_ els => then_.returnsLiteral || els.returnsLiteral
  | .letIn _ value body => value.returnsLiteral || body.returnsLiteral
  | .call _ args => returnsLiteralAll args
  | .method recv _ args => recv.returnsLiteral || returnsLiteralAll args
  | .lambda _ body => body.returnsLiteral
  | .record fields => returnsLiteralFields fields
  | .cast value _ => value.returnsLiteral
  | .ret (.arrayLit _) => true
  | .ret e => e.returnsLiteral

def returnsLiteralAll : List Expr → Bool
  | [] => false
  | e :: es => e.returnsLiteral || returnsLiteralAll es

def returnsLiteralFields : List (String × Expr) → Bool
  | [] => false
  | (_, e) :: fields => e.returnsLiteral || returnsLiteralFields fields

end

section Walk

variable {A B : Type} {P Q : Prop}

theorem isSome_bind_iff {x : Option A} {f : A → Option B} (hx : x.isSome = true ↔ P)
    (hf : ∀ a, (f a).isSome = true ↔ Q) : (x.bind f).isSome = true ↔ P ∧ Q := by
  cases x with
  | none => exact iff_of_false (fun h => nomatch h) fun h => nomatch hx.mpr h.1
  | some a => exact (hf a).trans (and_iff_right (hx.mp rfl)).symm

theorem isSome_bind_some {x : Option A} {f : A → B} (hx : x.isSome = true ↔ P) :
    (x.bind fun a => some (f a)).isSome = true ↔ P := by
  cases x with
  | none => exact hx
  | some a => exact hx

theorem returnsLiteral_ret (e : Expr) :
    (Expr.ret e).returnsLiteral = true ↔ e.returnsLiteral = true ∨ ∃ es, e = .arrayLit es := by
  cases e with
  | arrayLit es => exact iff_of_true rfl (.inr ⟨es, rfl⟩)
  | _ =>
    refine (or_iff_left ?_).symm
    rintro ⟨es, he⟩
    cases he

theorem or_imp_iff {a b : Bool} : ((a || b) = true → P) ↔ (a = true → P) ∧ (b = true → P) := by
  rw [Bool.or_eq_true, or_imp]

namespace Checker

variable {c : Checker}

/-- The return type has a length, or a name under it that is no array. -/
def HasLength (c : Checker) : Prop :=
  (c.arrayLenOf (c.aliases.length + 1) c.ret).isSome = true

theorem isSome_checkCast {value : Expr} {ty : Ty} {ctx : List Constraint}
    (h : (c.asRefine ty).isSome = true) : (c.checkCast value ty ctx).isSome = true := by
  obtain ⟨refined, hrefined⟩ := isSome_iff_exists.mp h
  rw [checkCast, hrefined]
  cases refined with
  | none => rfl
  | some r => rfl

theorem isSome_checkReturn (h : (c.asRefine c.ret).isSome = true) (e : Expr)
    (ctx : List Constraint) :
    (c.checkReturn e ctx).isSome = true ↔ ((∃ es, e = .arrayLit es) → c.HasLength) := by
  obtain ⟨refined, hrefined⟩ := isSome_iff_exists.mp h
  unfold checkReturn
  rw [hrefined]
  cases e with
  | arrayLit es =>
    rw [HasLength]
    cases hlength : c.arrayLenOf (c.aliases.length + 1) c.ret with
    | none => exact iff_of_false (fun h => nomatch h) fun h => nomatch h ⟨es, rfl⟩
    | some n =>
      refine iff_of_true ?_ fun _ => rfl
      cases n with
      | none => rfl
      | some n =>
        dsimp only [Option.bind_eq_bind, bind_some]
        split <;> rfl
  | _ =>
    refine iff_of_true rfl ?_
    rintro ⟨es, he⟩
    cases he

mutual

theorem isSome_walk (hret : (c.asRefine c.ret).isSome = true) :
    (e : Expr) → (ctx : List Constraint) →
    (∀ ty ∈ e.castTypes, (c.asRefine ty).isSome = true) →
    ((c.walk e ctx).isSome = true ↔ (e.returnsLiteral = true → c.HasLength))
  | .num _, ctx, h | .bool _, ctx, h | .var _, ctx, h => by
    rw [walk]
    exact iff_of_true rfl fun h => nomatch h
  | .arrayLit es, ctx, h => by
    rw [walk]
    exact isSome_walkAll hret es ctx h
  | .bin op a b, ctx, h => by
    have h := forall_mem_append.mp h
    rw [walk, Expr.returnsLiteral, or_imp_iff]
    exact isSome_bind_iff (isSome_walk hret a ctx h.1) fun _ => isSome_bind_some
      (isSome_walk hret b ctx h.2)
  | .un op a, ctx, h => by
    rw [walk]
    exact isSome_walk hret a ctx h
  | .ifThen cond then_ els, ctx, h => by
    have h := forall_mem_append.mp (forall_mem_append.mp h).2
    rw [walk, Expr.returnsLiteral, or_imp_iff]
    exact isSome_bind_iff (isSome_walk hret then_ _ h.1) fun _ => isSome_bind_some
      (isSome_walk hret els _ h.2)
  | .letIn name value body, ctx, h => by
    have h := forall_mem_append.mp h
    rw [walk, Expr.returnsLiteral, or_imp_iff]
    exact isSome_bind_iff (isSome_walk hret value _ h.1) fun _ => isSome_bind_some
      (isSome_walk hret body _ h.2)
  | .call func args, ctx, h => by
    rw [walk]
    exact isSome_walkAll hret args ctx h
  | .method recv name args, ctx, h => by
    have h := forall_mem_append.mp h
    rw [walk, Expr.returnsLiteral, or_imp_iff]
    exact isSome_bind_iff (isSome_walk hret recv _ h.1) fun _ => isSome_bind_some
      (isSome_walkAll hret args _ h.2)
  | .lambda params body, ctx, h => by
    rw [walk]
    exact isSome_walk hret body ctx h
  | .record fields, ctx, h => by
    rw [walk]
    exact isSome_walkFields hret fields ctx h
  | .cast value ty, ctx, h => by
    have h := forall_mem_cons.mp h
    rw [walk, Expr.returnsLiteral, ← and_true (value.returnsLiteral = true → c.HasLength)]
    exact isSome_bind_iff (isSome_walk hret value ctx h.2) fun _ =>
      isSome_bind_some (iff_true_intro (isSome_checkCast h.1))
  | .ret e, ctx, h => by
    rw [walk, returnsLiteral_ret, or_imp]
    exact isSome_bind_iff (isSome_walk hret e ctx h) fun _ =>
      isSome_bind_some (isSome_checkReturn hret e ctx)

theorem isSome_walkAll (hret : (c.asRefine c.ret).isSome = true) :
    (es : List Expr) → (ctx : List Constraint) →
    (∀ ty ∈ castTypesAll es, (c.asRefine ty).isSome = true) →
    ((c.walkAll es ctx).isSome = true ↔ (returnsLiteralAll es = true → c.HasLength))
  | [], ctx, h => by
    rw [walkAll]
    exact iff_of_true rfl fun h => nomatch h
  | e :: es, ctx, h => by
    have h := forall_mem_append.mp h
    rw [walkAll, returnsLiteralAll, or_imp_iff]
    exact isSome_bind_iff (isSome_walk hret e ctx h.1) fun _ => isSome_bind_some
      (isSome_walkAll hret es ctx h.2)

theorem isSome_walkFields (hret : (c.asRefine c.ret).isSome = true) :
    (fields : List (String × Expr)) → (ctx : List Constraint) →
    (∀ ty ∈ castTypesFields fields, (c.asRefine ty).isSome = true) →
    ((c.walkFields fields ctx).isSome = true ↔ (returnsLiteralFields fields = true → c.HasLength))
  | [], ctx, h => by
    rw [walkFields]
    exact iff_of_true rfl fun h => nomatch h
  | (f, e) :: fields, ctx, h => by
    have h := forall_mem_append.mp h
    rw [walkFields, returnsLiteralFields, or_imp_iff]
    exact isSome_bind_iff (isSome_walk hret e ctx h.1) fun _ =>
      isSome_bind_some (isSome_walkFields hret fields ctx h.2)

end

end Checker

theorem isSome_checkFuns {p : Platform} {aliases : List (String × Ty)} {lemmas : List Lemma}
    {fs : List Fun} : (checkFuns p aliases lemmas fs).isSome = true ↔
      ∀ f ∈ fs, (checkFun p aliases lemmas f).isSome = true := by
  induction fs with
  | nil => exact iff_of_true rfl fun _ h => nomatch h
  | cons f fs ih =>
    rw [checkFuns, forall_mem_cons]
    exact isSome_bind_iff Iff.rfl fun _ => isSome_bind_some ih

end Walk

theorem nextErased_of_nextName {aliases : List (String × Ty)} {declared : List String}
    {a b : String}
    (h : nextName aliases a = some b) : nextErased aliases declared a = some b := by
  rw [nextName] at h
  rw [nextErased]
  cases hget : assocGet aliases a with
  | none =>
    rw [hget] at h
    cases h
  | some ty =>
    rw [hget] at h
    cases ty with
    | named n => exact h
    | _ => cases h

theorem Ends.alone {aliases : List (String × Ty)} {declared : List String} {ty : Ty}
    (h : Ends (nextErased aliases declared) ty.inner) : Ends (nextName aliases) ty.alone := by
  intro n hn hcircular
  cases ty with
  | named m => exact h n hn (Circular.mono (fun _ _ => nextErased_of_nextName) hcircular)
  | _ => cases hn

theorem isSome_checkFun {p : Platform} {aliases : List (String × Ty)} {lemmas : List Lemma}
    {declared : List String} {f : Fun}
    (htypes : ∀ ty ∈ f.types, Ends (nextErased aliases declared) ty.inner) :
    (checkFun p aliases lemmas f).isSome = true ↔
      (f.body.returnsLiteral = true → Ends (nextLength aliases) f.ret.refined) := by
  have hrefine : ∀ ty ∈ f.types, ((⟨p, aliases, lemmas, f.ensures, f.ret, f.name⟩ :
      Checker).asRefine ty).isSome = true := by
    intro ty hty
    rw [Checker.isSome_asRefine]
    refine (Checker.isSome_resolve ty).mpr
      ((endsIn_iff ?_ (le_refl _)).mpr (htypes ty hty).alone)
    exact isSome_of_bind
  have hcasts : ∀ ty ∈ f.body.castTypes, ty ∈ f.types := fun ty hty =>
    mem_cons_of_mem _ (mem_append_right _ hty)
  rw [checkFun]
  refine (isSome_bind_some (Checker.isSome_walk (hrefine f.ret (mem_cons_self ..)) f.body _
    fun ty hty => hrefine ty (hcasts ty hty))).trans (imp_congr_right fun _ => ?_)
  exact (Checker.isSome_arrayLenOf _ _).trans (endsIn_iff isSome_of_bind (le_refl _))

theorem isSome_check {p : Platform} {m : Module} {declared : List String}
    (htypes : ∀ f ∈ m.funs, ∀ ty ∈ f.types, Ends (nextErased m.aliases declared) ty.inner) :
    (check p m).isSome = true ↔
      ∀ f ∈ m.funs, f.body.returnsLiteral = true → Ends (nextLength m.aliases) f.ret.refined := by
  rw [check, checkWith]
  refine (isSome_bind_some isSome_checkFuns).trans ?_
  exact forall₂_congr fun f hf => isSome_checkFun (htypes f hf)

theorem endsIn_nextErased_iff {aliases : List (String × Ty)} {declared : List String} {fuel : Nat}
    (hfuel : aliases.length ≤ fuel) {start : Option String} :
    EndsIn (nextErased aliases declared) fuel start ↔ Ends (nextErased aliases declared) start := by
  refine endsIn_iff (fun k hk => ?_) hfuel
  rw [nextErased] at hk
  exact isSome_of_bind k hk

theorem BasesEnd.imp {P Q : List String → Ty → Prop}
    (h : ∀ declared ty, P declared ty → Q declared ty) :
    (items : List Item) → (declared : List String) → BasesEnd P declared items →
      BasesEnd Q declared items
  | [], _, _ => trivial
  | .fn _ :: items, declared, hP => imp h items declared hP
  | .typeAlias _ (.base _) :: items, declared, hP => imp h items declared hP
  | .typeAlias _ (.named _) :: items, declared, hP => imp h items declared hP
  | .typeAlias _ (.array _ _) :: items, declared, hP => imp h items declared hP
  | .typeAlias name (.refine _ base _) :: items, declared, hP =>
    ⟨h declared base hP.1, imp h items (name :: declared) hP.2⟩

def Module.Erases (m : Module) : Prop :=
  BasesEnd (fun declared ty => Ends (nextErased m.aliases declared) ty.inner) [] m.items ∧
    ∀ f ∈ m.funs, ∀ ty ∈ f.types, Ends (nextErased m.aliases m.declared) ty.inner

theorem Module.erases_of_eraseWithin {m : Module} {fuel : Nat}
    (h : (eraseWithin (fuel + 1) m).isSome = true) : m.Erases := by
  obtain ⟨hbases, hfuns⟩ := (isSome_eraseWithin m).mp h
  exact ⟨hbases.imp (fun _ _ => Ends.of_endsIn) m.items [],
    fun f hf ty hty => Ends.of_endsIn (hfuns f hf ty hty)⟩

theorem isSome_erase (m : Module) : (erase m).isSome = true ↔ m.Erases := by
  constructor
  · exact Module.erases_of_eraseWithin
  · rintro ⟨hbases, hfuns⟩
    refine (isSome_eraseWithin m).mpr ⟨hbases.imp (fun _ _ => ?_) m.items [], fun f hf ty hty => ?_⟩
    · exact (endsIn_nextErased_iff (le_refl _)).mpr
    · exact (endsIn_nextErased_iff (le_refl _)).mpr (hfuns f hf ty hty)

/-- Neither the check nor the erasure runs in a circle just where no type leads into one,
and the return type of no function that returns an array literal does. More steps than
there are aliases never help. -/
theorem front_end_terminates_iff (p : Platform) (m : Module) :
    ((check p m).isSome = true ∧ (erase m).isSome = true ↔
      m.Erases ∧ ∀ f ∈ m.funs, f.body.returnsLiteral = true →
        Ends (nextLength m.aliases) f.ret.refined) ∧
    (∀ fuel, (eraseWithin (fuel + 1) m).isSome = true → (erase m).isSome = true) ∧
    ∀ (c : Checker) fuel ty,
      ((c.resolve (fuel + 1) ty).isSome = true →
        (c.resolve (c.aliases.length + 1) ty).isSome = true) ∧
      ((c.arrayLenOf (fuel + 1) ty).isSome = true →
        (c.arrayLenOf (c.aliases.length + 1) ty).isSome = true) := by
  refine ⟨?_, fun fuel h => (isSome_erase m).mpr (Module.erases_of_eraseWithin h),
    fun c fuel ty => ⟨fun h => ?_, fun h => ?_⟩⟩
  · rw [and_comm, isSome_erase]
    exact and_congr_right fun h => isSome_check h.2
  · have hends := Ends.of_endsIn ((Checker.isSome_resolve ty).mp h)
    exact (Checker.isSome_resolve ty).mpr ((endsIn_iff isSome_of_bind (le_refl _)).mpr hends)
  · have hends := Ends.of_endsIn ((Checker.isSome_arrayLenOf fuel ty).mp h)
    exact (Checker.isSome_arrayLenOf _ ty).mpr
      ((endsIn_iff isSome_of_bind (le_refl _)).mpr hends)

/-- Two aliases that name each other. -/
def Module.circle : Module :=
  ⟨[.typeAlias "A" (.named "B"), .typeAlias "B" (.named "A"),
    .fn ⟨"f", [("x", .named "A")], .base "f64", none, none, .ret (.num ⟨0x3FF0000000000000⟩)⟩]⟩

/-- The erasure of the module goes on for ever, whatever the number of steps. -/
theorem Module.circle_never_ends :
    ¬∃ fuel, (eraseWithin (fuel + 1) Module.circle).isSome = true := by
  rintro ⟨fuel, h⟩
  have hcircle : Circular (nextErased Module.circle.aliases Module.circle.declared) "A" :=
    ⟨"A", .refl, .head (b := "B") rfl (.single rfl)⟩
  have hends := (Module.erases_of_eraseWithin h).2 _ (mem_singleton_self _) (.named "A")
    (by simp [Fun.types])
  exact hends "A" rfl hcircle

end Oikos.Eidos
