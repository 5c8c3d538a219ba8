/-
The fields of generated structs: an access is counted where it stands in a clause or
in an assignment of the body itself, and for the type of the first parameter of the
module that has the name of its base.
-/
import Oikos.Telos.Backends

namespace Oikos.Telos

open List

/-! ### All accesses -/

mutual

def Expr.fieldAccesses : Expr → List (Name × Name)
  | .int _ | .var _ => []
  | .field base field => [(base, field)]
  | .old e | .unary _ e | .tryOn e => e.fieldAccesses
  | .bin _ lhs rhs => lhs.fieldAccesses ++ rhs.fieldAccesses
  | .call _ args | .aggregate _ args => fieldAccessesAll args
  | .methodCall receiver _ args => receiver.fieldAccesses ++ fieldAccessesAll args
  | .index receiver index => receiver.fieldAccesses ++ index.fieldAccesses
  | .ifThen condition thenExpr elseExpr =>
    condition.fieldAccesses ++ thenExpr.fieldAccesses ++ elseExpr.fieldAccesses
  | .matchOn scrutinee arms => scrutinee.fieldAccesses ++ fieldAccessesArms arms
  | .forAll _ _ none body => body.fieldAccesses
  | .forAll _ _ (some domain) body => domain.fieldAccesses ++ body.fieldAccesses
  | .range lo hi => lo.fieldAccesses ++ hi.fieldAccesses

def fieldAccessesAll : List Expr → List (Name × Name)
  | [] => []
  | e :: es => e.fieldAccesses ++ fieldAccessesAll es

def fieldAccessesArms : List (Pattern × Expr) → List (Name × Name)
  | [] => []
  | (_, e) :: arms => e.fieldAccesses ++ fieldAccessesArms arms

end

def Assign.fieldAccesses (a : Assign) : List (Name × Name) :=
  a.target.fieldAccesses ++ a.value.fieldAccesses

mutual

def Stmt.fieldAccesses : Stmt → List (Name × Name)
  | .mutateState assigns => assigns.flatMap Assign.fieldAccesses
  | .assign a => a.fieldAccesses
  | .letIn _ _ value => value.fieldAccesses
  | .ifThen condition thenBody none => condition.fieldAccesses ++ blockAccesses thenBody
  | .ifThen condition thenBody (some elseBody) =>
    condition.fieldAccesses ++ blockAccesses thenBody ++ blockAccesses elseBody
  | .matchOn scrutinee arms => scrutinee.fieldAccesses ++ armAccesses arms
  | .ret none => []
  | .ret (some e) => e.fieldAccesses

def blockAccesses : List Stmt → List (Name × Name)
  | [] => []
  | s :: ss => s.fieldAccesses ++ blockAccesses ss

def armAccesses : List (Pattern × List Stmt) → List (Name × Name)
  | [] => []
  | (_, body) :: arms => blockAccesses body ++ armAccesses arms

end

def SourceFunc.fieldAccesses (f : SourceFunc) : List (Name × Name) :=
  (f.requires ++ f.ensures).flatMap Expr.fieldAccesses ++ blockAccesses f.body

/-! ### Recorded fields -/

def recorded (types : TypeFields) (ty : String) : List Name :=
  ((types.get ty).getD []).map Prod.fst

def collectAll (modules : List SourceModule) : TypeFields :=
  modules.foldl (fun types m => collectTypes m types) .empty

/-- The type that the accesses on a base are counted for. -/
def SourceModule.owner (m : SourceModule) (base : Name) : String :=
  match (m.funcs.flatMap SourceFunc.params).find? (·.name = base) with
  | some p => p.ty.name
  | none => base.text

/-- The accesses that are counted. -/
def SourceModule.scanned (m : SourceModule) : List (Name × Name) :=
  m.funcs.flatMap SourceFunc.usedFields

def SourceItem.isStruct : SourceItem → Bool
  | .struct _ => true
  | _ => false

section Push

variable {entry fields : Fields} {types : TypeFields} {ty ty' : String} {f : Name}

theorem mem_push {g : Name × Ty} :
    f ∈ (entry.push g).map Prod.fst ↔ f ∈ entry.map Prod.fst ∨ f = g.1 := by
  unfold Fields.push
  by_cases hany : entry.any (·.1 == g.1) = true
  · rw [if_pos hany]
    refine ⟨Or.inl, fun h => h.elim id fun hf => ?_⟩
    obtain ⟨h, hmem, hname⟩ := any_eq_true.mp hany
    rw [hf, ← beq_iff_eq.mp hname]
    exact mem_map_of_mem hmem
  · rw [if_neg hany, map_append, mem_append, map_singleton, mem_singleton]

theorem nodup_push {g : Name × Ty} (h : (entry.map Prod.fst).Nodup) :
    ((entry.push g).map Prod.fst).Nodup := by
  unfold Fields.push
  by_cases hany : entry.any (·.1 == g.1) = true
  · rwa [if_pos hany]
  · rw [if_neg hany, map_append]
    refine nodup_append.mpr ⟨h, nodup_singleton _, ?_⟩
    rintro a ha b hb rfl
    obtain ⟨e, hmem, hname⟩ := mem_map.mp ha
    refine hany (any_eq_true.mpr ⟨e, hmem, beq_iff_eq.mpr ?_⟩)
    rw [hname]
    exact mem_singleton.mp hb

theorem mem_foldl_push :
    f ∈ (fields.foldl Fields.push entry).map Prod.fst ↔
      f ∈ entry.map Prod.fst ∨ f ∈ fields.map Prod.fst := by
  induction fields generalizing entry with
  | nil => simp
  | cons g fields ih => rw [foldl_cons, ih, mem_push, map_cons, mem_cons, or_assoc]

theorem nodup_foldl_push (h : (entry.map Prod.fst).Nodup) :
    ((fields.foldl Fields.push entry).map Prod.fst).Nodup := by
  induction fields generalizing entry with
  | nil => exact h
  | cons g fields ih => exact ih (nodup_push h)

theorem mem_recorded_add :
    f ∈ recorded (types.add ty fields) ty' ↔
      f ∈ recorded types ty' ∨ ty = ty' ∧ f ∈ fields.map Prod.fst := by
  rw [recorded, TypeFields.add, Table.get_insert]
  by_cases hty : ty' = ty
  · subst hty
    rw [if_pos rfl, Option.getD_some, mem_foldl_push, recorded]
    simp
  · rw [if_neg hty]
    simp [recorded, Ne.symm hty]

def OnceEach (types : TypeFields) : Prop :=
  ∀ ty, (recorded types ty).Nodup

theorem onceEach_add (h : OnceEach types) : OnceEach (types.add ty fields) := by
  intro ty'
  rw [recorded, TypeFields.add, Table.get_insert]
  by_cases hty : ty' = ty
  · rw [if_pos hty, Option.getD_some]
    exact nodup_foldl_push (h ty)
  · rw [if_neg hty]
    exact h ty'

end Push

section Collect

variable {m : SourceModule} {types : TypeFields} {ty : String} {f base : Name}
  {used : List (Name × Name)} {ps : List SourceParam}

theorem mem_fieldsOf : f ∈ (fieldsOf used base).map Prod.fst ↔ (base, f) ∈ used := by
  simp [fieldsOf]

theorem repoint_eq (acc : List (Name × Name) × TypeFields) (p : SourceParam) :
    (repoint acc p).1 = acc.1.filter (·.1 != p.name) ∧
      ((OnceEach acc.2) → OnceEach (repoint acc p).2) ∧ ∀ f ty,
        f ∈ recorded (repoint acc p).2 ty ↔
          f ∈ recorded acc.2 ty ∨ p.ty.name = ty ∧ (p.name, f) ∈ acc.1 := by
  unfold repoint
  by_cases hany : acc.1.any (·.1 == p.name) = true
  · rw [if_pos hany]
    refine ⟨rfl, onceEach_add, fun f ty => ?_⟩
    rw [mem_recorded_add, mem_fieldsOf]
  · rw [if_neg hany]
    have hnone : ∀ f, (p.name, f) ∉ acc.1 := fun f hf =>
      hany (any_eq_true.mpr ⟨_, hf, beq_self_eq_true p.name⟩)
    refine ⟨(filter_eq_self.mpr fun a ha => ?_).symm, id, fun f ty => ?_⟩
    · rw [bne_iff_ne]
      intro heq
      exact hnone a.2 (heq ▸ ha)
    · simp [hnone]

theorem foldl_repoint (ps : List SourceParam) (acc : List (Name × Name) × TypeFields) :
    (∀ a, a ∈ (ps.foldl repoint acc).1 ↔ a ∈ acc.1 ∧ ps.find? (·.name = a.1) = none) ∧
      (OnceEach acc.2 → OnceEach (ps.foldl repoint acc).2) ∧ ∀ f ty,
        f ∈ recorded (ps.foldl repoint acc).2 ty ↔ f ∈ recorded acc.2 ty ∨
          ∃ base p, (base, f) ∈ acc.1 ∧ ps.find? (·.name = base) = some p ∧ p.ty.name = ty := by
  induction ps generalizing acc with
  | nil => simp
  | cons p ps ih =>
    obtain ⟨hrest, honce, hmem⟩ := repoint_eq acc p
    obtain ⟨ihrest, ihonce, ihmem⟩ := ih (repoint acc p)
    rw [foldl_cons]
    refine ⟨fun a => ?_, fun h => ihonce (honce h), fun f ty => ?_⟩
    · rw [ihrest, hrest, mem_filter, find?_cons]
      by_cases hname : p.name = a.1
      · simp [hname]
      · simp [hname, Ne.symm hname]
    · rw [ihmem, hmem, hrest, or_assoc]
      refine or_congr_right ⟨?_, ?_⟩
      · rintro (⟨hty, hp⟩ | ⟨base, q, hbase, hfind, hty⟩)
        · exact ⟨p.name, p, hp, by simp, hty⟩
        · obtain ⟨hbase, hne⟩ := mem_filter.mp hbase
          have hname : p.name ≠ base := fun h => by simp [h] at hne
          exact ⟨base, q, hbase, by simpa [hname] using hfind, hty⟩
      · rintro ⟨base, q, hbase, hfind, hty⟩
        by_cases hname : p.name = base
        · rw [find?_cons_of_pos (by simpa using hname)] at hfind
          cases hfind
          exact Or.inl ⟨hty, hname ▸ hbase⟩
        · rw [find?_cons_of_neg (by simpa using hname)] at hfind
          refine Or.inr ⟨base, q, mem_filter.mpr ⟨hbase, ?_⟩, hfind, hty⟩
          simpa using Ne.symm hname

theorem foldl_addBase (bases : List Name) (types : TypeFields) :
    (OnceEach types →
      OnceEach (bases.foldl (fun types base => types.add base.text (fieldsOf used base)) types)) ∧
      ∀ f ty, f ∈ recorded
          (bases.foldl (fun types base => types.add base.text (fieldsOf used base)) types) ty ↔
        f ∈ recorded types ty ∨ ∃ base ∈ bases, base.text = ty ∧ (base, f) ∈ used := by
  induction bases generalizing types with
  | nil => simp
  | cons base bases ih =>
    obtain ⟨ihonce, ihmem⟩ := ih (types.add base.text (fieldsOf used base))
    refine ⟨fun h => ihonce (onceEach_add h), fun f ty => ?_⟩
    rw [foldl_cons, ihmem, mem_recorded_add, mem_fieldsOf, or_assoc, exists_mem_cons_iff]

theorem foldl_declareType (items : List SourceItem) (types : TypeFields) :
    (OnceEach types → OnceEach (items.foldl declareType types)) ∧
      ((∀ i ∈ items, i.isStruct = false) → ∀ f ty,
        f ∈ recorded (items.foldl declareType types) ty ↔ f ∈ recorded types ty) := by
  induction items generalizing types with
  | nil => simp
  | cons i items ih =>
    have hstep : (OnceEach types → OnceEach (declareType types i)) ∧
        (i.isStruct = false → ∀ f ty,
          f ∈ recorded (declareType types i) ty ↔ f ∈ recorded types ty) := by
      cases i with
      | struct sd => exact ⟨onceEach_add, fun h => by cases h⟩
      | enum ed =>
        refine ⟨onceEach_add, fun _ f ty => ?_⟩
        rw [declareType, mem_recorded_add]
        simp
      | invariant | func => exact ⟨id, fun _ _ _ => Iff.rfl⟩
    obtain ⟨ihonce, ihmem⟩ := ih (declareType types i)
    refine ⟨fun h => ihonce (hstep.1 h), fun h f ty => ?_⟩
    obtain ⟨hi, hitems⟩ := forall_mem_cons.mp h
    exact (ihmem hitems f ty).trans (hstep.2 hi f ty)

theorem onceEach_collectTypes (h : OnceEach types) : OnceEach (collectTypes m types) :=
  (foldl_addBase _ _).1 ((foldl_repoint _ _).2.1 ((foldl_declareType m.items types).1 h))

theorem mem_collectTypes (h : ∀ i ∈ m.items, i.isStruct = false) :
    f ∈ recorded (collectTypes m types) ty ↔
      f ∈ recorded types ty ∨ ∃ base, (base, f) ∈ m.scanned ∧ m.owner base = ty := by
  obtain ⟨hrest, _, hmem⟩ := foldl_repoint (m.funcs.flatMap SourceFunc.params)
    (m.funcs.flatMap SourceFunc.usedFields, m.items.foldl declareType types)
  rw [collectTypes]
  dsimp only
  rw [(foldl_addBase _ _).2, hmem, (foldl_declareType m.items types).2 h, or_assoc]
  refine or_congr_right ⟨?_, ?_⟩
  · rintro (⟨base, p, hbase, hfind, hty⟩ | ⟨base, _, hty, hbase⟩)
    · exact ⟨base, hbase, by rw [SourceModule.owner, hfind]; exact hty⟩
    · obtain ⟨hbase, hfind⟩ := (hrest _).mp hbase
      exact ⟨base, hbase, by rw [SourceModule.owner, hfind]; exact hty⟩
  · rintro ⟨base, hbase, howner⟩
    rw [SourceModule.owner] at howner
    cases hfind : (m.funcs.flatMap SourceFunc.params).find? (·.name = base) with
    | some p =>
      rw [hfind] at howner
      exact Or.inl ⟨base, p, hbase, hfind, howner⟩
    | none =>
      rw [hfind] at howner
      have hleft := (hrest (base, f)).mpr ⟨hbase, hfind⟩
      exact Or.inr ⟨base, mem_dedup.mpr (mem_map_of_mem hleft), howner, hleft⟩

end Collect

section Programs

variable {modules : List SourceModule} {types : TypeFields} {ty : String} {f : Name}

theorem foldl_collectTypes (modules : List SourceModule) (types : TypeFields) :
    (OnceEach types → OnceEach (modules.foldl (fun types m => collectTypes m types) types)) ∧
      ((∀ m ∈ modules, ∀ i ∈ m.items, i.isStruct = false) → ∀ f ty,
        f ∈ recorded (modules.foldl (fun types m => collectTypes m types) types) ty ↔
          f ∈ recorded types ty ∨
            ∃ m ∈ modules, ∃ base, (base, f) ∈ m.scanned ∧ m.owner base = ty) := by
  induction modules generalizing types with
  | nil => simp
  | cons m modules ih =>
    obtain ⟨ihonce, ihmem⟩ := ih (collectTypes m types)
    refine ⟨fun h => ihonce (onceEach_collectTypes h), fun h f ty => ?_⟩
    obtain ⟨hm, hmodules⟩ := forall_mem_cons.mp h
    rw [foldl_cons, ihmem hmodules, mem_collectTypes hm, or_assoc, exists_mem_cons_iff]

theorem onceEach_collectAll (modules : List SourceModule) : OnceEach (collectAll modules) :=
  (foldl_collectTypes modules .empty).1 fun _ => nodup_nil

theorem mem_collectAll (h : ∀ m ∈ modules, ∀ i ∈ m.items, i.isStruct = false) :
    f ∈ recorded (collectAll modules) ty ↔
      ∃ m ∈ modules, ∃ base, (base, f) ∈ m.scanned ∧ m.owner base = ty := by
  rw [collectAll, (foldl_collectTypes modules .empty).2 h]
  simp [recorded]

def Used (modules : List SourceModule) (ty : String) (f : Name) : Prop :=
  ∃ m ∈ modules, ∃ func ∈ m.funcs, ∃ p ∈ func.params,
    p.ty.name = ty ∧ (p.name, f) ∈ func.fieldAccesses

/-- The field is counted for the type. -/
def Counted (modules : List SourceModule) (ty : String) (f : Name) : Prop :=
  ∃ m ∈ modules, ∃ base, (base, f) ∈ m.scanned ∧ m.owner base = ty

structure FieldsFit (modules : List SourceModule) (types : TypeFields) : Prop where
  complete : ∀ m ∈ modules, ∀ func ∈ m.funcs, ∀ p ∈ func.params, ∀ f,
    (p.name, f) ∈ func.fieldAccesses → f ∈ recorded types p.ty.name
  once : ∀ ty, (recorded types ty).Nodup
  sound : ∀ ty, ∀ f ∈ recorded types ty, Used modules ty f

/-- The fields are those that the code uses exactly where each access on a parameter
is counted for its type and each counted access is one on a parameter of the type. -/
theorem fieldsFit_iff (modules : List SourceModule)
    (h : ∀ m ∈ modules, ∀ i ∈ m.items, i.isStruct = false) :
    FieldsFit modules (collectAll modules) ↔
      (∀ m ∈ modules, ∀ func ∈ m.funcs, ∀ p ∈ func.params, ∀ f,
        (p.name, f) ∈ func.fieldAccesses → Counted modules p.ty.name f) ∧
      ∀ m ∈ modules, ∀ base f, (base, f) ∈ m.scanned → Used modules (m.owner base) f := by
  constructor
  · intro hfit
    refine ⟨fun m hm func hfunc p hp f hf => ?_, fun m hm base f hf => ?_⟩
    · exact (mem_collectAll h).mp (hfit.complete m hm func hfunc p hp f hf)
    · exact hfit.sound _ f ((mem_collectAll h).mpr ⟨m, hm, base, hf, rfl⟩)
  · rintro ⟨hcounted, hused⟩
    refine ⟨fun m hm func hfunc p hp f hf => ?_, onceEach_collectAll modules, fun ty f hf => ?_⟩
    · exact (mem_collectAll h).mpr (hcounted m hm func hfunc p hp f hf)
    · obtain ⟨m, hm, base, hbase, rfl⟩ := (mem_collectAll h).mp hf
      exact hused m hm base f hbase

def askFunc (name param field : Name) (ty : String) : SourceFunc where
  attributes := []
  name := name
  params := [⟨⟨param, .named ty⟩, .immutable⟩]
  returnTy := none
  requires := [.bin .eq (.field param field) (.int 0)]
  ensures := []
  body := []
  elided := false
  span := ⟨1, 1⟩
  requiresSpans := []
  ensuresSpans := []

def askModule (funcs : List SourceFunc) : SourceModule :=
  ⟨[], ⟨"Ask", by decide⟩, funcs.map .func⟩

def askW : Name :=
  ⟨"w", .refl true⟩

def askX : Name :=
  ⟨"x", by decide⟩

def askY : Name :=
  ⟨"y", by decide⟩

/-- `func w(w: A) requires w.x == 0` -/
theorem fieldsFit_single :
    FieldsFit [askModule [askFunc askW askW askX "A"]]
      (collectAll [askModule [askFunc askW askW askX "A"]]) := by
  refine (fieldsFit_iff _ (by decide)).mpr ⟨?_, ?_⟩
  · intro m hm func hfunc p hp f hf
    obtain rfl := mem_singleton.mp hm
    obtain rfl := mem_singleton.mp hfunc
    obtain rfl := mem_singleton.mp hp
    have hf' : (askW, f) ∈ [(askW, askX)] := hf
    obtain rfl : f = askX := congrArg Prod.snd (mem_singleton.mp hf')
    exact ⟨_, mem_singleton_self _, askW, mem_singleton_self _, rfl⟩
  · intro m hm base f hf
    obtain rfl := mem_singleton.mp hm
    have hf' : (base, f) ∈ [(askW, askX)] := hf
    obtain ⟨rfl, rfl⟩ := Prod.mk.inj (mem_singleton.mp hf')
    exact ⟨_, mem_singleton_self _, _, mem_singleton_self _, _, mem_singleton_self _,
      rfl, mem_singleton_self _⟩

/-- In `func w(w: A) requires w.x == 0` and `func x(w: B) requires w.y == 0` both fields
become fields of `A`. -/
theorem shared_parameter_name :
    let modules := [askModule [askFunc askW askW askX "A", askFunc askX askW askY "B"]]
    (∀ m ∈ modules, ∀ i ∈ m.items, i.isStruct = false) ∧
      ¬FieldsFit modules (collectAll modules) := by
  refine ⟨by decide, fun hfit => ?_⟩
  have hmem := hfit.complete _ (mem_singleton_self _) (askFunc askX askW askY "B")
    (mem_cons_of_mem _ (mem_singleton_self _)) _ (mem_singleton_self _) askY
    (mem_singleton_self _)
  exact absurd hmem (by decide)

end Programs

end Oikos.Telos
