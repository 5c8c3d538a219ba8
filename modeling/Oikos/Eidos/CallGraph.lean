/-
The check of termination on modules without recursion. The search from a function finds
the function itself, so every call of a function of the module counts as a recursive one.
-/
import Oikos.Eidos.Kernel
import Mathlib.Logic.Relation

namespace Oikos.Eidos

open List

/-! ### The search -/

section Search

variable {callees : List (String × List String)} {seen stack : List String} {f g x : String}

def Names (callees : List (String × List String)) (f g : String) : Prop :=
  g ∈ (assocGet callees f).getD []

theorem reachableFrom_sound (h : x ∈ reachableFrom callees seen stack) :
    x ∈ seen ∨ ∃ s ∈ stack, Relation.ReflTransGen (Names callees) s x := by
  induction seen, stack using reachableFrom.induct callees with
  | case1 seen =>
    rw [reachableFrom] at h
    exact Or.inl h
  | case2 seen n stack hseen ih =>
    rw [reachableFrom, if_pos hseen] at h
    rcases ih h with h | ⟨s, hs, hpath⟩
    · exact Or.inl h
    · exact Or.inr ⟨s, mem_cons_of_mem n hs, hpath⟩
  | case3 seen n stack hseen ih =>
    rw [reachableFrom, if_neg hseen] at h
    rcases ih h with h | ⟨s, hs, hpath⟩
    · rcases mem_cons.mp h with rfl | h
      · exact Or.inr ⟨x, mem_cons_self, .refl⟩
      · exact Or.inl h
    · rcases mem_append.mp hs with hs | hs
      · have hname : Names callees n s := mem_of_mem_filter (mem_reverse.mp hs)
        exact Or.inr ⟨n, mem_cons_self, .head hname hpath⟩
      · exact Or.inr ⟨s, mem_cons_of_mem n hs, hpath⟩

def Explored (callees : List (String × List String)) (seen stack : List String) : Prop :=
  ∀ n ∈ seen, ∀ m, Names callees n m → m ∈ seen ∨ m ∈ stack

theorem reachableFrom_closed (h : Explored callees seen stack) :
    (∀ n, n ∈ seen ∨ n ∈ stack → n ∈ reachableFrom callees seen stack) ∧
      ∀ n ∈ reachableFrom callees seen stack, ∀ m, Names callees n m →
        m ∈ reachableFrom callees seen stack := by
  induction seen, stack using reachableFrom.induct callees with
  | case1 seen =>
    rw [reachableFrom]
    refine ⟨fun n hn => hn.resolve_right not_mem_nil, fun n hn m hm => ?_⟩
    exact (h n hn m hm).resolve_right not_mem_nil
  | case2 seen n stack hseen ih =>
    have hmem : n ∈ seen := contains_iff_mem.mp hseen
    have hexplored : Explored callees seen stack := by
      intro k hk m hm
      rcases h k hk m hm with hm | hm
      · exact Or.inl hm
      · rcases mem_cons.mp hm with rfl | hm
        · exact Or.inl hmem
        · exact Or.inr hm
    obtain ⟨hall, hclosed⟩ := ih hexplored
    rw [reachableFrom, if_pos hseen]
    refine ⟨fun k hk => ?_, hclosed⟩
    rcases hk with hk | hk
    · exact hall k (Or.inl hk)
    · rcases mem_cons.mp hk with rfl | hk
      · exact hall k (Or.inl hmem)
      · exact hall k (Or.inr hk)
  | case3 seen n stack hseen ih =>
    have hexplored : Explored callees (n :: seen)
        ((((assocGet callees n).getD []).filter fun f => !(n :: seen).contains f).reverse ++
          stack) := by
      intro k hk m hm
      rcases mem_cons.mp hk with rfl | hk
      · -- the callees of the function are seen by now, or pushed
        by_cases hm' : (k :: seen).contains m = true
        · exact Or.inl (contains_iff_mem.mp hm')
        · refine Or.inr (mem_append_left _ (mem_reverse.mpr ?_))
          exact mem_filter.mpr ⟨hm, by simpa using hm'⟩
      · rcases h k hk m hm with hm | hm
        · exact Or.inl (mem_cons_of_mem n hm)
        · rcases mem_cons.mp hm with rfl | hm
          · exact Or.inl mem_cons_self
          · exact Or.inr (mem_append_right _ hm)
    obtain ⟨hall, hclosed⟩ := ih hexplored
    rw [reachableFrom, if_neg hseen]
    refine ⟨fun k hk => ?_, hclosed⟩
    rcases hk with hk | hk
    · exact hall k (Or.inl (mem_cons_of_mem n hk))
    · rcases mem_cons.mp hk with rfl | hk
      · exact hall k (Or.inl mem_cons_self)
      · exact hall k (Or.inr (mem_append_right _ hk))

/-- The search finds what calls lead to, in no steps or more. -/
theorem mem_reachable :
    g ∈ reachable callees f ↔ Relation.ReflTransGen (Names callees) f g := by
  constructor
  · intro h
    rcases reachableFrom_sound h with h | ⟨s, hs, hpath⟩
    · cases h
    · exact mem_singleton.mp hs ▸ hpath
  · intro h
    have hexplored : Explored callees [] [f] := fun n hn => absurd hn not_mem_nil
    obtain ⟨hall, hclosed⟩ := reachableFrom_closed hexplored
    induction h with
    | refl => exact hall f (Or.inr mem_cons_self)
    | tail _ hstep ih => exact hclosed _ ih _ hstep

end Search

/-! ### Modules -/

mutual

/-- Every call in an expression, those in array literals too. -/
def Expr.allCalls : Expr → List (String × List Expr)
  | .num _ | .bool _ | .var _ => []
  | .arrayLit es => allCallsAll es
  | .bin _ a b => a.allCalls ++ b.allCalls
  | .un _ a => a.allCalls
  | .ifThen cond then_ els => cond.allCalls ++ then_.allCalls ++ els.allCalls
  | .letIn _ value body => value.allCalls ++ body.allCalls
  | .call func args => (func, args) :: allCallsAll args
  | .method recv _ args => recv.allCalls ++ allCallsAll args
  | .lambda _ body => body.allCalls
  | .record fields => allCallsFields fields
  | .cast value _ => value.allCalls
  | .ret e => e.allCalls

def allCallsAll : List Expr → List (String × List Expr)
  | [] => []
  | e :: es => e.allCalls ++ allCallsAll es

def allCallsFields : List (String × Expr) → List (String × List Expr)
  | [] => []
  | (_, e) :: fields => e.allCalls ++ allCallsFields fields

end

namespace Module

/-- The body of a function `f` calls the function `g` of the module. -/
def Calls (m : Module) (f g : String) : Prop :=
  ∃ F ∈ m.funs, F.name = f ∧ g ∈ F.body.allCalls.map Prod.fst ∧ g ∈ m.funs.map Fun.name

/-- The call graph has no cycle. -/
def NonRecursive (m : Module) : Prop :=
  ∀ f, ¬Relation.TransGen m.Calls f f

/-- The last function of a name. -/
def definition (m : Module) (name : String) : Option Fun :=
  m.funs.reverse.find? fun f => f.name == name

def CallsDecrease (p : Platform) (m : Module) : Prop :=
  ∀ f F, m.definition f = some F → ∀ call ∈ collectCalls F.body, ∀ G,
    m.definition call.1 = some G →
      ∃ q ∈ call.2.zip (G.params.map Prod.fst), exprDecreases p q.1 q.2 = true

variable {p : Platform} {m : Module} {f : Fun}

theorem assocGet_definitions {V : Type} (value : Fun → V) (name : String) :
    assocGet (m.funs.reverse.map fun g => (g.name, value g)) name =
      (m.definition name).map value := by
  unfold definition
  induction m.funs.reverse with
  | nil => rfl
  | cons g fs ih =>
    rw [map_cons, assocGet_cons, find?_cons]
    by_cases hg : g.name = name
    · rw [if_pos hg, hg, beq_self_eq_true]
      rfl
    · rw [if_neg hg, beq_false_of_ne hg]
      exact ih

theorem isSome_definition (hf : f ∈ m.funs) : (m.definition f.name).isSome = true := by
  rw [definition, find?_isSome]
  exact ⟨f, mem_reverse.mpr hf, beq_self_eq_true _⟩

theorem mem_of_definition {name : String} (h : m.definition name = some f) :
    f ∈ m.funs ∧ f.name = name :=
  ⟨mem_reverse.mp (mem_of_find?_eq_some h), by simpa using find?_some h⟩

/-- A function is rejected for any call of a function of the module, recursive or not,
that passes nothing smaller. -/
theorem mayNotTerminate_iff {F : Fun} (hF : m.definition f.name = some F) :
    mayNotTerminate p m.funs f = true ↔
      ∃ call ∈ collectCalls F.body, ∃ G, m.definition call.1 = some G ∧
        ¬∃ q ∈ call.2.zip (G.params.map Prod.fst), exprDecreases p q.1 q.2 = true := by
  have hcallees : ((m.funs.reverse.map fun g => (g.name, collectCalls g.body)).map fun g =>
      (g.1, (g.2.map Prod.fst).eraseDups)) =
        m.funs.reverse.map fun g => (g.name, ((collectCalls g.body).map Prod.fst).eraseDups) := by
    rw [map_map]
    rfl
  -- the function is found at the start of the search, and its callees next
  have hself : (reachable (m.funs.reverse.map fun g =>
      (g.name, ((collectCalls g.body).map Prod.fst).eraseDups)) f.name).contains f.name = true :=
    contains_iff_mem.mpr (mem_reachable.mpr .refl)
  have hcallee : ∀ call ∈ collectCalls F.body, (reachable (m.funs.reverse.map fun g =>
      (g.name, ((collectCalls g.body).map Prod.fst).eraseDups)) f.name).contains call.1 = true := by
    intro call hcall
    refine contains_iff_mem.mpr (mem_reachable.mpr (.single ?_))
    rw [Names, assocGet_definitions, hF]
    exact mem_eraseDups.mpr (mem_map_of_mem hcall)
  rw [mayNotTerminate, hcallees, hself, Bool.true_and, assocGet_definitions, hF, any_eq_true]
  refine exists_congr fun call => and_congr_right fun hcall => ?_
  rw [hcallee call hcall, Bool.true_and, assocGet_definitions]
  cases m.definition call.1 with
  | none => simp
  | some G => simp

theorem errors_eq_nil_iff : (checkTermination p m).errors = [] ↔ m.CallsDecrease p := by
  rw [checkTermination, filterMap_eq_nil_iff]
  constructor
  · intro h f F hF call hcall G hG
    obtain ⟨hmem, rfl⟩ := mem_of_definition hF
    by_contra hnot
    have hrejected := (mayNotTerminate_iff (p := p) hF).mpr ⟨call, hcall, G, hG, hnot⟩
    have hnone := h F hmem
    rw [if_pos hrejected] at hnone
    cases hnone
  · intro h f hf
    obtain ⟨F, hF⟩ := Option.isSome_iff_exists.mp (isSome_definition hf)
    rw [if_neg]
    intro hrejected
    obtain ⟨call, hcall, G, hG, hnot⟩ := (mayNotTerminate_iff hF).mp hrejected
    exact hnot (h f.name F hF call hcall G hG)

/-- A module without recursion passes the check of termination just where each of its
calls decreases an argument, as recursive ones would have to. -/
theorem nonRecursive_passes_iff (p : Platform) (m : Module) :
    (m.NonRecursive → (checkTermination p m).errors = []) ↔
      (m.NonRecursive → m.CallsDecrease p) := by
  rw [errors_eq_nil_iff]

/-! ### A helper that is called with what its caller was given -/

/-- `fn g(x: f64) -> f64 { return x; } fn f(x: f64) -> f64 { return g(x); }` -/
def helperModule : Module :=
  ⟨[.fn ⟨"g", [("x", .base "f64")], .base "f64", none, none, .ret (.var "x")⟩,
    .fn ⟨"f", [("x", .base "f64")], .base "f64", none, none, .ret (.call "g" [.var "x"])⟩]⟩

theorem helperModule_calls {f g : String} (h : helperModule.Calls f g) : f = "f" ∧ g = "g" := by
  obtain ⟨F, hF, rfl, hg, _⟩ := h
  rcases mem_pair.mp hF with rfl | rfl
  · cases hg
  · exact ⟨rfl, mem_singleton.mp hg⟩

/-- No function of the module calls itself, and yet the module is rejected. -/
theorem helperModule_rejected : ∃ m : Module, m.NonRecursive ∧
    ∀ p, (checkTermination p m).errors ≠ [] := by
  refine ⟨helperModule, fun f hcycle => ?_, fun p => ?_⟩
  · obtain ⟨_, hlast, _⟩ := Relation.TransGen.head'_iff.mp hcycle
    obtain ⟨_, _, hfirst⟩ := Relation.TransGen.tail'_iff.mp hcycle
    have hf := (helperModule_calls hlast).1
    have hg := (helperModule_calls hfirst).2
    exact absurd (hf.symm.trans hg) (by decide)
  · intro h
    obtain ⟨q, hq, hdecreases⟩ := errors_eq_nil_iff.mp h "f" _ rfl ("g", [.var "x"])
      mem_cons_self _ rfl
    obtain rfl := mem_singleton.mp hq
    have hsame : entails [] ⟨.lt, (LinExpr.var "x").sub (.var "x")⟩ = false := by decide +kernel
    exact absurd (hsame.symm.trans hdecreases) Bool.false_ne_true

end Module

end Oikos.Eidos
