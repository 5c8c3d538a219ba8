/-
The places that the meaning of an expression depends on, and numbers put in place of
variables.
-/
import Oikos.Telos.Premises

namespace Oikos.Telos

open List

/-! ### Ranges of numbers -/

/-- A `forall` over this range says nothing: its bounds are numbers with none in between. -/
def emptyRange (lo hi : Expr) : Bool :=
  match evalConstExpr lo, evalConstExpr hi with
  | .ok (some a), .ok (some b) => b ≤ a
  | _, _ => false

section Ranges

variable {pre s : State} {lo hi body : Expr} {v : Name} {ty : Ty}

theorem evalConstExpr_eq_ok {pre s : State} {e : Expr} {n : Int}
    (h : evalConstExpr e = .ok (some n)) : value pre s e = some n := by
  induction e using Expr.operatorInduction generalizing n with
  | int m =>
    cases h
    rfl
  | unary op e ih =>
    cases op
    obtain ⟨m, hm, h⟩ := bind_eq_ok.mp h
    cases m with
    | none => cases h
    | some m =>
      obtain ⟨k, hk, h⟩ := bind_eq_ok.mp h
      cases h
      rw [value, ih hm, Option.map_some, i64_eq_ok hk]
  | bin op lhs rhs ihl ihr =>
    obtain ⟨x, hx, h⟩ := bind_eq_ok.mp h
    cases x with
    | none => cases h
    | some x =>
      obtain ⟨y, hy, h⟩ := bind_eq_ok.mp h
      cases y with
      | none => cases h
      | some y =>
        rw [value, ihl hx, ihr hy, Option.bind_some, Option.bind_some]
        cases op with
        | add | sub | mul =>
          obtain ⟨k, hk, h⟩ := bind_eq_ok.mp h
          cases h
          rw [BinOp.arith, i64_eq_ok hk]
        | div =>
          dsimp only at h
          split at h
          · cases h
          · next hzero =>
            obtain ⟨k, hk, h⟩ := bind_eq_ok.mp h
            cases h
            rw [BinOp.arith, if_neg hzero, i64_eq_ok hk]
        | _ => cases h
  | _ => cases h

theorem emptyRange_eq_true (h : emptyRange lo hi = true) :
    ∃ a b, evalConstExpr lo = .ok (some a) ∧ evalConstExpr hi = .ok (some b) ∧ b ≤ a := by
  unfold emptyRange at h
  split at h
  · next a b hlo hhi => exact ⟨a, b, hlo, hhi, of_decide_eq_true h⟩
  · cases h

theorem means_of_emptyRange (h : emptyRange lo hi = true) :
    Means pre s (.forAll v ty (some (.range lo hi)) body) := by
  obtain ⟨a, b, hlo, hhi, hle⟩ := emptyRange_eq_true h
  intro a' b' ha hb i hai hib
  rw [evalConstExpr_eq_ok hlo] at ha
  rw [evalConstExpr_eq_ok hhi] at hb
  cases ha
  cases hb
  omega

theorem evalConstExpr_substituteVar {e : Expr} {m n : Int} (h : evalConstExpr e = .ok (some n)) :
    evalConstExpr (substituteVar v (.int m) e) = .ok (some n) := by
  induction e using Expr.operatorInduction generalizing n with
  | int k => exact h
  | unary op e ih =>
    cases op
    obtain ⟨k, hk, h⟩ := bind_eq_ok.mp h
    cases k with
    | none => cases h
    | some k =>
      rw [substituteVar, evalConstExpr, ih hk]
      exact h
  | bin op lhs rhs ihl ihr =>
    obtain ⟨x, hx, h⟩ := bind_eq_ok.mp h
    cases x with
    | none => cases h
    | some x =>
      obtain ⟨y, hy, h⟩ := bind_eq_ok.mp h
      cases y with
      | none => cases h
      | some y =>
        rw [substituteVar, evalConstExpr, ihl hx, ok_bind, ihr hy]
        exact h
  | _ => cases h

theorem emptyRange_substituteVar {m : Int} (h : emptyRange lo hi = true) :
    emptyRange (substituteVar v (.int m) lo) (substituteVar v (.int m) hi) = true := by
  obtain ⟨a, b, hlo, hhi, hle⟩ := emptyRange_eq_true h
  rw [emptyRange, evalConstExpr_substituteVar hlo, evalConstExpr_substituteVar hhi]
  exact decide_eq_true hle

end Ranges

/-! ### Places that are read -/

mutual

/-- The places that the meaning of an expression depends on: in a `forall` neither its
variable nor, over an empty range, the body. -/
def Expr.places : Expr → List Place
  | .var v => [.var v]
  | .field b f => [.field b f]
  | .old e | .unary _ e => e.places
  | .bin _ lhs rhs => lhs.places ++ rhs.places
  | .index receiver i => (elemPlace receiver i).toList
  | .ifThen condition thenExpr elseExpr => condition.places ++ thenExpr.places ++ elseExpr.places
  | .matchOn _ arms => placesArms arms
  | .forAll v _ (some (.range lo hi)) body =>
    lo.places ++ hi.places ++
      if emptyRange lo hi then [] else body.places.filter (· ≠ .var v)
  | _ => []

def placesArms : List (Pattern × Expr) → List Place
  | [] => []
  | (_, e) :: arms => e.places ++ placesArms arms

end

/-- Two states have the same values in these places. -/
def SameOn (places : List Place) (s t : State) : Prop :=
  ∀ p ∈ places, t p = s p

namespace SameOn

variable {places places' : List Place} {s t : State} {v : Name}

theorem symm (h : SameOn places s t) : SameOn places t s :=
  fun p hp => (h p hp).symm

theorem mono (h : SameOn places s t) (hsub : ∀ p ∈ places', p ∈ places) : SameOn places' s t :=
  fun p hp => h p (hsub p hp)

theorem left (h : SameOn (places ++ places') s t) : SameOn places s t :=
  h.mono fun _ => mem_append_left _

theorem right (h : SameOn (places ++ places') s t) : SameOn places' s t :=
  h.mono fun _ => mem_append_right _

theorem bind (h : SameOn (places.filter (· ≠ .var v)) s t) (n : Int) :
    SameOn places (s.bind v n) (t.bind v n) := by
  intro p hp
  unfold State.bind
  split
  · rfl
  · next hne => exact h p (mem_filter.mpr ⟨hp, decide_eq_true hne⟩)

theorem exists_agreeOff {names : List Name} {s' : State} (h : SameOn places s t)
    (hs : AgreeOff names s s') : ∃ t', AgreeOff names t t' ∧ SameOn places s' t' := by
  refine ⟨fun p => if p.base ∈ names then s' p else t p, fun p hp => if_neg hp, fun p hp => ?_⟩
  dsimp only
  split
  · rfl
  · next hbase => rw [h p hp, hs p hbase]

end SameOn

section Congruence

theorem value_congr {pre s tpre t : State} {e : Expr} (hpre : SameOn e.places pre tpre)
    (hs : SameOn e.places s t) : value tpre t e = value pre s e := by
  induction e using Expr.operatorInduction generalizing s t with
  | int n => rfl
  | var v => exact congrArg some (hs _ mem_cons_self)
  | field b f => exact congrArg some (hs _ mem_cons_self)
  | old e ih => exact ih hpre hpre
  | unary op e ih =>
    cases op
    rw [value, ih hpre hs, value]
  | bin op lhs rhs ihl ihr =>
    rw [value, ihl hpre.left hs.left, ihr hpre.right hs.right, value]
  | index receiver i =>
    rw [value, value]
    cases hp : elemPlace receiver i with
    | none => rfl
    | some p =>
      have hmem : p ∈ (Expr.index receiver i).places := by
        rw [Expr.places, hp]
        exact mem_cons_self
      exact congrArg some (hs p hmem)
  | _ => rfl

theorem means_congr {pre s tpre t : State} {e : Expr} (hpre : SameOn e.places pre tpre)
    (hs : SameOn e.places s t) : Means pre s e ↔ Means tpre t e := by
  refine (conditionInduction
    (motive := fun e => ∀ pre s tpre t, SameOn e.places pre tpre → SameOn e.places s t →
      (Means pre s e ↔ Means tpre t e))
    (A := fun as => ∀ pre s tpre t, SameOn (placesArms as) pre tpre → SameOn (placesArms as) s t →
      (MeansArm pre s as ↔ MeansArm tpre t as))
    ?leaf ?bin ?ifThen ?matchOn ?forAll ?nil ?cons (e.height + 1)).1 e (Nat.lt_succ_self _) pre s
    tpre t hpre hs
  case leaf =>
    intro e he pre s tpre t _ _
    cases e with
    | bin | ifThen | matchOn | forAll => cases he
    | _ => exact Iff.rfl
  case bin =>
    intro op lhs rhs ihl ihr pre s tpre t hpre hs
    have hl := ihl _ _ _ _ hpre.left hs.left
    have hr := ihr _ _ _ _ hpre.right hs.right
    cases op with
    | or => exact or_congr hl hr
    | and => exact and_congr hl hr
    | _ =>
      simp only [Means, relationOf, value_congr hpre.left hs.left,
        value_congr hpre.right hs.right]
  case ifThen =>
    intro condition thenExpr elseExpr ihc iht ihe pre s tpre t hpre hs
    have hc := ihc _ _ _ _ hpre.left.left hs.left.left
    have ht := iht _ _ _ _ hpre.left.right hs.left.right
    have he := ihe _ _ _ _ hpre.right hs.right
    exact or_congr (and_congr hc ht) (and_congr (not_congr hc) he)
  case matchOn => exact fun scrutinee as ih => ih
  case forAll =>
    intro v ty domain body ih _ pre s tpre t hpre hs
    cases domain with
    | none => exact Iff.rfl
    | some domain =>
      cases domain with
      | range lo hi =>
        cases hempty : emptyRange lo hi with
        | true => exact iff_of_true (means_of_emptyRange hempty) (means_of_emptyRange hempty)
        | false =>
          rw [Expr.places, hempty, if_neg Bool.false_ne_true] at hpre hs
          rw [Means, Means, value_congr hpre.left.left hs.left.left,
            value_congr hpre.left.right hs.left.right]
          refine forall_congr' fun a => forall_congr' fun b => imp_congr_right fun _ =>
            imp_congr_right fun _ => forall_congr' fun i => imp_congr_right fun _ =>
              imp_congr_right fun _ => ?_
          exact ih _ _ _ _ (hpre.right.bind i) (hs.right.bind i)
      | _ => exact Iff.rfl
  case nil => exact fun pre s tpre t _ _ => Iff.rfl
  case cons =>
    intro p e as ihe ihas pre s tpre t hpre hs
    refine or_congr ⟨?_, ?_⟩ (ihas _ _ _ _ hpre.right hs.right)
    · rintro ⟨pre', s', hpre', hs', hmeans⟩
      obtain ⟨tpre', htpre', hsamePre⟩ := hpre.left.exists_agreeOff hpre'
      obtain ⟨t', ht', hsame⟩ := hs.left.exists_agreeOff hs'
      exact ⟨tpre', t', htpre', ht', (ihe _ _ _ _ hsamePre hsame).mp hmeans⟩
    · rintro ⟨tpre', t', htpre', ht', hmeans⟩
      obtain ⟨pre', hpre', hsamePre⟩ := hpre.left.symm.exists_agreeOff htpre'
      obtain ⟨s', hs', hsame⟩ := hs.left.symm.exists_agreeOff ht'
      exact ⟨pre', s', hpre', hs', (ihe _ _ _ _ hsamePre.symm hsame.symm).mpr hmeans⟩

end Congruence

/-! ### A number in place of a variable -/

/-- Putting a number in place of the variable reaches all that the meaning depends on. -/
def Expr.Substitutes (v : Name) : Expr → Prop
  | .bin _ lhs rhs => lhs.Substitutes v ∧ rhs.Substitutes v
  | .ifThen condition thenExpr elseExpr =>
    .var v ∉ condition.places ++ thenExpr.places ++ elseExpr.places
  | .matchOn _ arms => .var v ∉ placesArms arms
  | .forAll w _ (some (.range lo hi)) body =>
    emptyRange lo hi = false → body.Substitutes v ∧ (w = v → .var v ∉ body.places)
  | _ => True

section Substitution

variable {pre s : State} {v w : Name} {n : Int} {e : Expr}

theorem State.bind_comm (s : State) (n m : Int) (h : w ≠ v) :
    (s.bind v n).bind w m = (s.bind w m).bind v n := by
  funext p
  unfold State.bind
  split
  · next hw =>
    rw [if_neg]
    rintro rfl
    cases hw
    exact h rfl
  · rfl

theorem State.bind_of_ne {p : Place} (hp : p ≠ .var v) : s.bind v n p = s p :=
  if_neg hp

theorem value_substituteVar :
    value (pre.bind v n) (s.bind v n) e = value pre s (substituteVar v (.int n) e) := by
  induction e using Expr.operatorInduction generalizing s with
  | var w =>
    rw [substituteVar]
    split
    · next heq =>
      subst heq
      exact congrArg some (if_pos rfl)
    · next hne =>
      refine congrArg some (if_neg fun h => hne ?_)
      cases h
      rfl
  | old e ih => exact ih
  | unary op e ih =>
    cases op
    rw [value, ih, substituteVar, value]
  | bin op lhs rhs ihl ihr => rw [value, ihl, ihr, substituteVar, value]
  | index receiver i =>
    rw [substituteVar, value, value]
    · unfold elemPlace
      split <;> rfl
    all_goals simp
  | forAll w ty domain body =>
    cases domain <;> rfl
  | _ => rfl

theorem places_substituteVar : (e : Expr) → ∀ p ∈ (substituteVar v (.int n) e).places, p ∈ e.places
  | .var w, p, hp => by
    rw [substituteVar] at hp
    split at hp
    · cases hp
    · exact hp
  | .old e, p, hp => places_substituteVar e p hp
  | .unary _ e, p, hp => places_substituteVar e p hp
  | .bin _ lhs rhs, p, hp => by
    refine (mem_append.mp hp).elim (fun hp => ?_) fun hp => ?_
    · exact mem_append_left _ (places_substituteVar lhs p hp)
    · exact mem_append_right _ (places_substituteVar rhs p hp)
  | .forAll w ty none body, p, hp => hp
  | .forAll w ty (some domain) body, p, hp => by
    cases domain with
    | range lo hi =>
      rcases mem_append.mp hp with hp | hp
      · rcases mem_append.mp hp with hp | hp
        · exact mem_append_left _ (mem_append_left _ (places_substituteVar lo p hp))
        · exact mem_append_left _ (mem_append_right _ (places_substituteVar hi p hp))
      · refine mem_append_right _ ?_
        cases hempty : emptyRange lo hi with
        | true =>
          rw [emptyRange_substituteVar hempty] at hp
          exact hp
        | false =>
          split at hp
          · cases hp
          · obtain ⟨hmem, hne⟩ := mem_filter.mp hp
            exact mem_filter.mpr ⟨places_substituteVar body p hmem, hne⟩
    | var u =>
      have hnil : (substituteVar v (.int n) (.forAll w ty (some (.var u)) body)).places = [] := by
        rw [substituteVar, substituteVar]
        split <;> rfl
      rw [hnil] at hp
      cases hp
    | forAll u ty' domain body' => cases domain <;> exact hp
    | _ => exact hp
  | .aggregate _ _, p, hp | .range _ _, p, hp => hp
  | .int _, p, hp | .field _ _, p, hp | .call _ _, p, hp | .methodCall _ _ _, p, hp
  | .index _ _, p, hp | .ifThen _ _ _, p, hp | .matchOn _ _, p, hp | .tryOn _, p, hp => hp

theorem sameOn_bind {places : List Place} (h : .var v ∉ places) (s : State) :
    SameOn places s (s.bind v n) := by
  intro p hp
  refine State.bind_of_ne ?_
  rintro rfl
  exact h hp

theorem means_substituteVar : (e : Expr) → e.Substitutes v → (pre s : State) →
    (Means (pre.bind v n) (s.bind v n) e ↔ Means pre s (substituteVar v (.int n) e))
  | .bin op lhs rhs, h, pre, s => by
    have hl := means_substituteVar lhs h.1 pre s
    have hr := means_substituteVar rhs h.2 pre s
    rw [substituteVar]
    cases op with
    | or => exact or_congr hl hr
    | and => exact and_congr hl hr
    | _ => simp only [Means, relationOf, value_substituteVar]
  | .ifThen condition thenExpr elseExpr, h, pre, s =>
    (means_congr (e := .ifThen condition thenExpr elseExpr) (sameOn_bind h pre)
      (sameOn_bind h s)).symm
  | .matchOn scrutinee arms, h, pre, s =>
    (means_congr (e := .matchOn scrutinee arms) (sameOn_bind h pre) (sameOn_bind h s)).symm
  | .forAll w ty none body, _, pre, s => Iff.rfl
  | .forAll w ty (some domain) body, h, pre, s => by
    cases domain with
    | range lo hi =>
      rw [substituteVar, substituteVar]
      cases hempty : emptyRange lo hi with
      | true =>
        exact iff_of_true (means_of_emptyRange hempty)
          (means_of_emptyRange (emptyRange_substituteVar hempty))
      | false =>
        obtain ⟨hbody, hcaptured⟩ := h hempty
        have hmeans : ∀ i, Means ((pre.bind v n).bind w i) ((s.bind v n).bind w i) body ↔
            Means (pre.bind w i) (s.bind w i) (substituteVar v (.int n) body) := by
          intro i
          rw [← means_substituteVar body hbody]
          by_cases hw : w = v
          · subst hw
            have hsame : ∀ s : State,
                SameOn body.places ((s.bind w n).bind w i) ((s.bind w i).bind w n) := by
              intro s p hp
              have hne : p ≠ .var w := by
                rintro rfl
                exact hcaptured rfl hp
              simp only [State.bind_of_ne hne]
            exact means_congr (hsame pre) (hsame s)
          · rw [State.bind_comm pre n i hw, State.bind_comm s n i hw]
        rw [Means, Means, value_substituteVar, value_substituteVar]
        simp only [hmeans]
    | var u =>
      rw [substituteVar, substituteVar]
      split <;> exact Iff.rfl
    | forAll u ty' domain body' => cases domain <;> exact Iff.rfl
    | _ => exact Iff.rfl
  | .var u, _, pre, s => by
    rw [substituteVar]
    split <;> exact Iff.rfl
  | .old _, _, _, _ | .unary _ _, _, _, _ | .aggregate _ _, _, _, _ | .range _ _, _, _, _ => Iff.rfl
  | .int _, _, _, _ | .field _ _, _, _, _ | .call _ _, _, _, _ | .methodCall _ _ _, _, _, _
  | .index _ _, _, _, _ | .tryOn _, _, _, _ => Iff.rfl

end Substitution

/-! ### Lowering what a state is known to meet -/

theorem constBound_eq_ok {e : Expr} {message : String} {n : Int} (h : constBound e message = .ok n)
    (pre s : State) : value pre s e = some n := by
  obtain ⟨m, hm, h⟩ := bind_eq_ok.mp h
  cases m with
  | none => cases h
  | some m =>
    cases h
    exact evalConstExpr_eq_ok hm

theorem mem_rangeInts {a b i : Int} (h : i ∈ rangeInts a b) : a ≤ i ∧ i < b := by
  obtain ⟨k, hk, rfl⟩ := mem_map.mp h
  rw [mem_range] at hk
  omega

end Oikos.Telos
