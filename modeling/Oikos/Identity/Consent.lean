/-
The registry of credential schemas and their categories.

Consent: who may read what, the grants that say so, and their withdrawal.
-/
import Oikos.Lib.GoText
import Oikos.Lib.Trace

namespace Oikos.Identity

open List

structure Category where
  id : String
deriving Repr, DecidableEq

structure Schema where
  id : String
  categoryID : String
  version : Int
  extraSensitive : Bool
deriving Repr, DecidableEq

structure Registry where
  categories : String → Option Category
  schemas : String → Option Schema

/-- The parts around the last `-v`. -/
def splitLastV : List Char → Option (List Char × List Char)
  | [] => none
  | c :: cs =>
    match splitLastV cs with
    | some (before, after) => some (c :: before, after)
    | none => if c = '-' ∧ cs.head? = some 'v' then some ([], cs.tail) else none

/-- `strconv.Atoi`. -/
def atoi (cs : List Char) : Option Int :=
  let (sign, digits) : Int × List Char :=
    match cs with
    | '-' :: ds => (-1, ds)
    | '+' :: ds => (1, ds)
    | ds => (1, ds)
  if digits = [] ∨ digits.any (!·.isDigit) then none
  else
    let n := sign * Nat.ofDigitChars 10 digits 0
    if -2 ^ 63 ≤ n ∧ n < 2 ^ 63 then some n else none

/-- The identifier without a version. -/
def baseID (id : String) : String :=
  match splitLastV id.toList with
  | some (before, after) =>
    if before ≠ [] ∧ (atoi after).isSome then String.ofList before else id
  | none => id

def Schema.versionedID (s : Schema) : String :=
  s.id ++ "-v" ++ toString (if s.version ≤ 0 then 1 else s.version)

namespace Registry

def getSchema [PrintTable] (reg : Registry) (id : String) : Except String Schema :=
  match reg.schemas id with
  | some s => .ok s
  | none =>
    let base := baseID id
    if base ≠ id then
      match reg.schemas base with
      | some s => .ok s
      | none => .error s!"schema: {quote id} not found"
    else .error s!"schema: {quote id} not found"

def getCategory [PrintTable] (reg : Registry) (id : String) : Except String Category :=
  match reg.categories id with
  | some c => .ok c
  | none => .error s!"schema: category {quote id} not found"

end Registry

inductive GrantLevel where
  | schema
  | category
  | other (name : String)
deriving Repr, DecidableEq

/-- Consent of a subject to share with a relying party. -/
structure Grant where
  id : String
  subjectDID : String
  relyingDID : String
  level : GrantLevel
  scopeID : String
  expiresAt : Option Int
  revokedAt : Option Int
  explicitlyConfirmed : Bool
deriving Repr, DecidableEq

namespace Policy

variable (reg : Registry)

/-- The body of the loop of `CanAccess`: the grant decides for access. -/
def allows (s : Schema) (subjectDID relyingDID schemaID : String) (now : Int) (g : Grant) : Bool :=
  if g.subjectDID ≠ subjectDID ∨ g.relyingDID ≠ relyingDID then false
  else if g.revokedAt ≠ none then false
  else if g.expiresAt.any (now > ·) then false
  else
    match g.level with
    | .schema => g.scopeID == schemaID
    | .category =>
      if g.scopeID = s.categoryID then
        if s.extraSensitive then false
        else g.explicitlyConfirmed
      else false
    | .other _ => false

def canAccess [PrintTable] (grants : List Grant) (subjectDID relyingDID schemaID : String)
    (now : Int) : Except String Unit :=
  match reg.getSchema schemaID with
  | .error _ => .error s!"policy: unknown schema {quote schemaID}"
  | .ok s =>
    if grants.any (allows s subjectDID relyingDID schemaID now) then .ok ()
    else if s.extraSensitive then
      .error s!"policy: {quote schemaID} is extra-sensitive and requires an individual explicit grant"
    else .error s!"policy: {subjectDID} has not granted {relyingDID} access to {quote schemaID}"

def validateGrant [PrintTable] (g : Grant) : Except String Unit :=
  if g.subjectDID = "" ∨ g.relyingDID = "" ∨ g.scopeID = "" then
    .error "policy: grant missing required fields"
  else
    match g.level with
    | .schema =>
      match reg.getSchema g.scopeID with
      | .error e => .error ("policy: " ++ e)
      | .ok s =>
        if s.extraSensitive ∧ !g.explicitlyConfirmed then
          .error s!"policy: schema {quote g.scopeID} is extra-sensitive; ExplicitlyConfirmed must be true"
        else .ok ()
    | .category =>
      match reg.getCategory g.scopeID with
      | .error e => .error ("policy: " ++ e)
      | .ok _ =>
        if !g.explicitlyConfirmed then
          .error "policy: category grants require ExplicitlyConfirmed=true"
        else .ok ()
    | .other name => .error s!"policy: unknown grant level {quote name}"

def addGrant [PrintTable] (grants : List Grant) (g : Grant) : Except String (List Grant) := do
  validateGrant reg g
  .ok (grants ++ [g])

def revokeGrant [PrintTable] (grantID : String) (now : Int) :
    List Grant → Except String (List Grant)
  | [] => .error s!"policy: grant {quote grantID} not found"
  | g :: grants =>
    if g.id = grantID then
      if g.revokedAt ≠ none then .error s!"policy: grant {quote grantID} already revoked"
      else .ok ({ g with revokedAt := some now } :: grants)
    else do
      let grants ← revokeGrant grantID now grants
      .ok (g :: grants)

section Decisions

variable {reg : Registry} {s : Schema} {subject relying x : String} {now : Int} {g : Grant}
  {grants : List Grant}

def Live (g : Grant) (now : Int) : Prop :=
  g.revokedAt = none ∧ ∀ t, g.expiresAt = some t → now ≤ t

theorem allows_cases (h : allows s subject relying x now g = true) :
    (g.subjectDID = subject ∧ g.relyingDID = relying ∧ Live g now) ∧
      ((g.level = .schema ∧ g.scopeID = x) ∨
        (g.level = .category ∧ g.scopeID = s.categoryID ∧ s.extraSensitive = false ∧
          g.explicitlyConfirmed = true)) := by
  rw [allows] at h
  split at h
  · cases h
  next hparties =>
  split at h
  · cases h
  next hrevoked =>
  split at h
  · cases h
  next hexpired =>
  rw [not_or, not_not, not_not] at hparties
  rw [not_not] at hrevoked
  refine ⟨⟨hparties.1, hparties.2, hrevoked, ?_⟩, ?_⟩
  · intro t ht
    simpa [ht] using hexpired
  · split at h
    · next hlevel => exact Or.inl ⟨hlevel, eq_of_beq h⟩
    · next hlevel =>
      split at h
      · next hscope =>
        split at h
        · cases h
        · next hsensitive => exact Or.inr ⟨hlevel, hscope, by simpa using hsensitive, h⟩
      · cases h
    · cases h

variable [PrintTable]

theorem exists_grant_of_canAccess (hs : reg.getSchema x = .ok s)
    (hsensitive : s.extraSensitive = true)
    (h : canAccess reg grants subject relying x now = .ok ()) :
    ∃ g ∈ grants, g.level = .schema ∧ g.subjectDID = subject ∧ g.relyingDID = relying ∧
      g.scopeID = x ∧ Live g now := by
  rw [canAccess, hs] at h
  change (if grants.any (allows s subject relying x now) then _ else _) = _ at h
  by_cases hany : grants.any (allows s subject relying x now) = true
  · obtain ⟨g, hg, hallows⟩ := any_eq_true.mp hany
    obtain ⟨⟨hsubject, hrelying, hlive⟩, ⟨hlevel, hscope⟩ | ⟨_, _, hnot, _⟩⟩ := allows_cases hallows
    · exact ⟨g, hg, hlevel, hsubject, hrelying, hscope, hlive⟩
    · rw [hsensitive] at hnot
      cases hnot
  · rw [if_neg hany, if_pos hsensitive] at h
    cases h

/-- What a successful withdrawal does. -/
theorem revokeGrant_eq_ok {id : String} {grants' : List Grant}
    (h : revokeGrant id now grants = .ok grants') :
    ∃ before g after, grants = before ++ g :: after ∧ g.id = id ∧ g.revokedAt = none ∧
      (∀ other ∈ before, other.id ≠ id) ∧
        grants' = before ++ { g with revokedAt := some now } :: after := by
  induction grants generalizing grants' with
  | nil => cases h
  | cons g grants ih =>
    rw [revokeGrant] at h
    by_cases hid : g.id = id
    · rw [if_pos hid] at h
      by_cases hrevoked : g.revokedAt = none
      · rw [if_neg (not_not.mpr hrevoked)] at h
        cases h
        exact ⟨[], g, grants, rfl, hid, hrevoked, by simp, rfl⟩
      · rw [if_pos hrevoked] at h
        cases h
    · rw [if_neg hid] at h
      cases hrest : revokeGrant id now grants with
      | error e =>
        rw [hrest] at h
        cases h
      | ok rest =>
        rw [hrest] at h
        cases h
        obtain ⟨before, g', after, rfl, hid', hnone, hbefore, rfl⟩ := ih hrest
        refine ⟨g :: before, g', after, rfl, hid', hnone, ?_, rfl⟩
        intro other hother
        rcases mem_cons.mp hother with rfl | hother
        · exact hid
        · exact hbefore other hother

end Decisions

section Runs

variable [PrintTable]

/-- The grants of a policy, and the identifiers that were withdrawn with success. -/
structure Session where
  grants : List Grant
  revoked : List String
deriving Repr, DecidableEq

inductive Action where
  | addGrant (g : Grant)
  | revokeGrant (id : String) (now : Int)
  | canAccess (subject relying x : String) (now : Int)
deriving Repr, DecidableEq

/-- A failed call changes nothing. -/
def Session.step (st : Session) : Action → Session
  | .addGrant g =>
    match addGrant reg st.grants g with
    | .ok grants => { st with grants }
    | .error _ => st
  | .revokeGrant id now =>
    match revokeGrant id now st.grants with
    | .ok grants => ⟨grants, id :: st.revoked⟩
    | .error _ => st
  | .canAccess _ _ _ _ => st

def Confirmed (g : Grant) : Prop :=
  g.level = .schema → g.revokedAt = none → ∀ s, reg.getSchema g.scopeID = .ok s →
    s.extraSensitive = true → g.explicitlyConfirmed = true

/-- No call gives an identifier to a grant that was withdrawn, or leaves a second
grant of the identifier that it withdraws. -/
def Unambiguous (st : Session) : Action → Prop
  | .addGrant g => g.id ∉ st.revoked
  | .revokeGrant id _ =>
    (st.grants.filter fun g => g.id == id && g.revokedAt.isNone).length ≤ 1
  | .canAccess _ _ _ _ => True

structure Session.Inv (st : Session) : Prop where
  confirmed : ∀ g ∈ st.grants, Confirmed reg g
  withdrawn : ∀ id ∈ st.revoked, ∀ g ∈ st.grants, g.id = id → g.revokedAt ≠ none

variable {reg} {st : Session}

theorem confirmed_of_validateGrant {g : Grant} (h : validateGrant reg g = .ok ()) :
    Confirmed reg g := by
  intro hlevel _ s hs hsensitive
  rw [validateGrant, hlevel, hs] at h
  split at h
  · cases h
  · change (if s.extraSensitive ∧ !g.explicitlyConfirmed then _ else _) = _ at h
    by_contra hconfirmed
    rw [if_pos ⟨hsensitive, by simpa using hconfirmed⟩] at h
    cases h

theorem Session.Inv.addGrant {g : Grant} (hst : st.Inv reg) (hg : g.id ∉ st.revoked) :
    (st.step reg (.addGrant g)).Inv reg := by
  rw [Session.step, Policy.addGrant]
  cases hvalid : validateGrant reg g with
  | error e => exact hst
  | ok _ =>
    constructor
    · intro h hh
      rcases mem_append.mp hh with hh | hh
      · exact hst.confirmed h hh
      · obtain rfl := mem_singleton.mp hh
        exact confirmed_of_validateGrant hvalid
    · intro id hid h hh heq
      rcases mem_append.mp hh with hh | hh
      · exact hst.withdrawn id hid h hh heq
      · obtain rfl := mem_singleton.mp hh
        exact absurd (heq ▸ hid) hg

theorem Session.Inv.revokeGrant {id : String} {now : Int} (hst : st.Inv reg)
    (hone : Unambiguous st (.revokeGrant id now)) :
    (st.step reg (.revokeGrant id now)).Inv reg := by
  rw [Session.step]
  cases hrevoke : Policy.revokeGrant id now st.grants with
  | error e => exact hst
  | ok grants =>
    obtain ⟨before, g, after, hgrants, hid, hnone, hbefore, rfl⟩ := revokeGrant_eq_ok hrevoke
    have hmem : ∀ h ∈ before ++ { g with revokedAt := some now } :: after,
        h.revokedAt ≠ none ∨ (h ∈ st.grants ∧ h ∈ before ++ after) := by
      intro h hh
      rw [mem_append, mem_cons] at hh
      rcases hh with hh | rfl | hh
      · exact Or.inr ⟨by rw [hgrants]; simp [hh], by simp [hh]⟩
      · exact Or.inl (Option.some_ne_none now)
      · exact Or.inr ⟨by rw [hgrants]; simp [hh], by simp [hh]⟩
    constructor
    · intro h hh hlevel hlive
      rcases hmem h hh with hrevoked | ⟨hold, _⟩
      · exact absurd hlive hrevoked
      · exact hst.confirmed h hold hlevel hlive
    · intro id' hid' h hh heq
      rcases hmem h hh with hrevoked | ⟨hold, hrest⟩
      · exact hrevoked
      · rcases mem_cons.mp hid' with rfl | hid'
        · -- a second live grant of this identifier would be counted
          intro hlive
          rw [Unambiguous, hgrants, filter_append,
            filter_cons_of_pos (by simp [hid, hnone]),
            length_append, length_cons] at hone
          have hlisted : ∀ gs : List Grant, h ∈ gs →
              0 < (gs.filter fun g => g.id == id' && g.revokedAt.isNone).length := fun gs hgs =>
            length_pos_of_mem (mem_filter.mpr ⟨hgs, by simp [heq, hlive]⟩)
          rcases mem_append.mp hrest with hbefore' | hafter
          · have := hlisted before hbefore'
            omega
          · have := hlisted after hafter
            omega
        · exact hst.withdrawn id' hid' h hold heq

theorem Session.Inv.step {a : Action} (hst : st.Inv reg) (ha : Unambiguous st a) :
    (st.step reg a).Inv reg := by
  cases a with
  | addGrant g => exact hst.addGrant ha
  | revokeGrant id now => exact hst.revokeGrant ha
  | canAccess subject relying x now => exact hst

def Session.Explicit (reg : Registry) (st : Session) : Prop :=
  ∀ subject relying x now s, canAccess reg st.grants subject relying x now = .ok () →
    reg.getSchema x = .ok s → s.extraSensitive = true →
      ∃ g ∈ st.grants, g.level = .schema ∧ g.subjectDID = subject ∧ g.relyingDID = relying ∧
        g.scopeID = x ∧ Live g now ∧ g.explicitlyConfirmed = true

/-- No grant decides for access whose identifier was withdrawn. -/
def Session.Effective (st : Session) : Prop :=
  ∀ id ∈ st.revoked, ∀ g ∈ st.grants, g.id = id →
    ∀ s subject relying x now, allows s subject relying x now g = false

theorem Session.Inv.explicit (hst : st.Inv reg) : st.Explicit reg := by
  intro subject relying x now s haccess hs hsensitive
  obtain ⟨g, hg, hlevel, hsubject, hrelying, rfl, hlive⟩ :=
    exists_grant_of_canAccess hs hsensitive haccess
  exact ⟨g, hg, hlevel, hsubject, hrelying, rfl, hlive,
    hst.confirmed g hg hlevel hlive.1 s hs hsensitive⟩

theorem Session.Inv.effective (hst : st.Inv reg) : st.Effective := by
  intro id hid g hg heq s subject relying x now
  rw [Bool.eq_false_iff]
  intro hallows
  exact hst.withdrawn id hid g hg heq (allows_cases hallows).1.2.2.1

end Runs

/-- Consent is explicit and withdrawal effective in every run that starts from confirmed
grants and in which identifiers name one grant. -/
theorem consent_kept [PrintTable] {reg : Registry} {gs : List Grant}
    (hgs : ∀ g ∈ gs, Confirmed reg g)
    {actions : List Action} (hactions : Meets (Session.step reg) Unambiguous ⟨gs, []⟩ actions) :
    ∀ st ∈ visited (Session.step reg) ⟨gs, []⟩ actions, st.Explicit reg ∧ st.Effective := by
  have hstart : Session.Inv reg ⟨gs, []⟩ := ⟨hgs, fun id hid => nomatch hid⟩
  have hinv := hactions.forall_visited hstart fun st a hst ha => hst.step ha
  exact fun st hst => ⟨(hinv st hst).explicit, (hinv st hst).effective⟩

section Patient

/-- The printable characters among the first 128. -/
local instance : PrintTable :=
  ⟨fun c => 32 ≤ c.toNat && c.toNat < 127⟩

def mentalHealth : Registry where
  categories id := if id = "healthcare" then some ⟨"healthcare"⟩ else none
  schemas id := if id = "healthcare.mental-health" then
    some ⟨"healthcare.mental-health", "healthcare", 1, true⟩ else none

def patientGrant (confirmed : Bool) : Grant :=
  ⟨"g1", "did:web:patient", "did:web:clinic", .schema, "healthcare.mental-health", none, none,
    confirmed⟩

/-- A confirmed grant gives access, and none after it is revoked. -/
theorem consent_kept_patient :
    (visited (Session.step mentalHealth) ⟨[patientGrant true], []⟩
      [.canAccess "did:web:patient" "did:web:clinic" "healthcare.mental-health" 5,
        .revokeGrant "g1" 6, .canAccess "did:web:patient" "did:web:clinic"
        "healthcare.mental-health" 7]).Forall
      fun st => st.Explicit mentalHealth ∧ st.Effective := by
  refine forall_iff_forall_mem.mpr
    (consent_kept (fun g hg => ?_) ⟨trivial, ?_, trivial, trivial⟩)
  · obtain rfl := mem_singleton.mp hg
    exact fun _ _ _ _ _ => rfl
  · change ([patientGrant true].filter fun g => g.id == "g1" && g.revokedAt.isNone).length ≤ 1
    decide

/-- An unconfirmed grant that enters with the policy gives access, and so does a second
grant of an identifier that was withdrawn. -/
theorem consent_lost :
    ¬Session.Explicit mentalHealth ⟨[patientGrant false], []⟩ ∧
      ¬([Action.revokeGrant "g1" 6].foldl (Session.step mentalHealth)
        ⟨[patientGrant true, patientGrant true], []⟩).Effective := by
  constructor
  · intro h
    have haccess : canAccess mentalHealth [patientGrant false] "did:web:patient" "did:web:clinic"
        "healthcare.mental-health" 5 = .ok () := by decide
    obtain ⟨g, hg, _, _, _, _, _, hconfirmed⟩ := h _ _ _ _ _ haccess rfl rfl
    obtain rfl := mem_singleton.mp hg
    cases hconfirmed
  · intro h
    have hallows := h "g1" mem_cons_self (patientGrant true)
      (mem_cons_of_mem _ mem_cons_self) rfl
      ⟨"healthcare.mental-health", "healthcare", 1, true⟩ "did:web:patient" "did:web:clinic"
      "healthcare.mental-health" 7
    exact absurd hallows (by decide)

end Patient

end Policy

end Oikos.Identity
