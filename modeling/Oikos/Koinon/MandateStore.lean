/-
Mandates in the state store: scopes are written as debug texts and read back by
looking for words in them.
-/
import Mathlib.Data.List.DropRight
import Mathlib.Data.Fintype.EquivFin
import Oikos.Koinon.Store

namespace Oikos.Koinon

open List

/-! ### Debug texts -/

/-- A character inside a debug text of a string. The table of the characters that
are printed as they are belongs to Unicode. -/
def escapeDebug (printed : Char → Bool) (c : Char) : List Char :=
  if c = Char.ofNat 0 then ['\\', '0']
  else if c = '\t' then ['\\', 't']
  else if c = '\r' then ['\\', 'r']
  else if c = '\n' then ['\\', 'n']
  else if c = '"' then ['\\', '"']
  else if c = '\\' then ['\\', '\\']
  else if printed c then [c]
  else "\\u\x7b".toList ++ Nat.toDigits 16 c.toNat ++ "\x7d".toList

def debugStr (printed : Char → Bool) (s : String) : List Char :=
  '"' :: (s.toList.flatMap (escapeDebug printed) ++ ['"'])

def MandateScope.debug (printed : Char → Bool) : MandateScope → String
  | .transferOikos => "TransferOikos"
  | .transferKoin => "TransferKoin"
  | .mintKoin => "MintKoin"
  | .burnKoin => "BurnKoin"
  | .escrowManage => "EscrowManage"
  | .streamManage => "StreamManage"
  | .rfpPublish => "RfpPublish"
  | .rfpRespond => "RfpRespond"
  | .delegateTo did => String.ofList ("DelegateTo(".toList ++ (debugStr printed did ++ [')']))
  | .custom name => String.ofList ("Custom(".toList ++ (debugStr printed name ++ [')']))

/-! ### Reading a scope -/

def contains (s word : String) : Bool :=
  decide (word.toList <:+: s.toList)

def stripPrefix (s word : String) : Option (List Char) :=
  word.toList.isPrefixOf? s.toList

/-- `trim_end_matches` with a closing parenthesis. -/
def trimParens (cs : List Char) : String :=
  String.ofList (cs.rdropWhile (· == ')'))

/-- The words are looked for anywhere in the text, and first. -/
def parseScope (s : String) : MandateScope :=
  if contains s "TransferOikos" then .transferOikos
  else if contains s "TransferKoin" then .transferKoin
  else if contains s "MintKoin" then .mintKoin
  else if contains s "BurnKoin" then .burnKoin
  else if contains s "EscrowManage" then .escrowManage
  else if contains s "StreamManage" then .streamManage
  else if contains s "RfpPublish" then .rfpPublish
  else if contains s "RfpRespond" then .rfpRespond
  else
    match stripPrefix s "DelegateTo(" with
    | some did => .delegateTo (trimParens did)
    | none =>
      match stripPrefix s "Custom(" with
      | some name => .custom (trimParens name)
      | none => .transferOikos

/-! ### Rows -/

/-- `serde_json` on lists of strings. -/
structure JsonStrings where
  toText : List String → Option String
  fromText : String → Option (List String)

/-- A list that is read back as it was written. -/
def JsonStrings.RoundTrips (json : JsonStrings) (strings : List String) : Prop :=
  ∃ text, json.toText strings = some text ∧ json.fromText text = some strings

def timeBoundToSql : Option UInt64 → Result StoreError (Option Int64)
  | none => .ok none
  | some time => (toSql time).map some

def timeBoundFromSql : Option Int64 → Result StoreError (Option UInt64)
  | none => .ok none
  | some time => (fromSql time).map some

namespace StateStore

variable (printed : Char → Bool) (json : JsonStrings)

def mandateRow (m : AgentMandate) : Result StoreError (Int64 × MandateRow) := do
  let scopes := (json.toText (m.scopes.map (MandateScope.debug printed))).getD "[]"
  let id ← toSql m.id
  let timeBound ← timeBoundToSql m.timeBound
  .ok (id, ⟨m.principalDid, m.agentDid, showUnsigned m.oikosBudget.units,
    showSigned m.koinBudget.units, scopes, timeBound, boolToSql m.active,
    showUnsigned m.oikosSpent.units, showSigned m.koinSpent.units⟩)

def upsertMandate (m : AgentMandate) : Effect StateStore StoreError Unit := do
  let (id, row) ← Effect.lift (mandateRow printed json m)
  write fun store => { store with mandates := store.mandates.insert id row }

def readMandate (id : Int64) (row : MandateRow) : Result StoreError AgentMandate := do
  let scopes := ((json.fromText row.scopes).getD []).map parseScope
  let id ← fromSql id
  let timeBound ← timeBoundFromSql row.timeBound
  .ok ⟨id, "", row.principalDid, row.agentDid, readOikos row.oikosBudget,
    readOikos row.oikosSpent, readKoin row.koinBudget, readKoin row.koinSpent, scopes, [],
    timeBound, row.active ≠ 0⟩

def getMandate (id : UInt64) : Effect StateStore StoreError (Option AgentMandate) := do
  let key ← Effect.lift (toSql id)
  let row ← query fun store => store.mandates.get key
  match row with
  | none => pure none
  | some row =>
    let m ← Effect.lift (readMandate json key row)
    pure (some m)

def listMandates : Effect StateStore StoreError (List AgentMandate) :=
  query fun store => readable (readMandate json) store.mandates

end StateStore

/-! ### What a mandate becomes in the store -/

/-- The mandate that is read back. -/
def AgentMandate.restored (printed : Char → Bool) (m : AgentMandate) : AgentMandate :=
  { m with
    did := ""
    scopes := m.scopes.map fun scope => parseScope (scope.debug printed)
    allowedContracts := [] }

variable {printed : Char → Bool} {json : JsonStrings} {m m' : AgentMandate}

theorem timeBoundFromSql_of_toSql {time : Option UInt64} {column : Option Int64}
    (h : timeBoundToSql time = .ok column) : timeBoundFromSql column = .ok time := by
  cases time with
  | none =>
    cases h
    rfl
  | some t =>
    cases hsql : toSql t with
    | error stop =>
      rw [timeBoundToSql, hsql] at h
      cases h
    | ok k =>
      rw [timeBoundToSql, hsql] at h
      cases h
      rw [timeBoundFromSql, fromSql_of_toSql hsql]
      rfl

theorem readOikos_show (a : OikosAmount) : readOikos (showUnsigned a.units) = a := by
  rw [readOikos, parseUnsigned_showUnsigned]
  rfl

theorem readKoin_show (a : KoinAmount) : readKoin (showSigned a.units) = a := by
  rw [readKoin, parseSigned_showSigned]
  rfl

theorem boolToSql_ne_zero (b : Bool) : decide (boolToSql b ≠ 0) = b := by
  cases b <;> rfl

namespace StateStore

theorem readMandate_mandateRow
    (hjson : json.RoundTrips (m.scopes.map (MandateScope.debug printed))) {id : Int64}
    {row : MandateRow}
    (h : mandateRow printed json m = .ok (id, row)) :
    readMandate json id row = .ok (m.restored printed) := by
  obtain ⟨text, htext, hread⟩ := hjson
  simp only [mandateRow, htext, Option.getD_some, Oikos.bind_eq_ok] at h
  obtain ⟨id', hid, time, htime, hrow⟩ := h
  cases hrow
  simp only [readMandate, hread, Option.getD_some, fromSql_of_toSql hid,
    timeBoundFromSql_of_toSql htime, ok_bind, readOikos_show, readKoin_show, boolToSql_ne_zero,
    map_map]
  rfl

theorem toSql_of_mandateRow {id : Int64} {row : MandateRow}
    (h : mandateRow printed json m = .ok (id, row)) : toSql m.id = .ok id := by
  simp only [mandateRow, Oikos.bind_eq_ok] at h
  obtain ⟨id', hid, time, htime, hrow⟩ := h
  cases hrow
  exact hid

theorem getMandate_upsertMandate
    (hjson : json.RoundTrips (m.scopes.map (MandateScope.debug printed)))
    {store stored read : StateStore}
    (hput : upsertMandate printed json m store = (.ok (), stored))
    (hget : getMandate json m.id stored = (.ok (some m'), read)) : m' = m.restored printed := by
  obtain ⟨⟨id, row⟩, _, hparams, hwrite⟩ := Effect.bind_eq_ok.mp hput
  obtain ⟨hrow, rfl⟩ := Effect.lift_eq.mp hparams
  obtain ⟨key, _, hparam, hselect⟩ := Effect.bind_eq_ok.mp hget
  obtain ⟨hkey, rfl⟩ := Effect.lift_eq.mp hparam
  obtain ⟨found, after, hfound, hread⟩ := Effect.bind_eq_ok.mp hselect
  cases execute_eq_ok hwrite
  obtain rfl : key = id := Except.ok.inj (hkey.symm.trans (toSql_of_mandateRow hrow))
  have hfound' := congrArg Prod.fst (execute_eq_ok hfound)
  dsimp only at hfound'
  rw [Table.get_insert, if_pos rfl] at hfound'
  subst hfound'
  obtain ⟨m₁, _, hcolumns, hpure⟩ := Effect.bind_eq_ok.mp hread
  obtain ⟨hm, rfl⟩ := Effect.lift_eq.mp hcolumns
  rw [readMandate_mandateRow hjson hrow] at hm
  cases hm
  cases hpure
  rfl

theorem getMandate_of_no_faults (printed : Char → Bool) (store : StateStore)
    (hjson : json.RoundTrips (m.scopes.map (MandateScope.debug printed)))
    (hfaults : store.faults = []) (hid : m.id.toNat < 2 ^ 63)
    (htime : ∀ time, m.timeBound = some time → time.toNat < 2 ^ 63) :
    ∃ stored read, upsertMandate printed json m store = (.ok (), stored) ∧
      getMandate json m.id stored = (.ok (some (m.restored printed)), read) := by
  obtain ⟨column, hcolumn⟩ : ∃ column, timeBoundToSql m.timeBound = .ok column := by
    cases hbound : m.timeBound with
    | none => exact ⟨none, rfl⟩
    | some time => exact ⟨_, by rw [timeBoundToSql, toSql_of_lt (htime time hbound)]; rfl⟩
  obtain ⟨row, hrow⟩ : ∃ row, mandateRow printed json m = .ok (m.id.toInt64, row) := by
    simp only [mandateRow, toSql_of_lt hid, hcolumn, ok_bind]
    exact ⟨_, rfl⟩
  have hput : upsertMandate printed json m store = (.ok (),
      { store with mandates := store.mandates.insert m.id.toInt64 row }) := by
    rw [upsertMandate, Effect.bind_of_ok (Effect.lift_eq.mpr ⟨hrow, rfl⟩)]
    exact execute_of_no_faults _ hfaults
  generalize hstored : { store with mandates := store.mandates.insert m.id.toInt64 row } = stored
    at hput
  have hfaults' : stored.faults = [] := by
    rw [← hstored]
    exact hfaults
  have hrow' : stored.mandates.get m.id.toInt64 = some row := by
    rw [← hstored, Table.get_insert, if_pos rfl]
  have hfound : (query fun store => store.mandates.get m.id.toInt64) stored =
      (.ok (some row), stored) := by
    rw [← hrow']
    exact execute_of_no_faults _ hfaults'
  refine ⟨stored, stored, hput, ?_⟩
  rw [getMandate, Effect.bind_of_ok (Effect.lift_eq.mpr ⟨toSql_of_lt hid, rfl⟩),
    Effect.bind_of_ok hfound]
  exact Effect.bind_of_ok (Effect.lift_eq.mpr ⟨readMandate_mandateRow hjson hrow, rfl⟩)

end StateStore

/-! ### Scopes with a text -/

def MandateScope.text : MandateScope → Option String
  | .delegateTo did => some did
  | .custom name => some name
  | _ => none

theorem isPrefixOf?_append (word rest : List Char) :
    word.isPrefixOf? (word ++ rest) = some rest := by
  induction word with
  | nil => rfl
  | cons c word ih => simp [isPrefixOf?, ih]

/-- The closing quote keeps the trimming off the text. -/
theorem trimParens_debugStr (printed : Char → Bool) (s : String) :
    trimParens (debugStr printed s ++ [')']) = String.ofList (debugStr printed s) := by
  have hquote : debugStr printed s = '"' :: s.toList.flatMap (escapeDebug printed) ++ ['"'] := by
    simp [debugStr]
  rw [trimParens, rdropWhile_concat_pos _ _ _ (by decide), hquote,
    rdropWhile_concat_neg _ _ _ (by decide)]

theorem escapeDebug_ne_nil (printed : Char → Bool) (c : Char) : escapeDebug printed c ≠ [] := by
  unfold escapeDebug
  repeat' split
  all_goals simp

theorem length_debugStr (printed : Char → Bool) (s : String) :
    s.toList.length < (debugStr printed s).length := by
  have hescaped : ∀ cs : List Char, cs.length ≤ (cs.flatMap (escapeDebug printed)).length := by
    intro cs
    induction cs with
    | nil => exact le_refl 0
    | cons c cs ih =>
      have hc := length_pos_iff.mpr (escapeDebug_ne_nil printed c)
      rw [flatMap_cons, length_cons, length_append]
      omega
  have hs := hescaped s.toList
  rw [debugStr, length_cons, length_append]
  omega

theorem parseScope_debug_of_text_none {scope : MandateScope} (h : scope.text = none) :
    parseScope (scope.debug printed) = scope := by
  cases scope with
  | delegateTo did => cases h
  | custom name => cases h
  | transferOikos =>
    change parseScope "TransferOikos" = _
    decide
  | transferKoin =>
    change parseScope "TransferKoin" = _
    decide
  | mintKoin =>
    change parseScope "MintKoin" = _
    decide
  | burnKoin =>
    change parseScope "BurnKoin" = _
    decide
  | escrowManage =>
    change parseScope "EscrowManage" = _
    decide
  | streamManage =>
    change parseScope "StreamManage" = _
    decide
  | rfpPublish =>
    change parseScope "RfpPublish" = _
    decide
  | rfpRespond =>
    change parseScope "RfpRespond" = _
    decide

theorem stripPrefix_ofList_append (word : String) (rest : List Char) :
    stripPrefix (String.ofList (word.toList ++ rest)) word = some rest := by
  rw [stripPrefix, String.toList_ofList, isPrefixOf?_append]

theorem stripPrefix_delegateTo (did : String) :
    stripPrefix (MandateScope.debug printed (.delegateTo did)) "DelegateTo(" =
      some (debugStr printed did ++ [')']) :=
  stripPrefix_ofList_append "DelegateTo(" _

theorem stripPrefix_custom (name : String) :
    stripPrefix (MandateScope.debug printed (.custom name)) "Custom(" =
      some (debugStr printed name ++ [')']) :=
  stripPrefix_ofList_append "Custom(" _

theorem stripPrefix_custom_delegateTo (name : String) :
    stripPrefix (MandateScope.debug printed (.custom name)) "DelegateTo(" = none := by
  have hchars : (MandateScope.debug printed (.custom name)).toList =
      "Custom(".toList ++ (debugStr printed name ++ [')']) := String.toList_ofList
  rw [stripPrefix, hchars]
  rfl

theorem text_parseScope {s d : String} (h : (parseScope s).text = some d) :
    (stripPrefix s "DelegateTo(").map trimParens = some d ∨
      stripPrefix s "DelegateTo(" = none ∧ (stripPrefix s "Custom(").map trimParens = some d := by
  unfold parseScope at h
  repeat (split at h; · cases h)
  split at h
  · next did hdid =>
    left
    rw [hdid]
    exact h
  · next hdid =>
    split at h
    · next name hname =>
      right
      rw [hname]
      exact ⟨hdid, h⟩
    · cases h

theorem text_parseScope_debug {scope : MandateScope} {d : String}
    (h : (parseScope (scope.debug printed)).text = some d) :
    ∃ e, scope.text = some e ∧ e.toList.length < d.toList.length := by
  have hgrows : ∀ e, trimParens (debugStr printed e ++ [')']) = d →
      e.toList.length < d.toList.length := by
    rintro e rfl
    rw [trimParens_debugStr, String.toList_ofList]
    exact length_debugStr printed e
  cases htext : scope.text with
  | none =>
    rw [parseScope_debug_of_text_none htext, htext] at h
    cases h
  | some e =>
    refine ⟨e, rfl, ?_⟩
    cases scope with
    | delegateTo did =>
      obtain rfl : did = e := Option.some.inj htext
      rcases text_parseScope h with hread | ⟨hnone, _⟩
      · rw [stripPrefix_delegateTo] at hread
        exact hgrows did (Option.some.inj hread)
      · rw [stripPrefix_delegateTo] at hnone
        cases hnone
    | custom name =>
      obtain rfl : name = e := Option.some.inj htext
      rcases text_parseScope h with hread | ⟨_, hread⟩
      · rw [stripPrefix_custom_delegateTo] at hread
        cases hread
      · rw [stripPrefix_custom] at hread
        exact hgrows name (Option.some.inj hread)
    | _ => cases htext

theorem text_none_of_closed {scopes : List MandateScope}
    (hclosed : ∀ scope ∈ scopes, ∃ source ∈ scopes, parseScope (source.debug printed) = scope) :
    ∀ scope ∈ scopes, scope.text = none := by
  -- By induction on the length: the source of a text is shorter.
  have hlength : ∀ n, ∀ scope ∈ scopes, ∀ d, scope.text = some d → d.toList.length = n → False := by
    intro n
    induction n using Nat.strong_induction_on with
    | _ n ih =>
      intro scope hscope d hd hn
      obtain ⟨source, hsource, hread⟩ := hclosed scope hscope
      rw [← hread] at hd
      obtain ⟨e, he, hlt⟩ := text_parseScope_debug hd
      exact ih _ (by omega) source hsource e he rfl
  intro scope hscope
  cases htext : scope.text with
  | none => rfl
  | some d => exact (hlength _ scope hscope d htext rfl).elim

/-! ### What a stored mandate permits -/

theorem exists_notMem_contracts (contracts : List ContractAddress) :
    ∃ contract, contract ∉ contracts := by
  have hinfinite : Infinite ContractAddress :=
    Infinite.of_injective (fun n : Nat => ContractAddress.mk (String.ofList (replicate n 'a')))
      fun n n' h => by
        have hchars := congrArg (fun c => c.address.toList.length) h
        simpa using hchars
  exact Infinite.exists_notMem_finset contracts.toFinset |>.imp fun c hc => by simpa using hc

theorem checkAll_restored (h : m.allowedContracts = []) (oikosCost koinCost : BitVec 128)
    (contract : ContractAddress) (currentTime : UInt64) :
    checkAll (m.restored printed) oikosCost koinCost contract currentTime =
      checkAll m oikosCost koinCost contract currentTime := by
  have hcontract : checkContract (m.restored printed) contract = checkContract m contract := by
    rw [checkContract, checkContract, h]
    rfl
  rw [checkAll, checkAll, hcontract]
  rfl

theorem isOk_eq_iff {E α : Type} {x y : Except E α} :
    x.isOk = y.isOk ↔ (x.isOk = true ↔ y.isOk = true) := by
  cases x.isOk <;> cases y.isOk <;> simp

/-- An active mandate keeps its meaning exactly when nothing is lost of it. -/
theorem samePermissions_restored_iff :
    SamePermissions m (m.restored printed) ↔
      m.active = false ∨ m.allowedContracts = [] ∧ ∀ scope ∈ m.scopes, scope.text = none := by
  constructor
  · intro hsame
    cases hactive : m.active with
    | false => exact .inl rfl
    | true =>
      right
      have hscope : ∀ required, required ∈ m.scopes ↔
          required ∈ m.scopes.map fun scope => parseScope (scope.debug printed) := by
        intro required
        have h := isOk_eq_iff.mp (hsame.scope required)
        rw [isOk_checkScope, isOk_checkScope] at h
        simpa [hactive, AgentMandate.restored] using h
      constructor
      · by_contra hne
        obtain ⟨contract, hcontract⟩ := exists_notMem_contracts m.allowedContracts
        have h := isOk_eq_iff.mp (hsame.contract contract)
        rw [isOk_checkContract, isOk_checkContract] at h
        simp [hactive, AgentMandate.restored, hne, hcontract] at h
      · exact text_none_of_closed fun scope hmem => mem_map.mp ((hscope scope).mp hmem)
  · rintro (hinactive | ⟨hcontracts, hplain⟩)
    · exact samePermissions_of_inactive hinactive hinactive
    · have hscopes : (m.scopes.map fun scope => parseScope (scope.debug printed)) = m.scopes := by
        calc (m.scopes.map fun scope => parseScope (scope.debug printed))
            = m.scopes.map id :=
              map_congr_left fun scope h => parseScope_debug_of_text_none (hplain scope h)
          _ = m.scopes := map_id m.scopes
      refine ⟨?_, ?_, ?_⟩
      · intro required
        rw [isOk_eq_iff, isOk_checkScope, isOk_checkScope, AgentMandate.restored, hscopes]
      · intro contract
        rw [isOk_eq_iff, isOk_checkContract, isOk_checkContract, AgentMandate.restored, hcontracts]
      · intro oikosCost koinCost contract currentTime
        rw [checkAll_restored hcontracts]

/-- A mandate that was written to the store and read back permits the same, for
every table of printable characters, if and only if it is not active, or has no
contract list and no scope with a text. -/
theorem stored_mandate_permits_iff
    (hjson : json.RoundTrips (m.scopes.map (MandateScope.debug printed)))
    {store stored read : StateStore}
    (hput : StateStore.upsertMandate printed json m store = (.ok (), stored))
    (hget : StateStore.getMandate json m.id stored = (.ok (some m'), read)) :
    SamePermissions m m' ↔
      m.active = false ∨ m.allowedContracts = [] ∧ ∀ scope ∈ m.scopes, scope.text = none := by
  rw [StateStore.getMandate_upsertMandate hjson hput hget]
  exact samePermissions_restored_iff

def transferMandate (allowedContracts : List ContractAddress) : AgentMandate :=
  ⟨1, "did:agent", "did:principal", "did:agent", ⟨1000⟩, ⟨0⟩, ⟨500⟩, ⟨0⟩, [.transferOikos],
    allowedContracts, none, true⟩

/-- `serde_json` on the list of that one scope. -/
def transferJson : JsonStrings :=
  ⟨fun strings => if strings = ["TransferOikos"] then some "[\"TransferOikos\"]" else none,
    fun text => if text = "[\"TransferOikos\"]" then some ["TransferOikos"] else none⟩

theorem transferJson_roundTrips : transferJson.RoundTrips ["TransferOikos"] :=
  ⟨"[\"TransferOikos\"]", by decide, by decide⟩

/-- A mandate without a deadline for transfers only comes back as it was. -/
theorem transferMandate_survives :
    ∃ stored read m', StateStore.upsertMandate Char.isAlphanum transferJson (transferMandate [])
        (.empty []) = (.ok (), stored) ∧
      StateStore.getMandate transferJson 1 stored = (.ok (some m'), read) ∧
      SamePermissions (transferMandate []) m' := by
  obtain ⟨stored, read, hput, hget⟩ := StateStore.getMandate_of_no_faults
    (m := transferMandate []) Char.isAlphanum (.empty []) transferJson_roundTrips rfl (by decide)
    (fun time h => by cases h)
  refine ⟨stored, read, _, hput, hget, ?_⟩
  exact (stored_mandate_permits_iff transferJson_roundTrips hput hget).mpr
    (.inr ⟨rfl, by simp [transferMandate, MandateScope.text]⟩)

/-- A mandate for one contract permits every contract once it was stored. -/
theorem contract_list_not_stored :
    ∃ stored read m', StateStore.upsertMandate Char.isAlphanum transferJson
        (transferMandate [⟨"contract-a"⟩]) (.empty []) = (.ok (), stored) ∧
      StateStore.getMandate transferJson 1 stored = (.ok (some m'), read) ∧
      (checkContract (transferMandate [⟨"contract-a"⟩]) ⟨"contract-b"⟩).isOk = false ∧
      (checkContract m' ⟨"contract-b"⟩).isOk = true := by
  obtain ⟨stored, read, hput, hget⟩ := StateStore.getMandate_of_no_faults
    (m := transferMandate [⟨"contract-a"⟩]) Char.isAlphanum (.empty []) transferJson_roundTrips
    rfl (by decide) (fun time h => by cases h)
  exact ⟨stored, read, _, hput, hget, by decide, rfl⟩

end Oikos.Koinon
