/-
The proof manifest: its JSON carries the hash of the source and the hash of itself
with the field for that hash left empty.  It is checked by looking for the first
fields of these names in the text.

Which changes of a proof manifest go unnoticed: those that leave no field for its own
hash, and those that put a new field in front and hash the text anew.
-/
import Oikos.Lib.GoText
import Oikos.Lib.Substring
import Oikos.Telos.Verify

namespace Oikos.Telos

open List

/-! ### What the transpiler tells -/

/-- A body that was tried. -/
structure Candidate where
  stmts : List Stmt

structure LoopStep where
  iteration : Nat
  action : String
  candidate : Candidate
  passed : Bool
  counterexample : Option Model

/-- What the loop made of a function. -/
structure FuncOutcome where
  funcName : String
  agent : String
  iterations : List LoopStep
  finalCandidate : Candidate
  problem : VerificationProblem
  result : VerificationResult
  verified : Bool

/-! ### The manifest -/

/-- What the manifest says of a function. -/
structure FuncProof where
  verified : Bool
  conclusionsChecked : Nat
  conclusionsPassed : Nat
  usedIntervalBounding : Bool
deriving Repr, DecidableEq

structure ProofManifest where
  schemaVersion : String
  sourceHash : String
  verifiedAt : String
  functions : OrdMap String FuncProof
  manifestHash : String

/-! ### Time -/

def isLeap (y : Nat) : Bool :=
  (y % 4 == 0 && y % 100 != 0) || y % 400 == 0

def daysInYear (year : Nat) : Nat :=
  if isLeap year then 366 else 365

def yearOf : Nat → Nat → Nat → Nat × Nat
  | 0, days, year => (days, year)
  | fuel + 1, days, year =>
    if days < daysInYear year then (days, year)
    else yearOf fuel (days - daysInYear year) (year + 1)

def monthDays (leap : Bool) : List Nat :=
  [31, if leap then 29 else 28, 31, 30, 31, 30, 31, 31, 30, 31, 30, 31]

def monthOf : List Nat → Nat → Nat → Nat × Nat
  | [], days, month => (days, month)
  | md :: rest, days, month =>
    if days < md then (days, month) else monthOf rest (days - md) (month + 1)

/-- The calendar date of a day counted from 1970. -/
def daysToYmd (days : Nat) : Nat × Nat × Nat :=
  let (days, year) := yearOf days days 1970
  let (days, month) := monthOf (monthDays (isLeap year)) days 1
  (year, month, days + 1)

/-- `{:0w}`. -/
def zeroPad (w n : Nat) : String :=
  String.ofList (List.replicate (w - (Nat.toDigits 10 n).length) '0' ++ Nat.toDigits 10 n)

/-- The time `secs` seconds after the epoch. -/
def utcRfc3339 (secs : Nat) : String :=
  let (year, month, day) := daysToYmd (secs / 86400)
  zeroPad 4 year ++ "-" ++ zeroPad 2 month ++ "-" ++ zeroPad 2 day ++ "T" ++
    zeroPad 2 (secs / 3600 % 24) ++ ":" ++ zeroPad 2 (secs / 60 % 60) ++ ":" ++ zeroPad 2
    (secs % 60) ++ "Z"

/-! ### Writing -/

def functionJson (f : String × FuncProof) (comma : String) : String :=
  "    \"" ++ f.1 ++ "\": \x7b\n" ++
    "      \"verified\": " ++ toString f.2.verified ++ ",\n" ++
    "      \"conclusions_checked\": " ++ toString f.2.conclusionsChecked ++ ",\n" ++
    "      \"conclusions_passed\": " ++ toString f.2.conclusionsPassed ++ ",\n" ++
    "      \"used_interval_bounding\": " ++ toString f.2.usedIntervalBounding ++ "\n" ++
    "    \x7d" ++ comma ++ "\n"

/-- All functions, with a comma after each but the last. -/
def functionsJson : List (String × FuncProof) → String
  | [] => ""
  | [f] => functionJson f ""
  | f :: fs => functionJson f "," ++ functionsJson fs

def toJson (m : ProofManifest) : String :=
  "\x7b\n" ++
    "  \"schema_version\": \"" ++ m.schemaVersion ++ "\",\n" ++
    "  \"source_hash\": \"" ++ m.sourceHash ++ "\",\n" ++
    "  \"verified_at\": \"" ++ m.verifiedAt ++ "\",\n" ++
    "  \"functions\": \x7b\n" ++ functionsJson m.functions.entries ++ "  \x7d,\n" ++
    "  \"manifest_hash\": \"" ++ m.manifestHash ++ "\"\n" ++ "\x7d\n"

/-- The text that is hashed has no hash in it. -/
def toJsonForHashing (m : ProofManifest) : String :=
  toJson { m with manifestHash := "" }

section Hashing

variable (sha256 : List UInt8 → List UInt8)

def hexSha256 (data : List UInt8) : String :=
  hexEncode (sha256 data)

def funcProof (o : FuncOutcome) : FuncProof where
  verified := o.verified
  conclusionsChecked := o.result.checks.length
  conclusionsPassed := o.result.checks.countP CheckResult.passed
  usedIntervalBounding := o.result.checks.any CheckResult.isApproximation

/-- A later function hides an earlier one of its name. -/
def funcProofs (outcomes : List FuncOutcome) : OrdMap String FuncProof :=
  outcomes.foldl (fun functions o => functions.insert o.funcName (funcProof o)) .empty

/-- The manifest made `secs` seconds after the epoch. -/
def generateManifest (secs : Nat) (sourceBytes : List UInt8) (outcomes : List FuncOutcome) :
    ProofManifest :=
  let m : ProofManifest :=
    { schemaVersion := "1"
      sourceHash := "sha256:" ++ hexSha256 sha256 sourceBytes
      verifiedAt := utcRfc3339 secs
      functions := funcProofs outcomes
      manifestHash := "" }
  { m with manifestHash := "sha256:" ++ hexSha256 sha256 (bytesOf (toJsonForHashing m)) }

end Hashing

/-! ### Checking -/

structure ManifestVerification where
  sourceHashValid : Bool
  manifestHashValid : Bool
  sourceHashExpected : String
  sourceHashActual : String
  manifestHashExpected : String
  manifestHashActual : String
  tampered : Bool
deriving Repr, DecidableEq

def sourceMarker : List Char :=
  "\"source_hash\": \"".toList

def manifestMarker : List Char :=
  "\"manifest_hash\": \"".toList

/-- The text before a marker's value, the value up to the next quote, and the rest. -/
def readField (marker : List Char) (json : String) : Option (List Char × List Char × List Char) :=
  match splitFirst marker json.toList with
  | none => none
  | some (before, rest) =>
    match splitFirst ['"'] rest with
    | none => none
    | some (value, after) => some (before, value, after)

/-- A missing field reads as the empty text. -/
def extractHash (marker : List Char) (json : String) : String :=
  match readField marker json with
  | none => ""
  | some (_, value, _) => String.ofList value

def extractSourceHash (json : String) : String :=
  extractHash sourceMarker json

def extractManifestHash (json : String) : String :=
  extractHash manifestMarker json

/-- The text with an empty field for the hash. -/
def blank (before after : List Char) : String :=
  String.ofList (before ++ manifestMarker ++ '"' :: after)

section Verification

variable (sha256 : List UInt8 → List UInt8)

/-- The hash of the text with the value blanked out; empty if there is no such field. -/
def computeManifestHashFromJson (json : String) : String :=
  match readField manifestMarker json with
  | none => ""
  | some (before, _, after) => "sha256:" ++ hexSha256 sha256 (bytesOf (blank before after))

def verifyManifest (manifestJson : String) (sourceBytes : List UInt8) : ManifestVerification :=
  let sourceHashExpected := "sha256:" ++ hexSha256 sha256 sourceBytes
  let sourceHashFromManifest := extractSourceHash manifestJson
  let manifestHashFromManifest := extractManifestHash manifestJson
  let manifestHashRecomputed := computeManifestHashFromJson sha256 manifestJson
  let sourceHashValid := sourceHashExpected == sourceHashFromManifest
  let manifestHashValid := manifestHashFromManifest == manifestHashRecomputed
  { sourceHashValid := sourceHashValid
    manifestHashValid := manifestHashValid
    sourceHashExpected := sourceHashExpected
    sourceHashActual := sourceHashFromManifest
    manifestHashExpected := manifestHashFromManifest
    manifestHashActual := manifestHashRecomputed
    tampered := !sourceHashValid || !manifestHashValid }

end Verification

section Occurrence

variable {pat l : List Char} {c : Char}

theorem not_infix_of_notMem (hc : c ∈ pat) (h : c ∉ l) : ¬pat <:+: l :=
  fun hwithin => h (hwithin.subset hc)

theorem not_infix_of_count_lt (h : l.count c < pat.count c) : ¬pat <:+: l :=
  fun hwithin => absurd (hwithin.sublist.count_le c) (not_le.mpr h)

/-- The text of some lines. -/
def unlines (lines : List (List Char)) : List Char :=
  lines.flatMap (· ++ ['\n'])

theorem infix_unlines_append (hpat : '\n' ∉ pat) (lines : List (List Char)) (last : List Char) :
    pat <:+: unlines lines ++ last ↔ (∃ line ∈ lines, pat <:+: line) ∨ pat <:+: last := by
  induction lines with
  | nil => simp [unlines]
  | cons line lines ih =>
    have htext : unlines (line :: lines) ++ last = line ++ '\n' :: (unlines lines ++ last) := by
      simp [unlines]
    rw [htext, infix_append_cons_iff hpat, ih]
    simp only [mem_cons, exists_eq_or_imp, or_assoc]

end Occurrence

section Field

variable {marker before value after : List Char} {json : String}

theorem readField_eq_some (hmarker : marker ≠ []) :
    readField marker json = some (before, value, after) ↔
      json.toList = before ++ marker ++ (value ++ '"' :: after) ∧ Fresh marker before ∧
      '"' ∉ value := by
  have hquote (cs : List Char) : Fresh ['"'] cs ↔ '"' ∉ cs := by
    rw [Fresh, dropLast_singleton, append_nil, singleton_infix_iff]
  unfold readField
  constructor
  · intro h
    cases hfirst : splitFirst marker json.toList with
    | none =>
      simp only [hfirst] at h
      cases h
    | some parts =>
      obtain ⟨before', rest⟩ := parts
      simp only [hfirst] at h
      cases hvalue : splitFirst ['"'] rest with
      | none =>
        simp only [hvalue] at h
        cases h
      | some parts =>
        obtain ⟨value', after'⟩ := parts
        simp only [hvalue] at h
        cases h
        obtain ⟨hjson, hfresh⟩ := (splitFirst_eq_some hmarker).mp hfirst
        obtain ⟨hrest, hno⟩ := (splitFirst_eq_some (cons_ne_nil _ _)).mp hvalue
        refine ⟨?_, hfresh, (hquote value).mp hno⟩
        rw [hjson, hrest, append_assoc value]
        rfl
  · rintro ⟨hjson, hfresh, hno⟩
    have hfirst : splitFirst marker json.toList = some (before, value ++ '"' :: after) :=
      (splitFirst_eq_some hmarker).mpr ⟨hjson, hfresh⟩
    have hvalue : splitFirst ['"'] (value ++ '"' :: after) = some (value, after) :=
      (splitFirst_eq_some (cons_ne_nil _ _)).mpr ⟨by simp, (hquote value).mpr hno⟩
    simp only [hfirst, hvalue]

end Field

section Lines

def functionLines (f : String × FuncProof) (comma : String) : List (List Char) :=
  [("    \"" ++ f.1 ++ "\": \x7b").toList,
    ("      \"verified\": " ++ toString f.2.verified ++ ",").toList,
    ("      \"conclusions_checked\": " ++ toString f.2.conclusionsChecked ++ ",").toList,
    ("      \"conclusions_passed\": " ++ toString f.2.conclusionsPassed ++ ",").toList,
    ("      \"used_interval_bounding\": " ++ toString f.2.usedIntervalBounding).toList,
    ("    \x7d" ++ comma).toList]

def functionsLines : List (String × FuncProof) → List (List Char)
  | [] => []
  | [f] => functionLines f ""
  | f :: fs => functionLines f "," ++ functionsLines fs

def headLines (m : ProofManifest) : List (List Char) :=
  ["\x7b".toList,
    ("  \"schema_version\": \"" ++ m.schemaVersion ++ "\",").toList,
    ("  \"source_hash\": \"" ++ m.sourceHash ++ "\",").toList,
    ("  \"verified_at\": \"" ++ m.verifiedAt ++ "\",").toList,
    "  \"functions\": \x7b".toList] ++ functionsLines m.functions.entries ++ ["  \x7d,".toList]

def beforeHash (m : ProofManifest) : List Char :=
  unlines (headLines m) ++ [' ', ' ']

theorem unlines_append (lines lines' : List (List Char)) :
    unlines (lines ++ lines') = unlines lines ++ unlines lines' :=
  flatMap_append

theorem toList_functionJson (f : String × FuncProof) (comma : String) :
    (functionJson f comma).toList = unlines (functionLines f comma) := by
  have hopen : "\": \x7b\n".toList = "\": \x7b".toList ++ ['\n'] := rfl
  have hcomma : ",\n".toList = ",".toList ++ ['\n'] := rfl
  have hbreak : "\n".toList = ['\n'] := rfl
  unfold functionJson functionLines unlines
  simp only [String.toList_append]
  rw [hopen, hcomma, hbreak]
  simp only [flatMap_cons, flatMap_nil, append_assoc, append_nil]

theorem toList_functionsJson (fs : List (String × FuncProof)) :
    (functionsJson fs).toList = unlines (functionsLines fs) := by
  induction fs using functionsJson.induct with
  | case1 => rfl
  | case2 f => exact toList_functionJson f ""
  | case3 f fs hne ih =>
    rw [functionsJson, functionsLines, String.toList_append, toList_functionJson, ih,
      unlines_append]
    · exact hne
    · exact hne

theorem toList_toJson (m : ProofManifest) : (toJson m).toList =
    beforeHash m ++ manifestMarker ++ (m.manifestHash.toList ++ '"' :: "\n\x7d\n".toList) := by
  have hopen : "\x7b\n".toList = "\x7b".toList ++ ['\n'] := rfl
  have hcomma : "\",\n".toList = "\",".toList ++ ['\n'] := rfl
  have hfunctions : "  \"functions\": \x7b\n".toList = "  \"functions\": \x7b".toList ++ ['\n'] :=
    rfl
  have hclose : "  \x7d,\n".toList = "  \x7d,".toList ++ ['\n'] := rfl
  have hmarker : "  \"manifest_hash\": \"".toList = [' ', ' '] ++ manifestMarker := rfl
  have hquote : "\"\n".toList = ['"', '\n'] := rfl
  have hend : "\n\x7d\n".toList = '\n' :: "\x7d\n".toList := rfl
  unfold toJson beforeHash headLines
  rw [unlines_append, unlines_append, ← toList_functionsJson]
  unfold unlines
  simp only [String.toList_append]
  rw [hopen, hcomma, hfunctions, hclose, hmarker, hquote, hend]
  simp only [flatMap_cons, flatMap_nil, append_assoc, append_nil, cons_append, nil_append]

end Lines

section Generated

/-- What keeps the marker for the hash out of the text before it. -/
structure ProofManifest.Plain (m : ProofManifest) : Prop where
  schemaVersion : m.schemaVersion = "1"
  sourceHash : 'm' ∉ m.sourceHash.toList
  verifiedAt : 'm' ∉ m.verifiedAt.toList
  names : ∀ f ∈ m.functions.entries, '"' ∉ f.1.toList

theorem count_quote_manifestMarker : manifestMarker.count '"' = 3 := by
  decide

theorem quote_notMem_toString (n : Nat) : '"' ∉ (toString n).toList := by
  rw [Nat.toString_eq_repr, Nat.toList_repr]
  intro hmem
  cases Nat.isDigit_of_mem_toDigits (by decide) (by decide) hmem

theorem quote_notMem_toString_bool (b : Bool) : '"' ∉ (toString b).toList := by
  cases b <;> decide

theorem count_quote_functionLines {f : String × FuncProof} {comma : String} {line : List Char}
    (hname : '"' ∉ f.1.toList) (hcomma : '"' ∉ comma.toList) (h : line ∈ functionLines f comma) :
    line.count '"' < 3 := by
  have hnat (n : Nat) := count_eq_zero_of_not_mem (quote_notMem_toString n)
  have hbool (b : Bool) := count_eq_zero_of_not_mem (quote_notMem_toString_bool b)
  have hname := count_eq_zero_of_not_mem hname
  have hcomma := count_eq_zero_of_not_mem hcomma
  simp only [functionLines, mem_cons, not_mem_nil, or_false] at h
  rcases h with rfl | rfl | rfl | rfl | rfl | rfl <;>
    simp only [String.toList_append, count_append, hnat, hbool, hname, hcomma] <;> decide

theorem count_quote_functionsLines {fs : List (String × FuncProof)} {line : List Char}
    (hnames : ∀ f ∈ fs, '"' ∉ f.1.toList) (h : line ∈ functionsLines fs) : line.count '"' < 3 := by
  induction fs using functionsLines.induct with
  | case1 => cases h
  | case2 f => exact count_quote_functionLines (hnames f mem_cons_self) (by decide) h
  | case3 f fs hne ih =>
    rw [functionsLines] at h
    · rcases mem_append.mp h with h | h
      · exact count_quote_functionLines (hnames f mem_cons_self) (by decide) h
      · exact ih (fun f' hf' => hnames f' (mem_cons_of_mem f hf')) h
    · exact hne

theorem ProofManifest.Plain.fresh {m : ProofManifest} (h : m.Plain) :
    Fresh manifestMarker (beforeHash m) := by
  have hbreak : '\n' ∉ manifestMarker := by decide
  rw [Fresh, beforeHash, append_assoc, infix_unlines_append hbreak]
  rintro (⟨line, hline, hwithin⟩ | hlast)
  · have hcount (hlt : line.count '"' < 3) : False :=
      not_infix_of_count_lt (hlt.trans_eq count_quote_manifestMarker.symm) hwithin
    rw [headLines] at hline
    rcases mem_append.mp hline with hline | hline
    · rcases mem_append.mp hline with hline | hline
      · simp only [mem_cons, not_mem_nil, or_false] at hline
        rcases hline with rfl | rfl | rfl | rfl | rfl
        · exact hcount (by decide)
        · rw [h.schemaVersion] at hwithin
          exact not_infix_of_notMem (c := 'f') (by decide) (by decide) hwithin
        · refine not_infix_of_notMem (c := 'm') (by decide) ?_ hwithin
          simp [h.sourceHash]
        · refine not_infix_of_notMem (c := 'm') (by decide) ?_ hwithin
          simp [h.verifiedAt]
        · exact hcount (by decide)
      · exact hcount (count_quote_functionsLines h.names hline)
    · rw [mem_singleton.mp hline] at hcount
      exact hcount (by decide)
  · exact not_infix_of_count_lt (c := '"') (by decide) hlast

variable {sha256 : List UInt8 → List UInt8} {secs : Nat} {source : List UInt8}
  {outcomes : List FuncOutcome}

theorem notMem_hash {c : Char} (hc : c ∉ "sha256:0123456789abcdef".toList) (data : List UInt8) :
    c ∉ ("sha256:" ++ hexSha256 sha256 data).toList := by
  have hsplit : "sha256:0123456789abcdef".toList = "sha256:".toList ++ "0123456789abcdef".toList :=
    rfl
  rw [hsplit, mem_append, not_or] at hc
  rw [String.toList_append, mem_append, not_or]
  exact ⟨hc.1, fun hmem => hc.2 (mem_hexEncode hmem)⟩

theorem notMem_zeroPad {c : Char} (hc : c.isDigit = false) (w n : Nat) :
    c ∉ (zeroPad w n).toList := by
  rw [zeroPad, String.toList_ofList, mem_append, not_or]
  constructor
  · intro hmem
    rw [eq_of_mem_replicate hmem] at hc
    cases hc
  · intro hmem
    rw [Nat.isDigit_of_mem_toDigits (by decide) (by decide) hmem] at hc
    cases hc

theorem notMem_utcRfc3339 (secs : Nat) : 'm' ∉ (utcRfc3339 secs).toList := by
  have hpad (w n : Nat) : 'm' ∉ (zeroPad w n).toList := notMem_zeroPad (by decide) w n
  simp [utcRfc3339, hpad]

theorem exists_of_mem_funcProofs {f : String × FuncProof} (h : f ∈ (funcProofs outcomes).entries) :
    ∃ o ∈ outcomes, f = (o.funcName, funcProof o) := by
  have hfold (functions : OrdMap String FuncProof) (outcomes : List FuncOutcome)
      (h : f ∈ (outcomes.foldl (fun functions o => functions.insert o.funcName (funcProof o))
        functions).entries) :
      f ∈ functions.entries ∨ ∃ o ∈ outcomes, f = (o.funcName, funcProof o) := by
    induction outcomes generalizing functions with
    | nil => exact Or.inl h
    | cons o outcomes ih =>
      rcases ih _ h with h | ⟨o', ho', rfl⟩
      · rcases OrdMap.mem_insertEntry h with rfl | h
        · exact Or.inr ⟨o, mem_cons_self, rfl⟩
        · exact Or.inl h
      · exact Or.inr ⟨o', mem_cons_of_mem o ho', rfl⟩
  rcases hfold .empty outcomes h with h | h
  · cases h
  · exact h

theorem plain_generateManifest (hnames : ∀ o ∈ outcomes, '"' ∉ o.funcName.toList) :
    (generateManifest sha256 secs source outcomes).Plain where
  schemaVersion := rfl
  sourceHash := notMem_hash (by decide) source
  verifiedAt := notMem_utcRfc3339 secs
  names := by
    intro f hf
    obtain ⟨o, ho, rfl⟩ := exists_of_mem_funcProofs hf
    exact hnames o ho

end Generated

section Sealed

variable {sha256 : List UInt8 → List UInt8} {source : List UInt8} {m : ProofManifest}
  {json : String}
  {before value after : List Char}

/-- A manifest whose hash is its own. -/
structure ProofManifest.Sealed (sha256 : List UInt8 → List UInt8) (m : ProofManifest) : Prop
    extends m.Plain where
  manifestHash : m.manifestHash = "sha256:" ++ hexSha256 sha256 (bytesOf (toJsonForHashing m))

theorem manifestMarker_ne_nil : manifestMarker ≠ [] := by
  decide

theorem ProofManifest.Sealed.quote_notMem (h : m.Sealed sha256) : '"' ∉ m.manifestHash.toList := by
  rw [h.manifestHash]
  exact notMem_hash (by decide) _

theorem ProofManifest.Sealed.readField_toJson (h : m.Sealed sha256) :
    readField manifestMarker (toJson m) =
      some (beforeHash m, m.manifestHash.toList, "\n\x7d\n".toList) :=
  (readField_eq_some manifestMarker_ne_nil).mpr ⟨toList_toJson m, h.fresh, h.quote_notMem⟩

theorem blank_beforeHash (m : ProofManifest) :
    blank (beforeHash m) "\n\x7d\n".toList = toJsonForHashing m := by
  apply String.toList_inj.mp
  rw [blank, String.toList_ofList, toJsonForHashing, toList_toJson]
  rfl

theorem ProofManifest.Sealed.eq_toJson (h : m.Sealed sha256)
    (hread : readField manifestMarker json = some (before, m.manifestHash.toList, after))
    (hblank : blank before after = toJsonForHashing m) : json = toJson m := by
  obtain ⟨hjson, hfresh, _⟩ := (readField_eq_some manifestMarker_ne_nil).mp hread
  have htext : before ++ manifestMarker ++ ('"' :: after) =
      beforeHash m ++ manifestMarker ++ ('"' :: "\n\x7d\n".toList) := by
    have hchars := congrArg String.toList (hblank.trans (blank_beforeHash m).symm)
    rwa [blank, blank, String.toList_ofList, String.toList_ofList] at hchars
  have hfirst := (splitFirst_eq_some manifestMarker_ne_nil).mpr ⟨htext.symm, hfresh⟩
  have hown : splitFirst manifestMarker
    (beforeHash m ++ manifestMarker ++ ('"' :: "\n\x7d\n".toList)) =
      some (beforeHash m, '"' :: "\n\x7d\n".toList) :=
    (splitFirst_eq_some manifestMarker_ne_nil).mpr ⟨rfl, h.fresh⟩
  rw [hown] at hfirst
  obtain ⟨rfl, hafter⟩ := Prod.mk.inj (Option.some.inj hfirst)
  obtain ⟨_, rfl⟩ := cons_eq_cons.mp hafter
  apply String.toList_inj.mp
  rw [hjson, toList_toJson]

theorem ProofManifest.Sealed.extractSourceHash_toJson (h : m.Sealed sha256)
    (hsource : '"' ∉ m.sourceHash.toList) : extractSourceHash (toJson m) = m.sourceHash := by
  have hmarker : sourceMarker ≠ [] := by decide
  have hfresh : Fresh sourceMarker "\x7b\n  \"schema_version\": \"1\",\n  ".toList := by
    unfold Fresh
    decide
  obtain ⟨after, hjson⟩ : ∃ after, (toJson m).toList =
      "\x7b\n  \"schema_version\": \"1\",\n  ".toList ++ sourceMarker ++
      (m.sourceHash.toList ++ '"' :: after) := by
    have hhead : "\x7b\n  \"schema_version\": \"1\",\n  ".toList =
        "\x7b\n".toList ++ ("  \"schema_version\": \"".toList ++
        ("1".toList ++ ("\",\n".toList ++ [' ', ' ']))) := rfl
    have hsource : "  \"source_hash\": \"".toList = [' ', ' '] ++ sourceMarker := rfl
    have hquote : "\",\n".toList = '"' :: ",\n".toList := rfl
    unfold toJson
    simp only [String.toList_append, h.schemaVersion]
    rw [hhead, hsource, hquote]
    simp only [append_assoc, cons_append, nil_append]
    exact ⟨_, rfl⟩
  have hread := (readField_eq_some hmarker).mpr ⟨hjson, hfresh, hsource⟩
  rw [extractSourceHash, extractHash, hread]
  exact String.ofList_toList

end Sealed

section Tampering

variable {sha256 : List UInt8 → List UInt8} {secs : Nat} {source : List UInt8}
  {outcomes : List FuncOutcome} {json : String}

theorem sealed_generateManifest (hnames : ∀ o ∈ outcomes, '"' ∉ o.funcName.toList) :
    (generateManifest sha256 secs source outcomes).Sealed sha256 :=
  ⟨plain_generateManifest hnames, rfl⟩

/-- The text has no hash to compare with. -/
def NoHashField (json : String) : Prop :=
  readField manifestMarker json = none

/-- Its hash is not the given one, but the right one of the text around it. -/
def Resealed (sha256 : List UInt8 → List UInt8) (json hash : String) : Prop :=
  ∃ before value after, readField manifestMarker json = some (before, value, after) ∧
    String.ofList value ≠ hash ∧
    String.ofList value = "sha256:" ++ hexSha256 sha256 (bytesOf (blank before after))

theorem tampered_eq_true : (verifyManifest sha256 json source).tampered = true ↔
    ¬("sha256:" ++ hexSha256 sha256 source = extractSourceHash json ∧
      extractManifestHash json = computeManifestHashFromJson sha256 json) := by
  simp [verifyManifest, Decidable.or_iff_not_imp_left]

theorem hexSha256_injective {a b : List UInt8}
    (h : "sha256:" ++ hexSha256 sha256 a = "sha256:" ++ hexSha256 sha256 b) : sha256 a = sha256 b :=
  hexEncode_injective (String.append_right_inj "sha256:" |>.mp h)

theorem manifestHash_of_noHashField (h : NoHashField json) :
    extractManifestHash json = computeManifestHashFromJson sha256 json := by
  rw [NoHashField] at h
  simp only [extractManifestHash, extractHash, computeManifestHashFromJson, h]

theorem manifestHash_of_readField {before value after : List Char}
    (h : readField manifestMarker json = some (before, value, after)) :
    extractManifestHash json = computeManifestHashFromJson sha256 json ↔
      String.ofList value = "sha256:" ++ hexSha256 sha256 (bytesOf (blank before after)) := by
  simp only [extractManifestHash, extractHash, computeManifestHashFromJson, h]

theorem ProofManifest.Sealed.manifestHash_iff {m : ProofManifest} (h : m.Sealed sha256)
    (hne : json ≠ toJson m)
    (hsha : ∀ before value after, readField manifestMarker json = some (before, value, after) →
      sha256 (bytesOf (blank before after)) = sha256 (bytesOf (toJsonForHashing m)) →
        blank before after = toJsonForHashing m) :
    extractManifestHash json = computeManifestHashFromJson sha256 json ↔
      NoHashField json ∨ Resealed sha256 json m.manifestHash := by
  cases hread : readField manifestMarker json with
  | none => exact iff_of_true (manifestHash_of_noHashField hread) (Or.inl hread)
  | some parts =>
    obtain ⟨before, value, after⟩ := parts
    rw [manifestHash_of_readField hread]
    constructor
    · intro hvalid
      refine Or.inr ⟨before, value, after, hread, ?_, hvalid⟩
      intro hvalue
      have hown : value = m.manifestHash.toList := by rw [← hvalue, String.toList_ofList]
      rw [hvalue, h.manifestHash] at hvalid
      have hblank := hsha before value after hread (hexSha256_injective hvalid).symm
      rw [hown] at hread
      exact hne (h.eq_toJson hread hblank)
    · rintro (hnone | ⟨before', value', after', hread', _, hvalid⟩)
      · rw [NoHashField, hread] at hnone
        cases hnone
      · rw [hread] at hread'
        cases hread'
        exact hvalid

/-- A manifest is not reported as tampered with.  Another text is reported, unless it names the
source and either has no field for the hash or begins with a field for a hash of its own. -/
theorem tampered_iff (hnames : ∀ o ∈ outcomes, '"' ∉ o.funcName.toList) :
    (verifyManifest sha256 (toJson (generateManifest sha256 secs source outcomes))
    source).tampered =
        false ∧
      ∀ json, json ≠ toJson (generateManifest sha256 secs source outcomes) →
        (∀ before value after, readField manifestMarker json = some (before, value, after) →
          sha256 (bytesOf (blank before after)) =
              sha256 (bytesOf (toJsonForHashing (generateManifest sha256 secs source outcomes))) →
            blank before after = toJsonForHashing (generateManifest sha256 secs source outcomes)) →
        ((verifyManifest sha256 json source).tampered = true ↔
          ¬(extractSourceHash json = (generateManifest sha256 secs source outcomes).sourceHash ∧
            (NoHashField json ∨
              Resealed sha256 json (generateManifest sha256 secs source
              outcomes).manifestHash))) := by
  have hsealed : (generateManifest sha256 secs source outcomes).Sealed sha256 :=
    sealed_generateManifest hnames
  have hsource : (generateManifest sha256 secs source outcomes).sourceHash =
      "sha256:" ++ hexSha256 sha256 source := rfl
  constructor
  · rw [← Bool.not_eq_true, tampered_eq_true, not_not]
    constructor
    · rw [hsealed.extractSourceHash_toJson (notMem_hash (by decide) source), hsource]
    · rw [manifestHash_of_readField hsealed.readField_toJson, blank_beforeHash,
        String.ofList_toList]
      exact hsealed.manifestHash
  · intro json hne hsha
    rw [tampered_eq_true, hsealed.manifestHash_iff hne hsha, hsource, eq_comm]

/-- The function `transfer`, which was not verified. -/
def unverifiedTransfer : FuncOutcome where
  funcName := "transfer"
  agent := "static"
  iterations := []
  finalCandidate := ⟨[]⟩
  problem := { funcName := "transfer", funcSpan := ⟨1, 1⟩, premises := [], conclusions := [] }
  result := { funcName := "transfer", checks := [], allPassed := false }
  verified := false

def forgedManifest : String :=
  "\x7b\"source_hash\": \"sha256:\", \"functions\": \x7b\"transfer\": \x7b\"verified\": true\x7d\x7d\x7d"

theorem noHashField_forgedManifest : NoHashField forgedManifest := by
  unfold NoHashField
  decide

theorem forgedManifest_ne :
    forgedManifest ≠ toJson (generateManifest id 0 [] [unverifiedTransfer]) := by
  intro heq
  have hnames : ∀ o ∈ [unverifiedTransfer], '"' ∉ o.funcName.toList := by decide
  have hsealed : (generateManifest id 0 [] [unverifiedTransfer]).Sealed id :=
    sealed_generateManifest hnames
  have hnone := noHashField_forgedManifest
  rw [heq, NoHashField, hsealed.readField_toJson] at hnone
  cases hnone

/-- The forged manifest of an unverified function is not reported. -/
theorem forgedManifest_not_tampered :
    Function.Injective (id : List UInt8 → List UInt8) ∧ NoHashField forgedManifest ∧
      forgedManifest ≠ toJson (generateManifest id 0 [] [unverifiedTransfer]) ∧
      (verifyManifest id forgedManifest []).tampered = false :=
  ⟨Function.injective_id, noHashField_forgedManifest, forgedManifest_ne, by decide⟩

theorem tampered_transfer :
    (verifyManifest id (toJson (generateManifest id 0 [] [unverifiedTransfer])) []).tampered =
    false ∧
      ((verifyManifest id forgedManifest []).tampered = true ↔
        ¬(extractSourceHash forgedManifest =
        (generateManifest id 0 [] [unverifiedTransfer]).sourceHash ∧
          (NoHashField forgedManifest ∨
            Resealed id forgedManifest
            (generateManifest id 0 [] [unverifiedTransfer]).manifestHash))) := by
  have hnames : ∀ o ∈ [unverifiedTransfer], '"' ∉ o.funcName.toList := by decide
  obtain ⟨hown, hother⟩ := @tampered_iff id 0 [] [unverifiedTransfer] hnames
  refine ⟨hown, hother forgedManifest forgedManifest_ne ?_⟩
  intro before value after _ hsha
  rw [id_eq, id_eq] at hsha
  exact bytesOf_injective hsha

end Tampering

end Oikos.Telos
