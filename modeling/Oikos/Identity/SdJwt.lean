/-
Credentials with selective disclosure: issuing, presenting with a binding to the
key of the holder, and verifying a presentation.
-/
import Oikos.Identity.Consent
import Oikos.Lib.Base64
import Oikos.Lib.GoText
import Oikos.Lib.Run
import Oikos.Lib.Table
import Mathlib.Data.Rat.Defs
import Mathlib.Data.Vector.Defs

namespace Oikos.Identity

/-- A value of JSON, as `any` holds it. -/
inductive Value where
  | null
  | bool (b : Bool)
  | num (q : Rat)
  | str (s : String)
  | arr (items : List Value)
  | obj (fields : List (String × Value))

/-- `map[string]any`. -/
abbrev Claims : Type :=
  Table String Value

namespace Value

def kind : Value → String
  | .null => "null"
  | .bool _ => "bool"
  | .num _ => "number"
  | .str _ => "string"
  | .arr _ => "array"
  | .obj _ => "object"

/-- The fields of an object; of two fields with one name the later one stays. -/
def claimsOf (fields : List (String × Value)) : Claims :=
  fields.foldl (fun claims field => claims.insert field.1 field.2) .empty

/-- `v.(string)`, empty when the value is no string or is missing. -/
def strOrEmpty : Option Value → String
  | some (.str s) => s
  | _ => ""

/-- `int64(x)`; what does not fit gives the least number. -/
def int64 (q : Rat) : Int :=
  let n := q.num.tdiv q.den
  if -2 ^ 63 ≤ n ∧ n < 2 ^ 63 then n else -2 ^ 63

end Value

/-- `ed25519.PublicKey`. -/
abbrev PublicKey : Type :=
  List.Vector UInt8 32

/-- `ed25519.PrivateKey`. -/
abbrev PrivateKey : Type :=
  List.Vector UInt8 64

structure VerificationMethod where
  type : String
  publicKeyMultibase : Option String
  revoked : Bool
deriving Repr, DecidableEq

namespace SdJwt

/-- JSON, the hash, the signatures, and the resolver of the verifier. -/
structure Primitives where
  marshal : Value → Except String (List UInt8)
  unmarshal : List UInt8 → Except String Value
  sha256 : List UInt8 → List UInt8
  sign : PrivateKey → List UInt8 → List UInt8
  verify : PublicKey → List UInt8 → List UInt8 → Bool
  multibaseDecode : String → Except String (List UInt8)
  resolve : String → Except String (List VerificationMethod)

variable (p : Primitives)

def unmarshalClaims (raw : List UInt8) : Except String Claims :=
  match p.unmarshal raw with
  | .error e => .error e
  | .ok (.obj fields) => .ok (Value.claimsOf fields)
  | .ok .null => .ok .empty
  | .ok v =>
    .error s!"json: cannot unmarshal {v.kind} into Go value of type map[string]interface \x7b\x7d"

def unmarshalArray (raw : List UInt8) : Except String (List Value) :=
  match p.unmarshal raw with
  | .error e => .error e
  | .ok (.arr items) => .ok items
  | .ok .null => .ok []
  | .ok v => .error s!"json: cannot unmarshal {v.kind} into Go value of type []interface \x7b\x7d"

section Disclosures

/-- A claim that can be disclosed on its own. -/
structure Disclosure where
  salt : String
  key : String
  value : Value

def newDisclosure (random : Except String (List UInt8)) (key : String) (value : Value) :
    Except String Disclosure :=
  match random with
  | .error e => .error s!"sdjwt: generate salt: {e}"
  | .ok salt => .ok ⟨Base64.encodeToString salt, key, value⟩

def Disclosure.encode (d : Disclosure) : Except String String :=
  match p.marshal (.arr [.str d.salt, .str d.key, d.value]) with
  | .error e => .error s!"sdjwt: encode disclosure: {e}"
  | .ok b => .ok (Base64.encodeToString b)

def hashText (text : String) : String :=
  Base64.encodeToString (p.sha256 (bytesOf text))

def Disclosure.digest (d : Disclosure) : Except String String := do
  let enc ← d.encode p
  .ok (hashText p enc)

def parseDisclosure (encoded : String) : Except String Disclosure :=
  match Base64.decodeString encoded with
  | .error e => .error s!"sdjwt: decode disclosure: {e}"
  | .ok raw =>
    match unmarshalArray p raw with
    | .error e => .error s!"sdjwt: unmarshal disclosure: {e}"
    | .ok [.str salt, .str key, value] => .ok ⟨salt, key, value⟩
    | .ok [.str _, _, _] => .error "sdjwt: disclosure key must be a string"
    | .ok [_, _, _] => .error "sdjwt: disclosure salt must be a string"
    | .ok _ => .error "sdjwt: disclosure must have 3 elements [salt, key, value]"

end Disclosures

section Jwt

def headerClaims (kid typ : String) : Value :=
  .obj [("alg", .str "EdDSA"), ("kid", .str kid), ("typ", .str typ)]

def signSDJWT (claims : Claims) (key : PrivateKey) (kid typ : String) : Except String String := do
  let headerJSON ← p.marshal (headerClaims kid typ)
  let header := Base64.encodeToString headerJSON
  let payloadJSON ← p.marshal (.obj claims.entries)
  let payloadB64 := Base64.encodeToString payloadJSON
  let sigInput := header ++ "." ++ payloadB64
  let sig := p.sign key (bytesOf sigInput)
  .ok (sigInput ++ "." ++ Base64.encodeToString sig)

def jwtParts (jwt : String) : List String :=
  (splitN '.' 3 jwt.toList).map String.ofList

def verifySDJWTSig (jwt : String) (pub : PublicKey) : Except String Unit :=
  match jwtParts jwt with
  | [header, payload, signature] =>
    match Base64.decodeString signature with
    | .error e => .error s!"decode signature: {e}"
    | .ok sig =>
      if p.verify pub (bytesOf (header ++ "." ++ payload)) sig then .ok ()
      else .error "invalid signature"
  | _ => .error "malformed JWT"

def parseSDJWTPayload (jwt : String) : Except String Claims :=
  match jwtParts jwt with
  | [_, payload, _] =>
    match Base64.decodeString payload with
    | .error e => .error s!"decode payload: {e}"
    | .ok raw => unmarshalClaims p raw
  | _ => .error "malformed JWT"

end Jwt

section Token

/-- An issued credential together with all its disclosures. -/
structure SDJWTToken where
  jwt : String
  disclosures : List Disclosure

namespace SDJWTToken

variable (t : SDJWTToken)

def disclosurePart (d : Disclosure) : String :=
  match d.encode p with
  | .ok enc => enc
  | .error _ => ""

def serializeWith (discs : List Disclosure) : String :=
  "~".intercalate (t.jwt :: discs.map (disclosurePart p)) ++ "~"

def present (revealKeys : List String) : String :=
  t.serializeWith p (t.disclosures.filter fun d => revealKeys.contains d.key)

/-- The claims of the token that binds a presentation to the key of the holder. -/
def kbClaims (iat : Int) (sdHash nonce audience : String) : Claims :=
  Value.claimsOf [("nonce", .str nonce), ("aud", .str audience), ("iat", .num iat),
    ("sd_hash", .str sdHash)]

def presentedHash (revealKeys : List String) : String :=
  hashText p (trimSuffix (t.present p revealKeys) "~")

def presentWithKeyBinding (now : Int) (revealKeys : List String) (holderKey : PrivateKey)
    (holderKID nonce audience : String) : Except String String :=
  let base := t.present p revealKeys
  let sdHash := t.presentedHash p revealKeys
  match signSDJWT p (kbClaims (now / 1000000000) sdHash nonce audience) holderKey holderKID
    "kb+jwt" with
  | .error e => .error s!"sdjwt: sign kb-jwt: {e}"
  | .ok kbJWT => .ok (base ++ kbJWT)

end SDJWTToken

end Token

section Issue

structure SDJWTIssueOptions where
  issuerDID : String
  issuerKey : Option PrivateKey
  verificationMethodID : String
  subjectDID : String
  schemaID : String
  selectiveClaims : Claims
  alwaysVisibleClaims : Claims
  /-- In nanoseconds. -/
  validFor : Int

def errEphemeralIssuer : String :=
  "did:key is ephemeral and cannot be used as issuer for persistent credentials; use did:web or did:peer"

def disclose (random : String → Except String (List UInt8)) (claim : String × Value) :
    Except String (Disclosure × String) := do
  let d ← newDisclosure (random claim.1) claim.1 claim.2
  let digest ← d.digest p
  .ok (d, digest)

def issuerClaims (now : Int) (opts : SDJWTIssueOptions) (validFor : Int) (vct : Option String)
    (sdDigests : List String) : Claims :=
  let payload := Value.claimsOf [("iss", .str opts.issuerDID), ("sub", .str opts.subjectDID),
    ("iat", .num (now / 1000000000 : Int)), ("exp", .num ((now + validFor) / 1000000000 : Int)),
    ("_sd_alg", .str "sha-256"), ("_sd", .arr (sdDigests.map .str))]
  let payload :=
    match vct with
    | some id => payload.insert "vct" (.str id)
    | none => payload
  opts.alwaysVisibleClaims.entries.foldl (fun claims field => claims.insert field.1 field.2) payload

variable [PrintTable]

def credentialType (reg : Registry) (schemaID : String) : Except String (Option String) :=
  if schemaID ≠ "" then
    match reg.getSchema schemaID with
    | .error e => .error s!"sdjwt: unknown schema {quote schemaID}: {e}"
    | .ok s => .ok (some s.versionedID)
  else .ok none

def issueSDJWT (reg : Registry) (random : String → Except String (List UInt8)) (now : Int)
    (opts : SDJWTIssueOptions) : Except String SDJWTToken :=
  if opts.issuerDID.startsWith "did:key:" then .error errEphemeralIssuer
  else
    match opts.issuerKey with
    | none => .error "sdjwt: issuer DID and key are required"
    | some issuerKey =>
      if opts.issuerDID = "" then .error "sdjwt: issuer DID and key are required"
      else if opts.subjectDID = "" then .error "sdjwt: subject DID is required"
      else do
        let validFor := if opts.validFor ≤ 0 then 86400000000000 else opts.validFor
        let vct ← credentialType reg opts.schemaID
        let disclosed ← opts.selectiveClaims.entries.mapM (disclose p random)
        let payload := issuerClaims now opts validFor vct (disclosed.map Prod.snd)
        match signSDJWT p payload issuerKey opts.verificationMethodID "vc+sd-jwt" with
        | .error e => .error s!"sdjwt: sign: {e}"
        | .ok jwt => .ok ⟨jwt, disclosed.map Prod.fst⟩

end Issue

section Parse

/-- The parts of a presentation. -/
structure ParsedSDJWT where
  jwt : String
  disclosures : List String
  kbToken : String
deriving Repr, DecidableEq

/-- Key bindings have two dots; disclosures have none. -/
def ParsedSDJWT.addPart (parsed : ParsedSDJWT) (part : String) : ParsedSDJWT :=
  if part = "" then parsed
  else if part.toList.count '.' = 2 then { parsed with kbToken := part }
  else { parsed with disclosures := parsed.disclosures ++ [part] }

def parseSDJWT (token : String) : Except String ParsedSDJWT :=
  if token = "" then .error "sdjwt: empty token"
  else
    match splitString '~' token with
    | jwt :: part :: parts => .ok ((part :: parts).foldl ParsedSDJWT.addPart ⟨jwt, [], ""⟩)
    | _ => .error "sdjwt: not an SD-JWT — missing ~ separator"

end Parse

section Verify

structure SDJWTVerifyResult where
  issuerDID : String
  subjectDID : String
  schemaID : String
  disclosedClaims : Claims
  alwaysClaims : List (String × Value)
  issuedAt : Option Int
  expiresAt : Option Int
  keyBindingVerified : Bool

/-- The length of the number in front of a key, none when it does not end. -/
def uvarintLength (b : List UInt8) : Nat :=
  match b.findIdx? (· < 0x80) with
  | some i => i + 1
  | none => 0

def decodeMultibaseEd25519 (mb : String) : Except String PublicKey := do
  let raw ←
    match p.multibaseDecode mb with
    | .ok raw => .ok raw
    | .error e =>
      match mb.toList with
      | 'u' :: rest =>
        match Base64.decodeString (String.ofList rest) with
        | .ok raw => .ok raw
        | .error e => .error s!"decode key: {e}"
      | _ => .error s!"decode key multibase: {e}"
  if raw.length < 2 then .error "key too short"
  else
    let key := raw.drop (uvarintLength raw)
    if h : key.length = 32 then .ok ⟨key, h⟩
    else .error s!"expected 32-byte Ed25519 key, got {key.length} bytes"

variable [PrintTable]

def resolveSigningKey (issuerDID : String) : Except String PublicKey :=
  match p.resolve issuerDID with
  | .error e => .error s!"resolve DID {quote issuerDID}: {e}"
  | .ok methods =>
    let active := methods.filterMap fun vm =>
      if vm.revoked ∨ vm.type ≠ "Ed25519VerificationKey2020" then none else vm.publicKeyMultibase
    match active with
    | mb :: _ => decodeMultibaseEd25519 p mb
    | [] => .error s!"no active Ed25519 verification method in DID document for {issuerDID}"

/-- The digests in the payload of the issuer. -/
def sdDigests (rawClaims : Claims) : List String :=
  match rawClaims.get "_sd" with
  | some (.arr items) => items.filterMap fun
      | .str s => some s
      | _ => none
  | _ => []

def checkDisclosure (digests : List String) (disclosed : Claims) (enc : String) :
    Except String Claims :=
  match parseDisclosure p enc with
  | .error e => .error s!"sdjwt: {e}"
  | .ok d => do
    let digest ← d.digest p
    if digests.contains digest then .ok (disclosed.insert d.key d.value)
    else .error s!"sdjwt: disclosure {quote d.key} not in _sd hashes — possible forgery"

def sdHashOf (parsed : ParsedSDJWT) : String :=
  hashText p ("~".intercalate (parsed.jwt :: parsed.disclosures) ++ "~")

/-- The key in the `cnf` claim, if there is one. -/
def extractHolderKey (claims : Claims) : Except String (Option PublicKey) :=
  match claims.get "cnf" with
  | some (.obj cnf) =>
    match (Value.claimsOf cnf).get "jwk" with
    | some (.obj fields) =>
      let jwk := Value.claimsOf fields
      let kty := Value.strOrEmpty (jwk.get "kty")
      if kty ≠ "OKP" then
        .error s!"sdjwt: cnf.jwk kty {quote kty} unsupported — expected OKP"
      else
        match jwk.get "x" with
        | some (.str x) =>
          match Base64.decodeString x with
          | .error e => .error s!"sdjwt: decode cnf.jwk x: {e}"
          | .ok raw =>
            if h : raw.length = 32 then .ok (some ⟨raw, h⟩)
            else .error s!"sdjwt: cnf.jwk x must be 32 bytes, got {raw.length}"
        | _ => .error "sdjwt: cnf.jwk missing x coordinate"
    | _ => .ok none
  | _ => .ok none

def matchClaim (name claim : String) (kbClaims : Claims) (expected : String) : Except String Unit :=
  let got := Value.strOrEmpty (kbClaims.get claim)
  if expected ≠ "" ∧ got ≠ expected then
    .error s!"{name} mismatch: got {quote got}, want {quote expected}"
  else .ok ()

def verifyKBJWT (parsed : ParsedSDJWT) (holderPub : Option PublicKey)
    (expectedNonce expectedAud : String) : Except String Unit :=
  match parseSDJWTPayload p parsed.kbToken with
  | .error e => .error s!"parse kb claims: {e}"
  | .ok kbClaims => do
    matchClaim "nonce" "nonce" kbClaims expectedNonce
    matchClaim "audience" "aud" kbClaims expectedAud
    if Value.strOrEmpty (kbClaims.get "sd_hash") ≠ sdHashOf p parsed then
      .error "sd_hash mismatch — presentation was tampered"
    else
      match holderPub with
      | none => .ok ()
      | some pub =>
        match verifySDJWTSig p parsed.kbToken pub with
        | .error e => .error s!"kb-jwt signature: {e}"
        | .ok () => .ok ()

def verifyKeyBinding (parsed : ParsedSDJWT) (rawClaims : Claims)
    (expectedNonce expectedAudience : String) : Except String Bool :=
  if parsed.kbToken ≠ "" then
    match extractHolderKey rawClaims with
    | .ok (some holderPub) =>
      match verifyKBJWT p parsed (some holderPub) expectedNonce expectedAudience with
      | .error e => .error s!"sdjwt: kb-jwt: {e}"
      | .ok () => .ok true
    | _ => .error "sdjwt: kb-jwt: no cnf holder key in token"
  else if expectedNonce ≠ "" ∨ expectedAudience ≠ "" then
    .error "sdjwt: key binding JWT required (nonce/audience expected) but not present"
  else .ok false

def expired (now : Int) (rawClaims : Claims) : Bool :=
  match rawClaims.get "exp" with
  | some (.num exp) => now / 1000000000 > Value.int64 exp
  | _ => false

/-- The claims that say something about the token itself. -/
def reservedClaims : List String :=
  ["iss", "sub", "iat", "exp", "_sd", "_sd_alg", "vct", "cnf"]

def unixTime (v : Option Value) : Option Int :=
  match v with
  | some (.num q) => some (Value.int64 q)
  | _ => none

/-- `SDJWTVerifier.Verify`, at the time `now`. -/
def verify (now : Int) (token expectedNonce expectedAudience : String) :
    Except String SDJWTVerifyResult := do
  let parsed ← parseSDJWT token
  match parseSDJWTPayload p parsed.jwt with
  | .error e => .error s!"sdjwt: parse payload: {e}"
  | .ok rawClaims =>
    let issuerDID := Value.strOrEmpty (rawClaims.get "iss")
    if issuerDID = "" then .error "sdjwt: missing iss claim"
    else
      match resolveSigningKey p issuerDID with
      | .error e => .error s!"sdjwt: resolve issuer key: {e}"
      | .ok pub =>
        match verifySDJWTSig p parsed.jwt pub with
        | .error e => .error s!"sdjwt: {e}"
        | .ok () =>
          if expired now rawClaims then .error "sdjwt: credential expired"
          else do
            let disclosedClaims ←
              parsed.disclosures.foldlM (checkDisclosure p (sdDigests rawClaims)) .empty
            let kbVerified ← verifyKeyBinding p parsed rawClaims expectedNonce expectedAudience
            .ok {
              issuerDID := issuerDID
              subjectDID := Value.strOrEmpty (rawClaims.get "sub")
              schemaID := Value.strOrEmpty (rawClaims.get "vct")
              disclosedClaims := disclosedClaims
              alwaysClaims := rawClaims.entries.filter fun f => !reservedClaims.contains f.1
              issuedAt := unixTime (rawClaims.get "iat")
              expiresAt := unixTime (rawClaims.get "exp")
              keyBindingVerified := kbVerified }

end Verify

end SdJwt

end Oikos.Identity
