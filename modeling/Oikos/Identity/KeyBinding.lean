/-
Presentations with a key binding: the verifier splits a presentation into the
parts that its holder joined, but hashes another text than the holder did.
-/
import Oikos.Identity.SdJwt
import Mathlib.Data.List.Sort

namespace Oikos.Identity.SdJwt

open List

variable {p : Primitives}

section Text

theorem not_mem_encodeToString {c : Char} (hc : c ∉ Base64.alphabet) (bytes : List UInt8) :
    c ∉ (Base64.encodeToString bytes).toList := by
  rw [Base64.encodeToString, String.toList_ofList]
  exact fun hmem => hc (Base64.mem_encodeChars hmem)

theorem dot_not_mem (bytes : List UInt8) : '.' ∉ (Base64.encodeToString bytes).toList :=
  not_mem_encodeToString (by rw [Base64.alphabet_eq]; decide) bytes

theorem tilde_not_mem (bytes : List UInt8) : '~' ∉ (Base64.encodeToString bytes).toList :=
  not_mem_encodeToString (by rw [Base64.alphabet_eq]; decide) bytes

theorem encodeToString_injective {a b : List UInt8}
    (h : Base64.encodeToString a = Base64.encodeToString b) : a = b := by
  have hdecode := congrArg Base64.decodeString h
  rw [Base64.decodeString_encodeToString, Base64.decodeString_encodeToString] at hdecode
  exact Except.ok.inj hdecode

theorem encodeToString_ne_empty {bytes : List UInt8} (h : bytes ≠ []) :
    Base64.encodeToString bytes ≠ "" := by
  intro hempty
  exact h (encodeToString_injective (hempty.trans (rfl : "" = Base64.encodeToString [])))

/-- The text of a token. -/
def compactJWT (header payload sig : List UInt8) : String :=
  Base64.encodeToString header ++ "." ++ Base64.encodeToString payload ++ "." ++
    Base64.encodeToString sig

theorem toList_compactJWT (header payload sig : List UInt8) :
    (compactJWT header payload sig).toList = (Base64.encodeToString header).toList ++
      '.' :: ((Base64.encodeToString payload).toList ++ '.' ::
      (Base64.encodeToString sig).toList) := by
  have hdot : ".".toList = ['.'] := rfl
  simp only [compactJWT, String.toList_append, hdot, append_assoc, cons_append,
    nil_append]

variable (header payload sig : List UInt8)

theorem jwtParts_compactJWT : jwtParts (compactJWT header payload sig) =
    [Base64.encodeToString header, Base64.encodeToString payload, Base64.encodeToString sig] := by
  rw [jwtParts, toList_compactJWT, splitN_cons (dot_not_mem header),
    splitN_cons (dot_not_mem payload), splitN]
  simp

theorem tilde_not_mem_compactJWT : '~' ∉ (compactJWT header payload sig).toList := by
  rw [toList_compactJWT]
  simp [tilde_not_mem]

theorem count_dot_compactJWT : (compactJWT header payload sig).toList.count '.' = 2 := by
  rw [toList_compactJWT]
  simp [count_append, count_eq_zero_of_not_mem (dot_not_mem _)]

theorem compactJWT_ne_empty : compactJWT header payload sig ≠ "" := by
  intro hempty
  have hcount := count_dot_compactJWT header payload sig
  rw [hempty] at hcount
  cases hcount

variable {header payload sig}

theorem parseSDJWTPayload_compactJWT :
    parseSDJWTPayload p (compactJWT header payload sig) = unmarshalClaims p payload := by
  rw [parseSDJWTPayload, jwtParts_compactJWT]
  simp only [Base64.decodeString_encodeToString]

theorem signSDJWT_eq_ok {claims : Claims} {key : PrivateKey} {kid typ jwt : String}
    (h : signSDJWT p claims key kid typ = .ok jwt) :
    ∃ header payload sig, p.marshal (.obj claims.entries) = .ok payload ∧
      jwt = compactJWT header payload sig := by
  obtain ⟨header, _, h⟩ := bind_eq_ok.mp h
  obtain ⟨payload, hpayload, h⟩ := bind_eq_ok.mp h
  exact ⟨header, payload, _, hpayload, (Except.ok.inj h).symm⟩

end Text

section Parts

theorem foldl_addPart (parts : List String) (parsed : ParsedSDJWT)
    (h : ∀ part ∈ parts, part ≠ "" ∧ '.' ∉ part.toList) :
    parts.foldl ParsedSDJWT.addPart parsed =
      { parsed with disclosures := parsed.disclosures ++ parts } := by
  induction parts generalizing parsed with
  | nil => simp
  | cons part parts ih =>
    obtain ⟨hne, hdot⟩ := h part mem_cons_self
    have hcount : part.toList.count '.' ≠ 2 := by
      rw [count_eq_zero_of_not_mem hdot]
      decide
    rw [foldl_cons, ih _ fun part' hpart' => h part' (mem_cons_of_mem part hpart'),
      ParsedSDJWT.addPart, if_neg hne, if_neg hcount, append_assoc]
    rfl

def Encodes (p : Primitives) (d : Disclosure) : Prop :=
  ∃ bytes, bytes ≠ [] ∧ d.encode p = .ok (Base64.encodeToString bytes)

theorem disclosurePart_of_encodes {d : Disclosure} (h : Encodes p d) :
    SDJWTToken.disclosurePart p d ≠ "" ∧ '.' ∉ (SDJWTToken.disclosurePart p d).toList ∧
      '~' ∉ (SDJWTToken.disclosurePart p d).toList := by
  obtain ⟨bytes, hne, henc⟩ := h
  rw [SDJWTToken.disclosurePart, henc]
  exact ⟨encodeToString_ne_empty hne, dot_not_mem bytes,
    tilde_not_mem bytes⟩

variable {t : SDJWTToken} {discs : List Disclosure} {kbJWT : String}

theorem serializeWith_append (kbJWT : String) : t.serializeWith p discs ++ kbJWT =
    (String.singleton '~').intercalate
      ((t.jwt :: discs.map (SDJWTToken.disclosurePart p)) ++ [kbJWT]) := by
  rw [String.intercalate_append_of_ne_nil (cons_ne_nil _ _) (cons_ne_nil _ _),
    String.intercalate_singleton]
  rfl

theorem parseSDJWT_serializeWith {jh jp js kh kp ks : List UInt8}
    (hjwt : t.jwt = compactJWT jh jp js) (hdiscs : ∀ d ∈ discs, Encodes p d) :
    parseSDJWT (t.serializeWith p discs ++ compactJWT kh kp ks) =
      .ok ⟨t.jwt, discs.map (SDJWTToken.disclosurePart p), compactJWT kh kp ks⟩ := by
  let parts := discs.map (SDJWTToken.disclosurePart p)
  have hparts : ∀ part ∈ parts, part ≠ "" ∧ '.' ∉ part.toList ∧ '~' ∉ part.toList := by
    intro part hpart
    obtain ⟨d, hd, rfl⟩ := mem_map.mp hpart
    exact disclosurePart_of_encodes (hdiscs d hd)
  have hsplit : splitString '~' (t.serializeWith p discs ++ compactJWT kh kp ks) =
      t.jwt :: (parts ++ [compactJWT kh kp ks]) := by
    rw [serializeWith_append, splitString_intercalate (by simp)]
    · rfl
    · intro part hpart
      rcases mem_append.mp hpart with hpart | hpart
      · rcases mem_cons.mp hpart with rfl | hpart
        · rw [hjwt]
          exact tilde_not_mem_compactJWT jh jp js
        · exact (hparts part hpart).2.2
      · obtain rfl := mem_singleton.mp hpart
        exact tilde_not_mem_compactJWT kh kp ks
  have hne : t.serializeWith p discs ++ compactJWT kh kp ks ≠ "" := by
    intro hempty
    rw [hempty] at hsplit
    have hlength := congrArg length hsplit
    simp [splitString] at hlength
  have hfold : (parts ++ [compactJWT kh kp ks]).foldl ParsedSDJWT.addPart ⟨t.jwt, [], ""⟩ =
      ⟨t.jwt, parts, compactJWT kh kp ks⟩ := by
    rw [foldl_append, foldl_addPart parts _ fun part hpart =>
      ⟨(hparts part hpart).1, (hparts part hpart).2.1⟩]
    rw [foldl_cons, foldl_nil, ParsedSDJWT.addPart, if_neg (compactJWT_ne_empty kh kp ks),
      if_pos (count_dot_compactJWT kh kp ks), nil_append]
  rw [parseSDJWT, if_neg hne, hsplit]
  cases hlist : parts ++ [compactJWT kh kp ks] with
  | nil => simp at hlist
  | cons part rest =>
    rw [hlist] at hfold
    exact congrArg Except.ok hfold

end Parts

section Issued

variable {reg : Registry} {random : String → Except String (List UInt8)} {now : Int}
  {opts : SDJWTIssueOptions} {token : SDJWTToken}

theorem encodes_of_disclose (hmarshal : ∀ items, p.marshal (.arr items) ≠ .ok [])
    {claim : String × Value}
    {d : Disclosure} {digest : String} (h : disclose p random claim = .ok (d, digest)) :
    Encodes p d := by
  obtain ⟨d', _, h⟩ := bind_eq_ok.mp h
  obtain ⟨digest', hdigest, h⟩ := bind_eq_ok.mp h
  cases h
  obtain ⟨enc, henc, _⟩ := bind_eq_ok.mp hdigest
  unfold Disclosure.encode at henc
  cases hjson : p.marshal (.arr [.str d.salt, .str d.key, d.value]) with
  | error e =>
    rw [hjson] at henc
    cases henc
  | ok bytes =>
    refine ⟨bytes, fun hnil => hmarshal _ (hnil ▸ hjson), ?_⟩
    rw [Disclosure.encode, hjson]

theorem issueSDJWT_eq_ok [PrintTable] (hmarshal : ∀ items, p.marshal (.arr items) ≠ .ok [])
    (h : issueSDJWT p reg random now opts = .ok token) :
    (∃ header payload sig, token.jwt = compactJWT header payload sig) ∧
      ∀ d ∈ token.disclosures, Encodes p d := by
  unfold issueSDJWT at h
  split at h
  · cases h
  cases hkey : opts.issuerKey with
  | none =>
    simp only [hkey] at h
    cases h
  | some issuerKey =>
    simp only [hkey] at h
    split at h
    · cases h
    split at h
    · cases h
    obtain ⟨vct, _, h⟩ := bind_eq_ok.mp h
    obtain ⟨disclosed, hdisclosed, h⟩ := bind_eq_ok.mp h
    split at h
    · cases h
    · next jwt hjwt =>
      cases h
      obtain ⟨header, payload, sig, _, rfl⟩ := signSDJWT_eq_ok hjwt
      refine ⟨⟨header, payload, sig, rfl⟩, ?_⟩
      intro d hd
      obtain ⟨pair, hpair, rfl⟩ := mem_map.mp hd
      obtain ⟨claim, _, hclaim⟩ := exists_of_mem_mapM hdisclosed hpair
      exact encodes_of_disclose hmarshal hclaim

end Issued

section Verified

variable {now : Int} {parsed : ParsedSDJWT} {presentation nonce audience : String}

/-- Texts survive in JSON: what was a text under some key is read back as that text. -/
def RoundTrips (p : Primitives) (claims : Claims) : Prop :=
  ∀ raw, p.marshal (.obj claims.entries) = .ok raw →
    ∃ claims', unmarshalClaims p raw = .ok claims' ∧
    ∀ k s, claims.get k = some (.str s) → claims'.get k = some (.str s)

theorem get_claimsOf_entries (claims : Claims) (k : String) :
    (Value.claimsOf claims.entries).get k = claims.get k := by
  rw [Value.claimsOf, Table.get_foldl_insert claims.nodup, Table.get_empty, Option.or_none]
  rfl

theorem get_kbClaims_sd_hash (iat : Int) (sdHash nonce audience : String) :
    (SDJWTToken.kbClaims iat sdHash nonce audience).get "sd_hash" = some (.str sdHash) := by
  simp only [SDJWTToken.kbClaims, Value.claimsOf, foldl_cons, foldl_nil, Table.get_insert,
    if_true]

theorem sdHashOf_of_verifyKBJWT [PrintTable] {holderPub : Option PublicKey} {kbClaims : Claims}
    (h : verifyKBJWT p parsed holderPub nonce audience = .ok ())
    (hclaims : parseSDJWTPayload p parsed.kbToken = .ok kbClaims) :
    Value.strOrEmpty (kbClaims.get "sd_hash") = sdHashOf p parsed := by
  simp only [verifyKBJWT, hclaims] at h
  obtain ⟨_, _, h⟩ := bind_eq_ok.mp h
  obtain ⟨_, _, h⟩ := bind_eq_ok.mp h
  by_contra hne
  rw [if_pos hne] at h
  cases h

theorem matchClaim_of_eq [PrintTable] {name claim : String} {kbClaims : Claims} {expected : String}
    (h : Value.strOrEmpty (kbClaims.get claim) = expected) :
    matchClaim name claim kbClaims expected = .ok () := by
  rw [matchClaim, h]
  exact if_neg fun hne => hne.2 rfl

theorem verifyKBJWT_of_ne [PrintTable] {holderPub : Option PublicKey} {kbClaims : Claims}
    (hclaims : parseSDJWTPayload p parsed.kbToken = .ok kbClaims)
    (hnonce : Value.strOrEmpty (kbClaims.get "nonce") = nonce)
    (haud : Value.strOrEmpty (kbClaims.get "aud") = audience)
    (hne : Value.strOrEmpty (kbClaims.get "sd_hash") ≠ sdHashOf p parsed) :
    verifyKBJWT p parsed holderPub nonce audience =
      .error "sd_hash mismatch — presentation was tampered" := by
  simp only [verifyKBJWT, hclaims, matchClaim_of_eq hnonce, matchClaim_of_eq haud, ok_bind]
  exact if_pos hne

theorem verify_of_verifyKBJWT [PrintTable] {rawClaims disclosed : Claims} {issuerDID e : String}
    {pub holderPub : PublicKey} (hparse : parseSDJWT presentation = .ok parsed)
    (hraw : parseSDJWTPayload p parsed.jwt = .ok rawClaims)
    (hiss : Value.strOrEmpty (rawClaims.get "iss") = issuerDID) (hne : issuerDID ≠ "")
    (hpub : resolveSigningKey p issuerDID = .ok pub)
    (hsig : verifySDJWTSig p parsed.jwt pub = .ok ()) (hlive : expired now rawClaims = false)
    (hdisclosed : parsed.disclosures.foldlM (checkDisclosure p (sdDigests rawClaims)) .empty =
    .ok disclosed)
    (hkb : parsed.kbToken ≠ "") (hholder : extractHolderKey rawClaims = .ok (some holderPub))
    (hbinding : verifyKBJWT p parsed (some holderPub) nonce audience = .error e) :
    verify p now presentation nonce audience = .error s!"sdjwt: kb-jwt: {e}" := by
  have hkey : verifyKeyBinding p parsed rawClaims nonce audience =
    .error s!"sdjwt: kb-jwt: {e}" := by
    rw [verifyKeyBinding, if_pos hkb, hholder]
    simp only [hbinding]
  simp only [verify, hparse, hraw, hiss, if_neg hne, hpub, hsig, hlive, hdisclosed, hkey, ok_bind,
    error_bind, Bool.false_eq_true, if_false]

theorem verifyKBJWT_of_verify [PrintTable] {result : SDJWTVerifyResult}
    (hparse : parseSDJWT presentation = .ok parsed) (hkb : parsed.kbToken ≠ "")
    (h : verify p now presentation nonce audience = .ok result) :
    ∃ holderPub, verifyKBJWT p parsed (some holderPub) nonce audience = .ok () := by
  simp only [verify, hparse, ok_bind] at h
  split at h
  · cases h
  split at h
  · cases h
  split at h
  · cases h
  split at h
  · cases h
  split at h
  · cases h
  obtain ⟨_, _, h⟩ := bind_eq_ok.mp h
  obtain ⟨_, hbinding, _⟩ := bind_eq_ok.mp h
  rw [verifyKeyBinding, if_pos hkb] at hbinding
  split at hbinding
  · next holderPub _ =>
    split at hbinding
    · cases hbinding
    · next hverify => exact ⟨holderPub, hverify⟩
  · cases hbinding

theorem sdHashOf_presented {t : SDJWTToken} {revealKeys : List String} {kbJWT : String} :
    sdHashOf p ⟨t.jwt, (t.disclosures.filter fun d => revealKeys.contains d.key).map
      (SDJWTToken.disclosurePart p), kbJWT⟩ = hashText p (t.present p revealKeys) := rfl

end Verified

/-- A text and the text without its last separator have different hashes. -/
theorem trimSuffix_present_ne (t : SDJWTToken) (revealKeys : List String) :
    trimSuffix (t.present p revealKeys) "~" ≠ t.present p revealKeys := by
  intro heq
  have hlength := congrArg String.length heq
  simp only [SDJWTToken.present, SDJWTToken.serializeWith, trimSuffix_append,
    String.length_append] at hlength
  have hone : "~".length = 1 := rfl
  omega

section Presented

variable {reg : Registry} {random : String → Except String (List UInt8)} {opts : SDJWTIssueOptions}
  {token : SDJWTToken} {revealKeys : List String} {holderKey : PrivateKey}
  {holderKID nonce audience presentation : String} {issued presented now : Int}

/-- No presentation with a key binding is ever accepted: its holder hashes the text
without the last separator, its verifier with it. -/
theorem not_verified [PrintTable] (hmarshal : ∀ items, p.marshal (.arr items) ≠ .ok [])
    (hissue : issueSDJWT p reg random issued opts = .ok token)
    (hpresent : token.presentWithKeyBinding p presented revealKeys holderKey holderKID
    nonce audience =
      .ok presentation)
    (hround : RoundTrips p (SDJWTToken.kbClaims (presented / 1000000000)
      (token.presentedHash p revealKeys) nonce audience))
    (hsha : p.sha256 (bytesOf (trimSuffix (token.present p revealKeys) "~")) ≠
      p.sha256 (bytesOf (token.present p revealKeys)))
    (result : SDJWTVerifyResult) : verify p now presentation nonce audience ≠ .ok result := by
  intro hverify
  obtain ⟨⟨jh, jp, js, hjwt⟩, hencodes⟩ := issueSDJWT_eq_ok hmarshal hissue
  simp only [SDJWTToken.presentWithKeyBinding] at hpresent
  split at hpresent
  · cases hpresent
  · next kbJWT hsign =>
    cases hpresent
    obtain ⟨kh, kp, ks, hmarshalled, rfl⟩ := signSDJWT_eq_ok hsign
    have hparse : parseSDJWT (token.present p revealKeys ++ compactJWT kh kp ks) =
      .ok ⟨token.jwt, _, _⟩ :=
      parseSDJWT_serializeWith hjwt fun d hd => hencodes d (mem_of_mem_filter hd)
    obtain ⟨holderPub, hkb⟩ := verifyKBJWT_of_verify hparse (compactJWT_ne_empty kh kp ks) hverify
    obtain ⟨claims, hclaims, hstr⟩ := hround kp hmarshalled
    have hhash := sdHashOf_of_verifyKBJWT hkb (parseSDJWTPayload_compactJWT.trans hclaims)
    rw [hstr _ _ (get_kbClaims_sd_hash _ _ _ _), sdHashOf_presented] at hhash
    exact hsha (encodeToString_injective hhash)

end Presented

section Alice

/-- The printable characters among the first 128. -/
local instance : PrintTable :=
  ⟨fun c => 32 ≤ c.toNat && c.toNat < 127⟩

def jsonString (s : String) : List Char :=
  '"' :: s.toList.flatMap jsonChar ++ ['"']

/-- The order of texts by their characters. -/
def charsLE : List Char → List Char → Bool
  | [], _ => true
  | _ :: _, [] => false
  | c :: cs, d :: ds => c.toNat < d.toNat || (c == d && charsLE cs ds)

mutual

def jsonValue : Value → List Char
  | .null => "null".toList
  | .bool b => if b then "true".toList else "false".toList
  | .num q => (toString q.num).toList
  | .str s => jsonString s
  | .arr items => '[' :: List.intercalate [','] (jsonItems items) ++ [']']
  | .obj fields =>
    let sorted := (jsonFields fields).insertionSort fun f g => charsLE f.1.toList g.1.toList
    '{' :: List.intercalate [','] (sorted.map fun f => jsonString f.1 ++ ':' :: f.2) ++ ['}']

def jsonItems : List Value → List (List Char)
  | [] => []
  | v :: vs => jsonValue v :: jsonItems vs

def jsonFields : List (String × Value) → List (String × List Char)
  | [] => []
  | f :: fs => (f.1, jsonValue f.2) :: jsonFields fs

end

def jsonBytes (v : Value) : List UInt8 :=
  (jsonValue v).flatMap String.utf8EncodeChar

/-- A hash without collisions, one signature for everything, and JSON that can be read back
when it is one of the `known` values. -/
def plainPrimitives (known : List Value) : Primitives where
  marshal v := .ok (jsonBytes v)
  unmarshal raw :=
    match known.find? fun v => jsonBytes v == raw with
    | some v => .ok v
    | none => .error "unexpected end of JSON input"
  sha256 bytes := bytes
  sign _ _ := [1]
  verify _ _ sig := sig == [1]
  multibaseDecode _ := .ok (0xed :: 0x01 :: List.replicate 32 2)
  resolve _ := .ok [⟨"Ed25519VerificationKey2020", some "z6Mk", false⟩]

def noSchemas : Registry :=
  ⟨fun _ => none, fun _ => none⟩

def aliceKey : PrivateKey :=
  ⟨List.replicate 64 3, List.length_replicate⟩

def issuerKey : PrivateKey :=
  ⟨List.replicate 64 1, List.length_replicate⟩

def aliceOptions : SDJWTIssueOptions where
  issuerDID := "did:peer:issuer"
  issuerKey := some issuerKey
  verificationMethodID := "k"
  subjectDID := "did:peer:alice"
  schemaID := ""
  selectiveClaims := Value.claimsOf [("name", .str "Alice")]
  alwaysVisibleClaims := Value.claimsOf [("cnf", .obj [("jwk", .obj [("kty", .str "OKP"),
    ("x", .str (Base64.encodeToString (List.replicate 32 3)))])])]
  validFor := 3600000000000

def aliceDisclosure : Disclosure :=
  ⟨Base64.encodeToString [7], "name", .str "Alice"⟩

def aliceArray : Value :=
  .arr [.str aliceDisclosure.salt, .str aliceDisclosure.key, aliceDisclosure.value]

def aliceDigest : String :=
  Base64.encodeToString (bytesOf (Base64.encodeToString (jsonBytes aliceArray)))

def aliceClaims : Claims :=
  issuerClaims 0 aliceOptions aliceOptions.validFor none [aliceDigest]

def aliceToken : SDJWTToken where
  jwt := compactJWT (jsonBytes (headerClaims "k" "vc+sd-jwt"))
    (jsonBytes (.obj aliceClaims.entries)) [1]
  disclosures := [aliceDisclosure]

/-- The claims of the binding for the verifier of the nonce `n`. -/
def aliceBinding : Claims :=
  SDJWTToken.kbClaims 0 (aliceToken.presentedHash (plainPrimitives []) ["name"]) "n" "verifier"

/-- The JSON that is read during the verification. -/
def aliceValues : List Value :=
  [aliceArray, .obj aliceClaims.entries, .obj aliceBinding.entries]

def alicePrimitives : Primitives :=
  plainPrimitives aliceValues

def alicePresentation : String :=
  aliceToken.present alicePrimitives ["name"] ++
    compactJWT (jsonBytes (headerClaims "k" "kb+jwt")) (jsonBytes (.obj aliceBinding.entries)) [1]

theorem signSDJWT_plain (known : List Value) (claims : Claims) (key : PrivateKey)
    (kid typ : String) :
    signSDJWT (plainPrimitives known) claims key kid typ =
      .ok (compactJWT (jsonBytes (headerClaims kid typ))
      (jsonBytes (.obj claims.entries)) [1]) := by
  simp only [signSDJWT, plainPrimitives, ok_bind, compactJWT]

theorem encode_plain (known : List Value) (d : Disclosure) : d.encode (plainPrimitives known) =
    .ok (Base64.encodeToString (jsonBytes (.arr [.str d.salt, .str d.key, d.value]))) := by
  simp only [Disclosure.encode, plainPrimitives]

theorem digest_plain (known : List Value) (d : Disclosure) : d.digest (plainPrimitives known) =
    .ok (Base64.encodeToString (bytesOf
      (Base64.encodeToString (jsonBytes (.arr [.str d.salt, .str d.key, d.value]))))) := by
  simp only [Disclosure.digest, encode_plain, ok_bind, hashText]
  simp only [plainPrimitives]

theorem disclose_plain (known : List Value) :
    disclose (plainPrimitives known) (fun _ => .ok [7]) ("name", .str "Alice") =
      .ok (aliceDisclosure, aliceDigest) := by
  simp only [disclose, newDisclosure, ok_bind, digest_plain, aliceDisclosure,
    aliceDigest, aliceArray]

theorem alice_issued (known : List Value) :
    issueSDJWT (plainPrimitives known) noSchemas (fun _ => .ok [7]) 0 aliceOptions =
    .ok aliceToken := by
  have hkey : aliceOptions.issuerDID.startsWith "did:key:" = false := by decide +kernel
  have hentries : aliceOptions.selectiveClaims.entries = [("name", .str "Alice")] := rfl
  have hcredential : credentialType noSchemas aliceOptions.schemaID = .ok none := rfl
  have hissuer : aliceOptions.issuerKey = some issuerKey := rfl
  have hdid : aliceOptions.issuerDID ≠ "" := by decide
  have hsubject : aliceOptions.subjectDID ≠ "" := by decide
  have hvalid : ¬aliceOptions.validFor ≤ 0 := by decide
  have hdisclosed : aliceOptions.selectiveClaims.entries.mapM
      (disclose (plainPrimitives known) fun _ => .ok [7]) =
      .ok [(aliceDisclosure, aliceDigest)] := by
    rw [hentries, mapM_cons, disclose_plain]
    rfl
  rw [issueSDJWT, hkey, hissuer, if_neg Bool.false_ne_true]
  simp only [hdid, hsubject, hvalid, if_false, hcredential, hdisclosed, ok_bind]
  rw [signSDJWT_plain]
  rfl

theorem present_alice (known : List Value) : aliceToken.present (plainPrimitives known) ["name"] =
    "~".intercalate [aliceToken.jwt, Base64.encodeToString (jsonBytes aliceArray)] ++ "~" := by
  have hselected : (aliceToken.disclosures.filter fun d => ["name"].contains d.key) =
    [aliceDisclosure] := rfl
  simp only [SDJWTToken.present, hselected, SDJWTToken.serializeWith, map_cons, map_nil,
    SDJWTToken.disclosurePart, encode_plain, aliceArray]

theorem alice_presents (known : List Value) :
    aliceToken.presentWithKeyBinding (plainPrimitives known) 0
    ["name"] aliceKey "k" "n" "verifier" =
      .ok alicePresentation := by
  simp only [SDJWTToken.presentWithKeyBinding, SDJWTToken.presentedHash, hashText, present_alice,
    signSDJWT_plain, alicePresentation, alicePrimitives, aliceBinding]
  simp only [plainPrimitives]
  rfl

theorem entries_aliceClaims : aliceClaims.entries =
    [("iss", .str "did:peer:issuer"), ("sub", .str "did:peer:alice"), ("iat", .num 0),
    ("exp", .num 3600),
      ("_sd_alg", .str "sha-256"), ("_sd", .arr [.str aliceDigest]),
      ("cnf", .obj [("jwk", .obj [("kty", .str "OKP"),
        ("x", .str (Base64.encodeToString (replicate 32 3)))])])] := by
  simp [aliceClaims, issuerClaims, aliceOptions, Value.claimsOf, Table.insert,
    Table.keys, Table.empty]

theorem entries_aliceBinding : aliceBinding.entries =
    [("nonce", .str "n"), ("aud", .str "verifier"), ("iat", .num 0),
      ("sd_hash", .str (aliceToken.presentedHash (plainPrimitives []) ["name"]))] := by
  simp [aliceBinding, SDJWTToken.kbClaims, Value.claimsOf, Table.insert, Table.keys, Table.empty]

theorem unmarshal_alice {before after : List Value} (v : Value)
    (hknown : aliceValues = before ++ v :: after)
    (hne : ∀ w ∈ before, (jsonBytes w == jsonBytes v) = false) :
    alicePrimitives.unmarshal (jsonBytes v) = .ok v := by
  have hfind : aliceValues.find? (fun w => jsonBytes w == jsonBytes v) = some v := by
    rw [hknown, find?_append, find?_eq_none.mpr fun w hw =>
      ne_true_of_eq_false (hne w hw)]
    simp only [find?_cons, beq_self_eq_true, Option.none_or]
  simp only [alicePrimitives, plainPrimitives, hfind]

theorem unmarshal_aliceArray : alicePrimitives.unmarshal (jsonBytes aliceArray) = .ok aliceArray :=
  unmarshal_alice aliceArray (nil_append _).symm nofun

theorem jsonBytes_aliceClaims :
    (jsonBytes aliceArray == jsonBytes (.obj aliceClaims.entries)) = false := by
  rw [entries_aliceClaims]
  decide

theorem unmarshal_aliceClaims : alicePrimitives.unmarshal (jsonBytes (.obj aliceClaims.entries)) =
    .ok (.obj aliceClaims.entries) := by
  have hknown : aliceValues = [aliceArray] ++ .obj aliceClaims.entries ::
    [.obj aliceBinding.entries] := rfl
  apply unmarshal_alice _ hknown
  intro w hw
  rw [mem_singleton.mp hw]
  exact jsonBytes_aliceClaims

theorem jsonBytes_aliceBinding (v : Value) (h : v = aliceArray ∨ v = .obj aliceClaims.entries) :
    (jsonBytes v == jsonBytes (.obj aliceBinding.entries)) = false := by
  rcases h with rfl | rfl
  · rw [entries_aliceBinding]
    decide
  · rw [entries_aliceClaims, entries_aliceBinding]
    decide

theorem unmarshal_aliceBinding : alicePrimitives.unmarshal (jsonBytes (.obj aliceBinding.entries)) =
    .ok (.obj aliceBinding.entries) := by
  have hknown : aliceValues = [aliceArray, .obj aliceClaims.entries] ++
    .obj aliceBinding.entries :: [] := rfl
  apply unmarshal_alice _ hknown
  intro w hw
  exact jsonBytes_aliceBinding w (mem_pair.mp hw)

theorem aliceClaims_get : aliceClaims.get "iss" = some (.str "did:peer:issuer") ∧
    aliceClaims.get "exp" = some (.num 3600) ∧
    aliceClaims.get "_sd" = some (.arr [.str aliceDigest]) ∧
    aliceClaims.get "cnf" = some (.obj [("jwk", .obj [("kty", .str "OKP"),
      ("x", .str (Base64.encodeToString (replicate 32 3)))])]) := by
  simp only [Table.get, entries_aliceClaims]
  refine ⟨?_, ?_, ?_, ?_⟩ <;> simp [assocGet_cons]

theorem aliceBinding_get : aliceBinding.get "nonce" = some (.str "n") ∧
    aliceBinding.get "aud" = some (.str "verifier") := by
  simp only [Table.get, entries_aliceBinding]
  constructor <;> simp [assocGet_cons]

theorem encodes_alice {d : Disclosure} (h : d ∈ [aliceDisclosure]) : Encodes alicePrimitives d := by
  rw [mem_singleton.mp h]
  exact ⟨jsonBytes aliceArray, nofun, encode_plain aliceValues aliceDisclosure⟩

/-- What the verifier sees of the presentation. -/
def aliceParsed : ParsedSDJWT where
  jwt := aliceToken.jwt
  disclosures := [Base64.encodeToString (jsonBytes aliceArray)]
  kbToken := compactJWT (jsonBytes (headerClaims "k" "kb+jwt"))
    (jsonBytes (.obj aliceBinding.entries)) [1]

theorem parse_alicePresentation : parseSDJWT alicePresentation = .ok aliceParsed := by
  have hpart : SDJWTToken.disclosurePart alicePrimitives aliceDisclosure =
      Base64.encodeToString (jsonBytes aliceArray) := by
    rw [SDJWTToken.disclosurePart, alicePrimitives, encode_plain, aliceArray]
  rw [aliceParsed, ← hpart]
  exact parseSDJWT_serializeWith rfl fun d hd => encodes_alice hd

theorem checkDisclosure_alice (claims : Claims) (h : sdDigests claims = [aliceDigest]) :
    ∃ disclosed, checkDisclosure alicePrimitives (sdDigests claims) .empty
      (Base64.encodeToString (jsonBytes aliceArray)) = .ok disclosed := by
  have harray : unmarshalArray alicePrimitives (jsonBytes aliceArray) =
      .ok [.str aliceDisclosure.salt, .str aliceDisclosure.key, aliceDisclosure.value] := by
    rw [unmarshalArray, unmarshal_aliceArray]
    rfl
  have hparse : parseDisclosure alicePrimitives (Base64.encodeToString (jsonBytes aliceArray)) =
      .ok aliceDisclosure := by
    simp only [parseDisclosure, Base64.decodeString_encodeToString, harray]
  have hdigest : aliceDisclosure.digest alicePrimitives = .ok aliceDigest := by
    rw [alicePrimitives, digest_plain, aliceDigest, aliceArray]
  have hmem : [aliceDigest].contains aliceDigest = true := by simp
  simp only [checkDisclosure, hparse, hdigest, ok_bind, h, hmem, if_true]
  exact ⟨_, rfl⟩

theorem verifySDJWTSig_alice (header payload : List UInt8) (pub : PublicKey) :
    verifySDJWTSig alicePrimitives (compactJWT header payload [1]) pub = .ok () := by
  rw [verifySDJWTSig, jwtParts_compactJWT]
  simp only [Base64.decodeString_encodeToString, alicePrimitives, plainPrimitives,
    beq_self_eq_true, if_true]

theorem hashText_plain (known : List Value) (text : String) :
    hashText (plainPrimitives known) text = Base64.encodeToString (bytesOf text) := by
  simp only [hashText, plainPrimitives]

theorem presentedHash_alice :
    aliceToken.presentedHash (plainPrimitives [])
    ["name"] ≠ sdHashOf alicePrimitives aliceParsed := by
  have hverifier : sdHashOf alicePrimitives aliceParsed =
      Base64.encodeToString (bytesOf (aliceToken.present (plainPrimitives []) ["name"])) := by
    rw [sdHashOf, alicePrimitives, hashText_plain, present_alice, aliceParsed]
  rw [hverifier, SDJWTToken.presentedHash, hashText_plain]
  intro heq
  exact trimSuffix_present_ne _ _ (bytesOf_injective (encodeToString_injective heq))

theorem verifyKBJWT_alice (pub : PublicKey) :
    verifyKBJWT alicePrimitives aliceParsed (some pub) "n" "verifier" =
      .error "sd_hash mismatch — presentation was tampered" := by
  have hclaims : parseSDJWTPayload alicePrimitives aliceParsed.kbToken =
      .ok (Value.claimsOf aliceBinding.entries) := by
    rw [aliceParsed, parseSDJWTPayload_compactJWT, unmarshalClaims, unmarshal_aliceBinding]
  have hhash : aliceBinding.get "sd_hash" =
      some (.str (aliceToken.presentedHash (plainPrimitives []) ["name"])) := by
    rw [aliceBinding]
    exact get_kbClaims_sd_hash _ _ _ _
  obtain ⟨hnonce, haud⟩ := aliceBinding_get
  apply verifyKBJWT_of_ne hclaims
  · rw [get_claimsOf_entries, hnonce, Value.strOrEmpty]
  · rw [get_claimsOf_entries, haud, Value.strOrEmpty]
  · rw [get_claimsOf_entries, hhash, Value.strOrEmpty]
    exact presentedHash_alice

theorem extractHolderKey_alice : ∃ holder,
    extractHolderKey (Value.claimsOf aliceClaims.entries) = .ok (some holder) := by
  have hlength : (replicate 32 (3 : UInt8)).length = 32 := length_replicate
  have hclaims (k : String) (v w : Value) (k' : String) (hk : k ≠ k') :
      (Value.claimsOf [(k, v), (k', w)]).get k = some v ∧
      (Value.claimsOf [(k, v), (k', w)]).get k' = some w := by
    simp [Value.claimsOf, Table.get_insert, hk]
  obtain ⟨hkty, hx⟩ := hclaims "kty" (.str "OKP")
    (.str (Base64.encodeToString (replicate 32 3))) "x"
    (by decide)
  have hjwk (v : Value) : (Value.claimsOf [("jwk", v)]).get "jwk" = some v := by
    simp [Value.claimsOf, Table.get_insert]
  rw [extractHolderKey, get_claimsOf_entries, aliceClaims_get.2.2.2]
  simp only [hjwk, hkty, hx, Value.strOrEmpty, ne_eq, not_true_eq_false, if_false,
    Base64.decodeString_encodeToString, hlength, dif_pos]
  exact ⟨_, rfl⟩

/-- All checks of the presentation of Alice succeed but the last one. -/
theorem alice_rejected :
    issueSDJWT alicePrimitives noSchemas (fun _ => .ok [7]) 0 aliceOptions = .ok aliceToken ∧
      aliceToken.presentWithKeyBinding alicePrimitives 0 ["name"] aliceKey "k" "n" "verifier" =
        .ok alicePresentation ∧
      verify alicePrimitives 0 alicePresentation "n" "verifier" =
        .error "sdjwt: kb-jwt: sd_hash mismatch — presentation was tampered" := by
  refine ⟨alice_issued aliceValues, alice_presents aliceValues, ?_⟩
  obtain ⟨hiss, hexp, hsd, hcnf⟩ := aliceClaims_get
  have hraw : parseSDJWTPayload alicePrimitives aliceParsed.jwt =
    .ok (Value.claimsOf aliceClaims.entries) := by
    rw [aliceParsed, aliceToken, parseSDJWTPayload_compactJWT, unmarshalClaims,
      unmarshal_aliceClaims]
  have hissuer : Value.strOrEmpty ((Value.claimsOf aliceClaims.entries).get "iss") =
    "did:peer:issuer" := by
    rw [get_claimsOf_entries, hiss, Value.strOrEmpty]
  obtain ⟨pub, hpub⟩ : ∃ pub, resolveSigningKey alicePrimitives "did:peer:issuer" =
    .ok pub := ⟨_, rfl⟩
  have hsig : verifySDJWTSig alicePrimitives aliceParsed.jwt pub = .ok () := by
    rw [aliceParsed, aliceToken]
    exact verifySDJWTSig_alice _ _ pub
  have hlive : expired 0 (Value.claimsOf aliceClaims.entries) = false := by
    rw [expired, get_claimsOf_entries, hexp]
    decide
  have hdigests : sdDigests (Value.claimsOf aliceClaims.entries) = [aliceDigest] := by
    rw [sdDigests, get_claimsOf_entries, hsd]
    rfl
  obtain ⟨disclosed, hdisclosed⟩ := checkDisclosure_alice _ hdigests
  obtain ⟨holder, hholder⟩ := extractHolderKey_alice
  have hall : aliceParsed.disclosures.foldlM (checkDisclosure alicePrimitives
      (sdDigests (Value.claimsOf aliceClaims.entries))) .empty = .ok disclosed := by
    rw [aliceParsed, foldlM_cons, hdisclosed]
    rfl
  have hkb : aliceParsed.kbToken ≠ "" := by
    rw [aliceParsed]
    exact compactJWT_ne_empty _ _ _
  have hne : "did:peer:issuer" ≠ "" := by decide
  exact verify_of_verifyKBJWT parse_alicePresentation hraw hissuer hne hpub hsig hlive
    hall hkb hholder
    (verifyKBJWT_alice holder)

/-- Alice presents her own token, bound to her key, and is refused. -/
theorem alice_not_verified :
    ¬ ∃ result, verify alicePrimitives 0 alicePresentation "n" "verifier" = .ok result := by
  have hmarshal : ∀ items, alicePrimitives.marshal (.arr items) ≠ .ok [] := by
    intro items hnil
    have hbytes : jsonBytes (.arr items) = [] := Except.ok.inj hnil
    rw [jsonBytes, jsonValue] at hbytes
    cases hbytes
  have hhash : aliceToken.presentedHash alicePrimitives ["name"] =
      aliceToken.presentedHash (plainPrimitives []) ["name"] := by
    simp only [alicePrimitives, SDJWTToken.presentedHash, hashText_plain, present_alice]
  have hround : RoundTrips alicePrimitives (SDJWTToken.kbClaims (0 / 1000000000)
      (aliceToken.presentedHash alicePrimitives ["name"]) "n" "verifier") := by
    rw [hhash]
    intro raw hraw
    have hbytes : alicePrimitives.marshal (.obj aliceBinding.entries) =
        .ok (jsonBytes (.obj aliceBinding.entries)) := by
      simp only [alicePrimitives, plainPrimitives]
    have hraw := Except.ok.inj (hbytes.symm.trans hraw)
    refine ⟨Value.claimsOf aliceBinding.entries, ?_, fun k s hs => ?_⟩
    · rw [← hraw, unmarshalClaims, unmarshal_aliceBinding]
    · rw [get_claimsOf_entries]
      exact hs
  have hsha : alicePrimitives.sha256
      (bytesOf (trimSuffix (aliceToken.present alicePrimitives ["name"]) "~")) ≠
        alicePrimitives.sha256 (bytesOf (aliceToken.present alicePrimitives ["name"])) := by
    have hsha (bytes : List UInt8) : alicePrimitives.sha256 bytes = bytes := by
      simp only [alicePrimitives, plainPrimitives]
    rw [hsha, hsha]
    exact fun heq => trimSuffix_present_ne _ _ (bytesOf_injective heq)
  rintro ⟨result, hverify⟩
  exact not_verified hmarshal (alice_issued aliceValues) (alice_presents aliceValues) hround hsha
    result hverify

end Alice

end Oikos.Identity.SdJwt
