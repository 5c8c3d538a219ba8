/-
Unpacking of encrypted DIDComm envelopes: the key agreement is chosen by the
`alg` header, the sender is taken from the `skid` header.
-/
import Oikos.Lib.Base64
import Oikos.Lib.GoText
import Oikos.Lib.Vec

namespace Oikos.Identity.DidComm

def algAnoncrypt : String :=
  "ECDH-ES+A256KW"

def algAuthcrypt : String :=
  "ECDH-1PU+A256KW"

structure JwkOKP where
  kty : String
  crv : String
  x : String
deriving Repr, DecidableEq

structure JweRecipHeader where
  kid : String
  epk : Option JwkOKP
deriving Repr, DecidableEq

structure JweRecip where
  header : JweRecipHeader
  encryptedKey : String
deriving Repr, DecidableEq

/-- An encrypted message, each part in base64. -/
structure Envelope where
  protectedHeader : String
  recipients : List JweRecip
  iv : String
  ciphertext : String
  tag : String
deriving Repr, DecidableEq

/-- The header that the encryption authenticates. -/
structure ProtectedHeader where
  typ : String
  alg : String
  enc : String
  skid : String
  apu : String
  apv : String
deriving Repr, DecidableEq

/-- `[32]byte`. -/
structure Key where
  bytes : List UInt8
  length_eq : bytes.length = 32
deriving Repr, DecidableEq

def Key.zero : Key :=
  ⟨List.replicate 32 0, List.length_replicate⟩

/-- The functions of the standard library and of the cryptographic packages. -/
structure Primitives where
  unmarshalEnvelope : List UInt8 → Except String Envelope
  unmarshalHeader : List UInt8 → Except String ProtectedHeader
  /-- A scalar and a point. -/
  x25519 : Key → Key → Except String (List UInt8)
  sha256 : List UInt8 → Key
  /-- The block cipher under a key. -/
  aesDecrypt : Key → List UInt8 → List UInt8
  /-- Key, nonce, ciphertext and additional data. -/
  xchacha20Open : Key → List UInt8 → List UInt8 → List UInt8 → Except String (List UInt8)

def nonceSizeX : Nat :=
  24

/-- The last `w` bytes of a number, the highest first. -/
def bigEndian : Nat → Nat → List UInt8
  | 0, _ => []
  | w + 1, n => bigEndian w (n / 256) ++ [.ofNat n]

section KeyAgreement

variable (p : Primitives)

/-- The party information of a header; nothing is decoded from nothing. -/
def partyInfo (name b64 : String) : Except String (List UInt8) :=
  if b64 ≠ "" then
    match Base64.decodeString b64 with
    | .ok bytes => .ok bytes
    | .error e => .error s!"concat-kdf: decode {name}: {e}"
  else .ok []

/-- The key from a shared secret, the algorithm and the parties. -/
def concatKDF (z : List UInt8) (alg apuB64 apvB64 : String) : Except String Key := do
  let apu ← partyInfo "apu" apuB64
  let apv ← partyInfo "apv" apvB64
  let algBytes := bytesOf alg
  .ok (p.sha256 (bigEndian 4 1 ++ z ++
    bigEndian 4 algBytes.length ++ algBytes ++
    bigEndian 4 apu.length ++ apu ++
    bigEndian 4 apv.length ++ apv ++
    bigEndian 4 256))

def ecdhESKEKRecipient (recipPriv ephPub : Key) (alg apvB64 : String) : Except String Key := do
  let z ← p.x25519 recipPriv ephPub
  concatKDF p z alg "" apvB64

def ecdh1PUKEKRecipient (ephPub recipPriv senderPub : Key) (alg apuB64 apvB64 : String) :
    Except String Key := do
  let ze ← p.x25519 recipPriv ephPub
  let zs ← p.x25519 recipPriv senderPub
  concatKDF p (ze ++ zs) alg apuB64 apvB64

/-- A key agreement with all that goes into it. -/
inductive Derivation where
  | ecdhES (recipPriv ephPub : Key) (alg apvB64 : String)
  | ecdh1PU (ephPub recipPriv senderPub : Key) (alg apuB64 apvB64 : String)
deriving Repr, DecidableEq

def Derivation.kek : Derivation → Except String Key
  | .ecdhES recipPriv ephPub alg apvB64 => ecdhESKEKRecipient p recipPriv ephPub alg apvB64
  | .ecdh1PU ephPub recipPriv senderPub alg apuB64 apvB64 =>
    ecdh1PUKEKRecipient p ephPub recipPriv senderPub alg apuB64 apvB64

end KeyAgreement

section KeyWrap

def aesKWDefaultIV : List UInt8 :=
  [0xA6, 0xA6, 0xA6, 0xA6, 0xA6, 0xA6, 0xA6, 0xA6]

/-- The rounds of the unwrapping of `n` blocks, from the last to the first. -/
def unwrapRounds (n : Nat) : List (Nat × Nat) :=
  (List.range 6).reverse.flatMap fun j => (List.range n).reverse.map fun i => (i, n * j + i + 1)

/-- One round: the register and block `i` go through the cipher. -/
def unwrapRound (decrypt : List UInt8 → List UInt8) (state : List UInt8 × List (List UInt8))
    (round : Nat × Nat) : List UInt8 × List (List UInt8) :=
  let (a, r) := state
  let (i, t) := round
  let buf := decrypt (List.zipWith (· ^^^ ·) a (bigEndian 8 t) ++ r[i]?.getD [])
  (buf.take 8, r.set i (buf.drop 8))

def aesKeyUnwrap (p : Primitives) (kek : Key) (ciphertext : List UInt8) :
    Except String (List UInt8) :=
  if ciphertext.length < 24 ∨ ciphertext.length % 8 ≠ 0 then
    .error "aes-kw: ciphertext must be ≥24 bytes and a multiple of 8"
  else
    let n := ciphertext.length / 8 - 1
    let blocks := (List.range n).map fun i => (ciphertext.drop (8 * (i + 1))).take 8
    let (a, r) := (unwrapRounds n).foldl (unwrapRound (p.aesDecrypt kek))
      (ciphertext.take 8, blocks)
    if a ≠ aesKWDefaultIV then
      .error "aes-kw: integrity check failed — wrong key or corrupted ciphertext"
    else .ok r.flatten

end KeyWrap

section Unpack

variable (p : Primitives)

def ephemeralKey (epk : JwkOKP) : Option Key :=
  match Base64.decodeString epk.x with
  | .error _ => none
  | .ok bytes => if h : bytes.length = 32 then some ⟨bytes, h⟩ else none

def agreement (hdr : ProtectedHeader) (senderPub recipPriv ephPub : Key) : Option Derivation :=
  if hdr.alg = algAnoncrypt then some (.ecdhES recipPriv ephPub hdr.alg hdr.apv)
  else if hdr.alg = algAuthcrypt then
    some (.ecdh1PU ephPub recipPriv senderPub hdr.alg hdr.apu hdr.apv)
  else none

def unwrapRecipient (hdr : ProtectedHeader) (senderPub : Key)
    (recipKeyFn : String → Except String Key)
    (r : JweRecip) : Option (Derivation × Key) := do
  let recipPriv ← (recipKeyFn r.header.kid).toOption
  let epk ← r.header.epk
  let ephPub ← ephemeralKey epk
  let derivation ← agreement hdr senderPub recipPriv ephPub
  let kek ← (derivation.kek p).toOption
  let encKey ← (Base64.decodeString r.encryptedKey).toOption
  let cek ← (aesKeyUnwrap p kek encKey).toOption
  if h : cek.length = 32 then some (derivation, ⟨cek, h⟩) else none

/-- The first entry that can be unwrapped. -/
def unwrapCEK (hdr : ProtectedHeader) (senderPub : Key) (recipKeyFn : String → Except String Key)
    (recipients : List JweRecip) : Option (Derivation × Key) :=
  recipients.findSome? (unwrapRecipient p hdr senderPub recipKeyFn)

/-- The sender's key is looked up whenever a sender is named. -/
def resolveSender (hdr : ProtectedHeader) (senderPubFn : Option (String → Except String Key)) :
    Except String Key :=
  if hdr.skid ≠ "" then
    match senderPubFn with
    | none => .error "didcomm: authcrypt envelope requires senderPubFn"
    | some f =>
      match f hdr.skid with
      | .ok pub => .ok pub
      | .error e => .error s!"didcomm: resolve sender key {hdr.skid}: {e}"
  else .ok .zero

def openHeader (env : Envelope) : Except String ProtectedHeader :=
  match Base64.decodeString env.protectedHeader with
  | .error e => .error s!"didcomm: decode protected header: {e}"
  | .ok protJSON =>
    match p.unmarshalHeader protJSON with
    | .error e => .error s!"didcomm: parse protected header: {e}"
    | .ok hdr => .ok hdr

def decodePart (name b64 : String) : Except String (List UInt8) :=
  match Base64.decodeString b64 with
  | .ok bytes => .ok bytes
  | .error e => .error s!"didcomm: decode {name}: {e}"

def openContent (env : Envelope) (cek : Key) : Result String (List UInt8) := do
  let ivBytes ← ofExcept (decodePart "iv" env.iv)
  let ctBytes ← ofExcept (decodePart "ciphertext" env.ciphertext)
  let tagBytes ← ofExcept (decodePart "tag" env.tag)
  if ivBytes.length ≠ nonceSizeX then .error .panic
  else
    mapErr ("didcomm: decrypt content: " ++ ·)
      (ofExcept (p.xchacha20Open cek ivBytes (ctBytes ++ tagBytes) (bytesOf env.protectedHeader)))

/-- The content of an envelope and the sender that its header names. -/
def unpack (envelope : List UInt8) (recipKeyFn : String → Except String Key)
    (senderPubFn : Option (String → Except String Key)) : Result String (List UInt8 × String) := do
  let env ← mapErr ("didcomm: parse envelope: " ++ ·) (ofExcept (p.unmarshalEnvelope envelope))
  let hdr ← ofExcept (openHeader p env)
  let senderPub ← ofExcept (resolveSender hdr senderPubFn)
  match unwrapCEK p hdr senderPub recipKeyFn env.recipients with
  | none => .error (.err "didcomm: no matching recipient key found")
  | some (_, cek) => do
    let plaintext ← openContent p env cek
    .ok (plaintext, hdr.skid)

end Unpack

section Sender

variable {p : Primitives} {envelope : List UInt8} {env : Envelope} {hdr : ProtectedHeader}
  {senderPub : Key} {recipKeyFn : String → Except String Key}
  {senderPubFn : Option (String → Except String Key)} {d : Derivation} {cek : Key}

theorem unpack_eq_ok {plaintext : List UInt8} {s : String}
    (henv : p.unmarshalEnvelope envelope = .ok env) (hhdr : openHeader p env = .ok hdr)
    (h : unpack p envelope recipKeyFn senderPubFn = .ok (plaintext, s)) :
    s = hdr.skid ∧ ∃ senderPub, resolveSender hdr senderPubFn = .ok senderPub ∧
      ∃ d cek, unwrapCEK p hdr senderPub recipKeyFn env.recipients = some (d, cek) := by
  simp only [unpack, henv, hhdr, ofExcept, mapErr, ok_bind] at h
  cases hsender : resolveSender hdr senderPubFn with
  | error e =>
    rw [hsender] at h
    cases h
  | ok senderPub =>
    simp only [hsender, ok_bind] at h
    cases hcek : unwrapCEK p hdr senderPub recipKeyFn env.recipients with
    | none =>
      rw [hcek] at h
      cases h
    | some found =>
      simp only [hcek] at h
      obtain ⟨_, _, hout⟩ := bind_eq_ok.mp h
      cases hout
      exact ⟨rfl, senderPub, rfl, found.1, found.2, hcek⟩

theorem exists_agreement (h : unwrapCEK p hdr senderPub recipKeyFn env.recipients = some (d, cek)) :
    ∃ recipPriv ephPub kek, agreement hdr senderPub recipPriv ephPub = some d ∧
    d.kek p = .ok kek := by
  obtain ⟨r, _, hr⟩ := List.exists_of_findSome?_eq_some h
  simp only [unwrapRecipient, Option.bind_eq_bind, Option.bind_eq_some_iff] at hr
  obtain ⟨recipPriv, _, epk, _, ephPub, _, derivation, hagree, kek, hkek, _, _, _, _, hout⟩ := hr
  split at hout
  · cases hout
    refine ⟨recipPriv, ephPub, kek, hagree, ?_⟩
    cases hd : d.kek p with
    | ok key =>
      rw [hd] at hkek
      cases hkek
      rfl
    | error e =>
      rw [hd] at hkek
      cases hkek
  · cases hout

theorem resolveSender_eq_ok (h : resolveSender hdr senderPubFn = .ok senderPub) :
    (hdr.skid = "" ∧ senderPub = .zero) ∨
      (hdr.skid ≠ "" ∧ ∃ f, senderPubFn = some f ∧ f hdr.skid = .ok senderPub) := by
  unfold resolveSender at h
  by_cases hskid : hdr.skid ≠ ""
  · rw [if_pos hskid] at h
    refine Or.inr ⟨hskid, ?_⟩
    cases senderPubFn with
    | none => cases h
    | some f =>
      cases hf : f hdr.skid with
      | error e =>
        simp only [hf] at h
        cases h
      | ok pub =>
        simp only [hf] at h
        cases h
        exact ⟨f, rfl, hf⟩
  · rw [if_neg hskid] at h
    cases h
    exact Or.inl ⟨not_not.mp hskid, rfl⟩

theorem x25519_of_ecdh1PU {ephPub recipPriv kek : Key} {alg apu apv : String}
    (h : (Derivation.ecdh1PU ephPub recipPriv senderPub alg apu apv).kek p = .ok kek) :
    ∃ z, p.x25519 recipPriv senderPub = .ok z := by
  obtain ⟨_, _, h⟩ := bind_eq_ok.mp h
  obtain ⟨zs, hzs, _⟩ := bind_eq_ok.mp h
  exact ⟨zs, hzs⟩

/-- A named sender's key was found and went into the key of the message; authcrypt names one. -/
def Authenticated (p : Primitives) (env : Envelope) (hdr : ProtectedHeader)
    (recipKeyFn : String → Except String Key) (senderPubFn : Option (String → Except String Key))
    (s : String) : Prop :=
  (s ≠ "" → ∃ f pub, senderPubFn = some f ∧ f s = .ok pub ∧
    ∃ ephPub recipPriv alg apu apv cek, unwrapCEK p hdr pub recipKeyFn env.recipients =
      some (.ecdh1PU ephPub recipPriv pub alg apu apv, cek)) ∧
  (hdr.alg = algAuthcrypt → s ≠ "")

theorem not_authenticated (hanon : hdr.alg = algAnoncrypt) (hskid : hdr.skid ≠ "") :
    ¬Authenticated p env hdr recipKeyFn senderPubFn hdr.skid := by
  rintro ⟨hsent, _⟩
  obtain ⟨f, pub, _, _, ephPub, recipPriv, alg, apu, apv, cek, hone⟩ := hsent hskid
  obtain ⟨recipPriv', ephPub', kek, hagree, _⟩ := exists_agreement hone
  rw [agreement, if_pos hanon] at hagree
  cases hagree

theorem authenticated_of_ecdh1PU (hlow : ∀ priv, ∃ e, p.x25519 priv .zero = .error e)
    (hanon : hdr.alg ≠ algAnoncrypt) (hsender : resolveSender hdr senderPubFn = .ok senderPub)
    (hcek : unwrapCEK p hdr senderPub recipKeyFn env.recipients = some (d, cek)) :
    Authenticated p env hdr recipKeyFn senderPubFn hdr.skid := by
  obtain ⟨recipPriv, ephPub, kek, hagree, hkek⟩ := exists_agreement hcek
  rw [agreement, if_neg hanon] at hagree
  by_cases hauth : hdr.alg = algAuthcrypt
  · rw [if_pos hauth] at hagree
    cases hagree
    rcases resolveSender_eq_ok hsender with ⟨_, hzero⟩ | ⟨hskid, f, hf, hpub⟩
    · -- without a sender the agreement is with the zero point
      obtain ⟨z, hz⟩ := x25519_of_ecdh1PU hkek
      obtain ⟨e, he⟩ := hlow recipPriv
      rw [hzero, he] at hz
      cases hz
    · exact ⟨fun _ => ⟨f, senderPub, hf, hpub, ephPub, recipPriv, hdr.alg, hdr.apu,
        hdr.apv, cek, hcek⟩,
        fun _ => hskid⟩
  · rw [if_neg hauth] at hagree
    cases hagree

/-- An envelope that unpacks reports an authenticated sender, unless it names a sender
next to the algorithm for anonymous ones. -/
theorem authenticated_iff (hlow : ∀ priv, ∃ e, p.x25519 priv .zero = .error e)
    (henv : p.unmarshalEnvelope envelope = .ok env) (hhdr : openHeader p env = .ok hdr)
    {plaintext : List UInt8} {s : String}
    (h : unpack p envelope recipKeyFn senderPubFn = .ok (plaintext, s)) :
    Authenticated p env hdr recipKeyFn senderPubFn s ↔
    ¬(hdr.alg = algAnoncrypt ∧ hdr.skid ≠ "") := by
  obtain ⟨rfl, senderPub, hsender, d, cek, hcek⟩ := unpack_eq_ok henv hhdr h
  constructor
  · rintro hauth ⟨hanon, hskid⟩
    exact not_authenticated hanon hskid hauth
  · intro hno
    by_cases hanon : hdr.alg = algAnoncrypt
    · have hskid : hdr.skid = "" := not_not.mp fun h => hno ⟨hanon, h⟩
      refine ⟨fun hne => absurd hskid hne, fun hauth => ?_⟩
      rw [hanon] at hauth
      exact absurd hauth (by decide)
    · exact authenticated_of_ecdh1PU hlow hanon hsender hcek

end Sender

section Mallory

def Key.ofByte (b : UInt8) : Key :=
  ⟨List.replicate 32 b, List.length_replicate⟩

def malloryHeader (alg : String) : ProtectedHeader :=
  { typ := "application/didcomm-encrypted+json", alg := alg, enc := "XC20P", skid := "alice",
    apu := "", apv := "" }

def malloryHeaderText (alg : String) : String :=
  jsonObject [("typ", "application/didcomm-encrypted+json"), ("alg", alg), ("enc", "XC20P"),
    ("skid", "alice")]

/-- An ephemeral key that anyone can make. -/
def malloryKey : JwkOKP :=
  { kty := "OKP", crv := "X25519", x := Base64.encodeToString (Key.ofByte 2).bytes }

/-- The content key, wrapped by a cipher that is the identity. -/
def malloryEncryptedKey : String :=
  Base64.encodeToString
    ([0xA6, 0xA6, 0xA6, 0xA6, 0xA6, 0xA6, 0xA6, 0xBE] ++ (Key.ofByte 9).bytes)

def malloryEnvelope (alg : String) : Envelope where
  protectedHeader := Base64.encodeToString (bytesOf (malloryHeaderText alg))
  recipients :=
    [{ header := { kid := "bob", epk := some malloryKey }, encryptedKey := malloryEncryptedKey }]
  iv := Base64.encodeToString (List.replicate 24 0)
  ciphertext := Base64.encodeToString [1]
  tag := ""

def malloryEnvelopeText (alg : String) : String :=
  let env := malloryEnvelope alg
  let epk := jsonObject [("kty", malloryKey.kty), ("crv", malloryKey.crv), ("x", malloryKey.x)]
  "\x7b\"protected\":" ++ jsonQuote env.protectedHeader ++
    ",\"recipients\":[\x7b\"header\":\x7b\"kid\":\"bob\",\"epk\":" ++ epk ++
    "\x7d,\"encrypted_key\":" ++ jsonQuote malloryEncryptedKey ++ "\x7d],\"iv\":" ++
    jsonQuote env.iv ++ ",\"ciphertext\":" ++ jsonQuote env.ciphertext ++ ",\"tag\":\"\"\x7d"

/-- Primitives that hide nothing: the sum of two keys, a cipher that is the identity. -/
def plainPrimitives (alg : String) : Primitives where
  unmarshalEnvelope bytes :=
    if bytes = bytesOf (malloryEnvelopeText alg) then .ok (malloryEnvelope alg)
    else .error "unexpected end of JSON input"
  unmarshalHeader bytes :=
    if bytes = bytesOf (malloryHeaderText alg) then .ok (malloryHeader alg)
    else .error "unexpected end of JSON input"
  x25519 priv pub :=
    if pub = .zero then .error "crypto/ecdh: bad X25519 remote ECDH input: low order point"
    else .ok (List.zipWith (· ^^^ ·) priv.bytes pub.bytes)
  sha256 _ := .ofByte 7
  aesDecrypt _ block := block
  xchacha20Open _ _ ciphertext _ := .ok ciphertext

def bobKey (kid : String) : Except String Key :=
  if kid = "bob" then .ok (.ofByte 1) else .error "unknown key"

def alicePub (skid : String) : Except String Key :=
  if skid = "alice" then .ok (.ofByte 3) else .error "unknown key"

theorem plainPrimitives_unmarshalEnvelope (alg : String) :
    (plainPrimitives alg).unmarshalEnvelope (bytesOf (malloryEnvelopeText alg)) =
      .ok (malloryEnvelope alg) := by
  dsimp only [plainPrimitives]
  rw [if_pos rfl]

theorem plainPrimitives_openHeader (alg : String) :
    openHeader (plainPrimitives alg) (malloryEnvelope alg) = .ok (malloryHeader alg) := by
  have hhdr : (plainPrimitives alg).unmarshalHeader (bytesOf (malloryHeaderText alg)) =
      .ok (malloryHeader alg) := by
    dsimp only [plainPrimitives]
    rw [if_pos rfl]
  simp only [openHeader, malloryEnvelope, Base64.decodeString_encodeToString, hhdr]

theorem ephemeralKey_of_eq {epk : JwkOKP} {k : Key} (h : epk.x = Base64.encodeToString k.bytes) :
    ephemeralKey epk = some k := by
  rw [ephemeralKey, h, Base64.decodeString_encodeToString]
  exact dif_pos k.length_eq

theorem unpack_malloryEnvelope {alg : String} (h : alg = algAnoncrypt ∨ alg = algAuthcrypt) :
    unpack (plainPrimitives alg) (bytesOf (malloryEnvelopeText alg)) bobKey (some alicePub) =
      .ok ([1], "alice") := by
  have hsender : resolveSender (malloryHeader alg) (some alicePub) = .ok (.ofByte 3) := rfl
  have hkey : ephemeralKey malloryKey = some (.ofByte 2) := ephemeralKey_of_eq rfl
  have hwrapped := Base64.decodeString_encodeToString
    ([0xA6, 0xA6, 0xA6, 0xA6, 0xA6, 0xA6, 0xA6, 0xBE] ++ (Key.ofByte 9).bytes)
  rw [← malloryEncryptedKey] at hwrapped
  have hcek : ∃ d, unwrapCEK (plainPrimitives alg) (malloryHeader alg) (.ofByte 3) bobKey
      (malloryEnvelope alg).recipients = some (d, .ofByte 9) := by
    simp only [unwrapCEK, malloryEnvelope, List.findSome?_cons, unwrapRecipient, hkey, hwrapped,
      Option.bind_eq_bind, Option.bind_some]
    rcases h with rfl | rfl
    · exact ⟨.ecdhES (.ofByte 1) (.ofByte 2) algAnoncrypt "", by decide⟩
    · exact ⟨.ecdh1PU (.ofByte 2) (.ofByte 1) (.ofByte 3) algAuthcrypt "" "", by decide⟩
  have htag : Base64.decodeString "" = .ok [] := rfl
  have hcontent : openContent (plainPrimitives alg) (malloryEnvelope alg) (.ofByte 9) =
    .ok [1] := by
    simp only [openContent, decodePart, malloryEnvelope, Base64.decodeString_encodeToString, htag,
      ofExcept, ok_bind]
    rfl
  obtain ⟨d, hcek⟩ := hcek
  simp only [unpack, plainPrimitives_unmarshalEnvelope, plainPrimitives_openHeader, hsender, hcek,
    hcontent, ofExcept, mapErr, ok_bind]
  rfl

/-- Anybody can write an envelope for Bob that names Alice as its sender. -/
theorem anoncrypt_names_sender :
    unpack (plainPrimitives algAnoncrypt) (bytesOf (malloryEnvelopeText algAnoncrypt)) bobKey
        (some alicePub) = .ok ([1], "alice") ∧
      ¬Authenticated (plainPrimitives algAnoncrypt) (malloryEnvelope algAnoncrypt)
        (malloryHeader algAnoncrypt) bobKey (some alicePub) "alice" := by
  have hanon : (malloryHeader algAnoncrypt).alg = algAnoncrypt := rfl
  have hskid : (malloryHeader algAnoncrypt).skid ≠ "" := by decide
  exact ⟨unpack_malloryEnvelope (.inl rfl), not_authenticated hanon hskid⟩

theorem authenticated_alice :
    Authenticated (plainPrimitives algAuthcrypt) (malloryEnvelope algAuthcrypt)
      (malloryHeader algAuthcrypt) bobKey (some alicePub) "alice" := by
  have hlow : ∀ priv, ∃ e, (plainPrimitives algAuthcrypt).x25519 priv .zero = .error e :=
    fun _ => ⟨_, rfl⟩
  have hopen := unpack_malloryEnvelope (.inr (Eq.refl algAuthcrypt))
  exact (authenticated_iff hlow (plainPrimitives_unmarshalEnvelope _) (plainPrimitives_openHeader _)
    hopen).mpr (by decide)

end Mallory

end Oikos.Identity.DidComm
