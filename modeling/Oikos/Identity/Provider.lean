/-
The handlers of the token endpoint, each making its statements one at a time while
other requests make theirs.
-/
import Oikos.Identity.TokenStore
import Oikos.Lib.Base64

namespace Oikos.Identity.Provider

open Relation

def second : Nat := 1000000000

def codeTTL : Nat := 5 * 60 * second

def refreshTokenTTL : Nat := 30 * 24 * 3600 * second

/-- `Authorization: Basic`, if there is one, and the form value `client_secret`. -/
structure ClientAuth where
  basic : Option (String × String)
  clientSecret : String

structure AuthorizeForm where
  clientID : String
  redirectURI : String
  scope : String
  nonce : String
  state : String
  codeChallenge : String
  codeChallengeMethod : String
  subjectDID : String

structure TokenForm where
  clientID : String
  auth : ClientAuth
  code : String
  codeVerifier : String
  refreshToken : String

inductive Answer where
  | redirect (uri : String)
  | code (code : String)
  | tokens (grant : TokenGrant) (refreshToken : String)
  | error (code description : String)
  | badRequest
  | internalError
  | finished

abbrev Handler := Prog TokenCall TokenCall.Reply Answer

def reject (code description : String) : Handler :=
  .done (.error code description)

section Handlers

variable (sha256 : List UInt8 → List UInt8)

def verifyPKCE (challenge verifier : String) : Bool :=
  Base64.encodeToString (sha256 (bytesOf verifier)) == challenge

/-- Go on with the error, if there is one. -/
def validateClientAuth (auth : ClientAuth) (clientID : String) (next : Option String → Handler) :
    Handler :=
  .call (.getClient clientID) fun (client : Option OIDCClient) =>
    match client with
    | none => next (some "unknown client")
    | some client =>
      if client.tokenEndpointAuthMethod = "none" then next none
      else
        let providedSecret :=
          match auth.basic with
          | some (user, pass) => if user = clientID then pass else auth.clientSecret
          | none => auth.clientSecret
        if providedSecret = "" then next (some "client authentication required")
        else if hashToken sha256 providedSecret ≠ client.clientSecretHash then
          next (some "invalid client credentials")
        else next none

def authorizeHandler (q : AuthorizeForm) : Handler :=
  if q.clientID = "" ∨ q.redirectURI = "" ∨ q.subjectDID = "" then .done .badRequest
  else if q.state = "" then reject "invalid_request" "state parameter is required"
  else if q.codeChallenge = "" then
    reject "invalid_request" "code_challenge is required (PKCE, RFC 7636)"
  else if q.codeChallengeMethod ≠ "S256" then
    reject "invalid_request" "code_challenge_method must be S256"
  else .call (.getClient q.clientID) fun (client : Option OIDCClient) =>
    match client with
    | none => reject "unauthorized_client" "unknown client_id"
    | some client =>
      if ¬ client.redirectURIs.contains q.redirectURI then
        reject "invalid_request" "redirect_uri not registered for this client"
      else .call (.saveSession fun draw =>
          ⟨"sess_" ++ draw.id, q.subjectDID, q.clientID, q.redirectURI, q.scope, q.nonce, q.state,
            draw.hex, q.codeChallenge, q.codeChallengeMethod, draw.now + codeTTL⟩)
        fun (saved : Option Draw) =>
          match saved with
          | none => .done .internalError
          | some draw =>
            .done (.redirect (q.redirectURI ++ "?code=" ++ draw.hex ++ "&state=" ++ q.state))

/-- Called by the bridge, with the parameters of the client as they are. -/
def issueSessionForDID (q : AuthorizeForm) : Handler :=
  .call (.saveSession fun draw =>
      ⟨"sess_" ++ draw.id, q.subjectDID, q.clientID, q.redirectURI, q.scope, q.nonce, "",
        draw.hex, q.codeChallenge, q.codeChallengeMethod, draw.now + codeTTL⟩)
    fun (saved : Option Draw) =>
      match saved with
      | none => .done .internalError
      | some draw => .done (.code draw.hex)

/-- Save a new refresh token, and answer with it after the rest. -/
def issueTokens (grant : TokenGrant) (rest : Handler → Handler) : Handler :=
  .call (.saveRefreshToken fun draw =>
      ⟨hashToken sha256 draw.hex, grant.subjectDID, grant.clientID, grant.scope, draw.now,
        draw.now + refreshTokenTTL, none⟩)
    fun (saved : Option Draw) =>
      match saved with
      | none => .done .internalError
      | some draw => rest (.done (.tokens grant draw.hex))

def handleAuthCodeExchange (q : TokenForm) : Handler :=
  if q.code = "" then reject "invalid_request" "missing code"
  else .call (.getSessionByCode q.code) fun (row : Option OIDCSession × Nat) =>
    match row with
    | (none, _) => reject "invalid_grant" "code not found or expired"
    | (some sess, now) =>
      if sess.expiresAt < now then reject "invalid_grant" "code not found or expired"
      else if q.clientID ≠ "" ∧ q.clientID ≠ sess.clientID then
        reject "invalid_grant" "client_id mismatch"
      else if q.codeVerifier = "" then
        reject "invalid_grant" "code_verifier is required (PKCE)"
      else if sess.codeChallenge = "" then
        reject "invalid_grant" "no PKCE challenge found for this code"
      else if ¬ verifyPKCE sha256 sess.codeChallenge q.codeVerifier then
        reject "invalid_grant" "code_verifier mismatch"
      else validateClientAuth sha256 q.auth sess.clientID fun err =>
        match err with
        | some e => reject "invalid_client" e
        | none => issueTokens sha256 sess.grant fun answer =>
          .call (.deleteSession sess.id) fun _ => answer

def handleRefreshTokenGrant (q : TokenForm) : Handler :=
  if q.refreshToken = "" then reject "invalid_request" "missing refresh_token"
  else .call (.getRefreshToken (hashToken sha256 q.refreshToken))
    fun (row : Option RefreshToken × Nat) =>
      match row with
      | (none, _) => reject "invalid_grant" "refresh token not found"
      | (some rt, now) =>
        if rt.expiresAt < now then
          .call (.deleteRefreshToken (hashToken sha256 q.refreshToken)) fun _ =>
            reject "invalid_grant" "refresh token expired"
        else if rt.usedAt.isSome then
          .call (.deleteRefreshToken (hashToken sha256 q.refreshToken)) fun _ =>
            reject "invalid_grant" "refresh token already used"
        else validateClientAuth sha256 q.auth rt.clientID fun err =>
          match err with
          | some e => reject "invalid_client" e
          | none =>
            .call (.saveRefreshToken fun draw => { rt with usedAt := some draw.now }) fun _ =>
              issueTokens sha256 rt.grant id

/-- A request, or what the rest of the server does to the tables: it registers clients,
and drops sessions and refresh tokens. -/
inductive Request where
  | authorize (q : AuthorizeForm)
  | issueSession (q : AuthorizeForm)
  | exchange (q : TokenForm)
  | refresh (q : TokenForm)
  | saveClient (client : OIDCClient)
  | deleteSession (id : String)
  | deleteRefreshToken (hash : String)
  | wait (duration : Nat)

def handler : Request → Handler
  | .authorize q => authorizeHandler q
  | .issueSession q => issueSessionForDID q
  | .exchange q => handleAuthCodeExchange sha256 q
  | .refresh q => handleRefreshTokenGrant sha256 q
  | .saveClient client => .call (.saveClient client) fun _ => .done .finished
  | .deleteSession id => .call (.deleteSession id) fun _ => .done .finished
  | .deleteRefreshToken hash => .call (.deleteRefreshToken hash) fun _ => .done .finished
  | .wait duration => .call (.wait duration) fun _ => .done .finished

end Handlers

end Oikos.Identity.Provider
