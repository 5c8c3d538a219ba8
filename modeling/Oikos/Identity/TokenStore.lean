/-
The tables behind the token endpoint and the statements that its handlers run on them.
-/
import Oikos.Lib.GoText
import Oikos.Lib.Threads

namespace Oikos.Identity

/-- What a session or a refresh token is for. -/
structure TokenGrant where
  subjectDID : String
  clientID : String
  scope : String

structure OIDCClient where
  clientID : String
  clientSecretHash : String
  tokenEndpointAuthMethod : String
  redirectURIs : List String

/-- A session; times are in nanoseconds. -/
structure OIDCSession where
  id : String
  subjectDID : String
  clientID : String
  redirectURI : String
  scope : String
  nonce : String
  state : String
  code : String
  codeChallenge : String
  codeChallengeMethod : String
  expiresAt : Nat

def OIDCSession.grant (sess : OIDCSession) : TokenGrant :=
  ⟨sess.subjectDID, sess.clientID, sess.scope⟩

structure RefreshToken where
  hash : String
  subjectDID : String
  clientID : String
  scope : String
  issuedAt : Nat
  expiresAt : Nat
  usedAt : Option Nat

def RefreshToken.grant (token : RefreshToken) : TokenGrant :=
  ⟨token.subjectDID, token.clientID, token.scope⟩

/-- What goes into a row that is saved: `randomHex(32)`, `randomHex(16)` and `time.Now()`. -/
structure Draw where
  hex : String
  id : String
  now : Nat

/-- The tables, the clock, what was drawn, and the sessions that were ever saved. -/
structure TokenStore where
  clients : List OIDCClient
  sessions : List OIDCSession
  refreshTokens : List RefreshToken
  now : Nat
  drawn : List Draw
  authorized : List OIDCSession

def hashToken (sha256 : List UInt8 → List UInt8) (raw : String) : String :=
  hexEncode (sha256 (bytesOf raw))

/-- A statement; one that saves a row has the row for each draw. -/
inductive TokenCall where
  | getClient (clientID : String)
  | saveClient (client : OIDCClient)
  | saveSession (sess : Draw → OIDCSession)
  | getSessionByCode (code : String)
  | deleteSession (id : String)
  | saveRefreshToken (token : Draw → RefreshToken)
  | getRefreshToken (hash : String)
  | deleteRefreshToken (hash : String)
  | wait (duration : Nat)

namespace TokenCall

/-- A row comes with the time after it was read, a save with its draw. -/
abbrev Reply : TokenCall → Type
  | getClient _ => Option OIDCClient
  | getSessionByCode _ => Option OIDCSession × Nat
  | getRefreshToken _ => Option RefreshToken × Nat
  | saveSession _ | saveRefreshToken _ => Option Draw
  | _ => Bool

def draws : TokenCall → Bool
  | saveSession _ | saveRefreshToken _ => true
  | _ => false

end TokenCall

/-- `INSERT` with `ON CONFLICT DO UPDATE`. -/
def upsert {Row : Type} (same : Row → Bool) (update : Row → Row) (row : Row) (rows : List Row) :
    List Row :=
  if rows.any same then rows.map fun r => if same r then update r else r else rows ++ [row]

namespace TokenStore

def empty : TokenStore :=
  ⟨[], [], [], 0, [], []⟩

def saveSession (s : TokenStore) (draw : Draw) (row : OIDCSession) : TokenStore :=
  { s with
    drawn := s.drawn ++ [draw]
    sessions := upsert (·.id == row.id) (fun r => { r with
      state := row.state, code := row.code, codeChallenge := row.codeChallenge,
      codeChallengeMethod := row.codeChallengeMethod, expiresAt := row.expiresAt }) row s.sessions
    authorized := s.authorized ++ [row] }

def saveRefreshToken (s : TokenStore) (draw : Draw) (row : RefreshToken) : TokenStore :=
  { s with
    drawn := s.drawn ++ [draw]
    refreshTokens := upsert (·.hash == row.hash) (fun r => { r with usedAt := row.usedAt }) row
      s.refreshTokens }

/-- The reply of a statement and the tables after it. -/
def run (draw : Draw) : (c : TokenCall) → TokenStore → c.Reply × TokenStore
  | .getClient clientID, s => (s.clients.find? (·.clientID == clientID), s)
  | .saveClient client, s =>
    (true, { s with
      clients := upsert (·.clientID == client.clientID) (fun _ => client) client s.clients })
  | .saveSession sess, s => (some draw, s.saveSession draw (sess draw))
  | .getSessionByCode code, s => ((s.sessions.find? (·.code == code), s.now), s)
  | .deleteSession id, s => (true, { s with sessions := s.sessions.filter (·.id != id) })
  | .saveRefreshToken token, s => (some draw, s.saveRefreshToken draw (token draw))
  | .getRefreshToken hash, s => ((s.refreshTokens.find? (·.hash == hash), s.now), s)
  | .deleteRefreshToken hash, s =>
    (true, { s with refreshTokens := s.refreshTokens.filter (·.hash != hash) })
  | .wait duration, s => (true, { s with now := s.now + duration })

/-- The reply of a statement that fails. -/
def failed : (c : TokenCall) → c.Reply
  | .getClient _ | .saveSession _ | .saveRefreshToken _ => none
  | .getSessionByCode _ | .getRefreshToken _ => (none, 0)
  | .saveClient _ | .deleteSession _ | .deleteRefreshToken _ | .wait _ => false

section Runs

variable (sha256 : List UInt8 → List UInt8)

/-- Drawn now, and not what was drawn before: the random source repeats nothing, and
SHA-256 has no collision among what it draws. -/
def Fresh (s : TokenStore) (draw : Draw) : Prop :=
  draw.now = s.now ∧
    ∀ d ∈ s.drawn, hashToken sha256 draw.hex ≠ hashToken sha256 d.hex ∧ draw.id ≠ d.id

instance decidableFresh (s : TokenStore) (draw : Draw) : Decidable (s.Fresh sha256 draw) :=
  inferInstanceAs (Decidable (_ ∧ _))

/-- A statement runs, or fails where statements may fail. -/
inductive Exec (mayFail : Prop) : (c : TokenCall) → TokenStore → c.Reply → TokenStore → Prop
  | runs (c : TokenCall) (s : TokenStore) (draw : Draw)
      (hdraw : c.draws = true → s.Fresh sha256 draw) :
      Exec mayFail c s (run draw c s).1 (run draw c s).2
  | fails (c : TokenCall) (s : TokenStore) (h : mayFail) : Exec mayFail c s (failed c) s

end Runs

end TokenStore

end Oikos.Identity
