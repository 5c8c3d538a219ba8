/-
What holds of the tokens that are issued, in whatever order the handlers of concurrent
requests make their statements.
-/
import Oikos.Identity.Provider

namespace Oikos.Identity.Provider

open List

open Relation TokenStore

/-! ### What the tables show -/

/-- A session was authorized for this subject, client and scope. -/
def Vouched (s : TokenStore) (grant : TokenGrant) : Prop :=
  ∃ sess ∈ s.authorized, sess.grant = grant

/-- What a request for tokens shows. -/
inductive Credential where
  | code (code : String)
  | refreshToken (raw : String)

def Request.credential : Request → Option Credential
  | .exchange q => some (.code q.code)
  | .refresh q => some (.refreshToken q.refreshToken)
  | _ => none

section Tables

variable (sha256 : List UInt8 → List UInt8)

/-- The credential was drawn, and no row is left in which it is good. -/
def Spent (s : TokenStore) : Credential → Prop
  | .code code => (∃ d ∈ s.drawn, code = d.hex) ∧ ∀ row ∈ s.sessions, row.code ≠ code
  | .refreshToken raw => (∃ d ∈ s.drawn, hashToken sha256 raw = hashToken sha256 d.hex) ∧
      ∀ row ∈ s.refreshTokens, row.hash = hashToken sha256 raw → row.usedAt.isSome

/-- The rows come from draws that differ, and what they allow was authorized. -/
structure Inv (s : TokenStore) : Prop where
  sessions : ∀ row ∈ s.sessions, row ∈ s.authorized ∧
    ∃ d ∈ s.drawn, row.code = d.hex ∧ row.id = "sess_" ++ d.id
  refreshTokens : ∀ row ∈ s.refreshTokens, Vouched s row.grant ∧
    ∃ d ∈ s.drawn, row.hash = hashToken sha256 d.hex
  drawn : ∀ d ∈ s.drawn, ∀ e ∈ s.drawn, hashToken sha256 d.hex = hashToken sha256 e.hex → d = e

/-- What the handlers save: rows with what was drawn for them, refresh tokens for what was
authorized, and tokens that are marked as used. -/
def Allowed : TokenCall → TokenStore → Prop
  | .saveSession sess, _ => ∀ d, (sess d).code = d.hex ∧ (sess d).id = "sess_" ++ d.id
  | .saveRefreshToken token, s => ∀ d,
    Vouched s (token d).grant ∧
      ((token d).hash = hashToken sha256 d.hex ∨
        (∃ e ∈ s.drawn, (token d).hash = hashToken sha256 e.hex) ∧ (token d).usedAt.isSome)
  | _, _ => True

end Tables

variable {sha256 : List UInt8 → List UInt8} {mayFail : Prop} {s s' : TokenStore}

theorem mem_upsert {Row : Type} {same : Row → Bool} {update : Row → Row} {row r : Row}
    {rows : List Row} (h : r ∈ upsert same update row rows) :
    r ∈ rows ∨ (∃ old ∈ rows, same old = true ∧ r = update old) ∨ r = row := by
  unfold upsert at h
  split at h
  · obtain ⟨old, hold, rfl⟩ := mem_map.mp h
    split
    · next hsame => exact .inr (.inl ⟨old, hold, hsame, rfl⟩)
    · exact .inl hold
  · rcases mem_append.mp h with h | h
    · exact .inl h
    · exact .inr (.inr (mem_singleton.mp h))

/-! ### What a statement changes -/

/-- The history and the draws only grow. -/
structure Grows (s s' : TokenStore) : Prop where
  authorized : ∀ sess ∈ s.authorized, sess ∈ s'.authorized
  drawn : ∀ d ∈ s.drawn, d ∈ s'.drawn

variable {grant : TokenGrant} {c : Credential} {raw : String}

theorem Grows.vouched (h : Grows s s') (hv : Vouched s grant) : Vouched s' grant := by
  obtain ⟨sess, hsess, heq⟩ := hv
  exact ⟨sess, h.authorized sess hsess, heq⟩

theorem Grows.exists_drawn (h : Grows s s') {P : Draw → Prop} (hd : ∃ d ∈ s.drawn, P d) :
    ∃ d ∈ s'.drawn, P d := by
  obtain ⟨d, hd, hP⟩ := hd
  exact ⟨d, h.drawn d hd, hP⟩

abbrev Changes (sha256 : List UInt8 → List UInt8) (mayFail : Prop) :
    TokenStore → TokenStore → Prop :=
  Moves (Exec sha256 mayFail) (Allowed sha256)

theorem grows (h : Changes sha256 mayFail s s') : Grows s s' := by
  obtain ⟨c, r, -, hexec⟩ := h
  cases hexec with
  | fails => exact ⟨fun _ h => h, fun _ h => h⟩
  | runs =>
    cases c with
    | saveSession =>
      exact ⟨fun _ h => mem_append_left _ h, fun _ h => mem_append_left _ h⟩
    | saveRefreshToken => exact ⟨fun _ h => h, fun _ h => mem_append_left _ h⟩
    | _ => exact ⟨fun _ h => h, fun _ h => h⟩

theorem grows_star (h : ReflTransGen (Changes sha256 mayFail) s s') : Grows s s' := by
  induction h with
  | refl => exact ⟨fun _ h => h, fun _ h => h⟩
  | tail _ hstep ih =>
    have h := grows hstep
    exact ⟨fun _ hmem => h.authorized _ (ih.authorized _ hmem),
      fun _ hmem => h.drawn _ (ih.drawn _ hmem)⟩

theorem drawn_changes (h : Changes sha256 mayFail s s') :
    s'.drawn = s.drawn ∨ ∃ d, s.Fresh sha256 d ∧ s'.drawn = s.drawn ++ [d] := by
  obtain ⟨c, r, -, hexec⟩ := h
  cases hexec with
  | fails => exact .inl rfl
  | runs d hd =>
    cases c with
    | saveSession | saveRefreshToken => exact .inr ⟨d, hd rfl, rfl⟩
    | _ => exact .inl rfl

theorem sessions_changes (hs : Inv sha256 s) (h : Changes sha256 mayFail s s')
    {row : OIDCSession} (hrow : row ∈ s'.sessions) :
    row ∈ s.sessions ∨ row ∈ s'.authorized ∧ ∃ d ∈ s'.drawn, s.Fresh sha256 d ∧
      row.code = d.hex ∧ row.id = "sess_" ++ d.id := by
  obtain ⟨c, r, hallowed, hexec⟩ := h
  cases hexec with
  | fails => exact .inl hrow
  | runs d hd =>
    cases c with
    | saveSession sess =>
      have hfresh := hd rfl
      obtain ⟨hcode, hid⟩ := hallowed d
      rcases mem_upsert hrow with hrow | ⟨old, hold, hsame, -⟩ | rfl
      · exact .inl hrow
      · -- the identifier is new
        obtain ⟨-, e, he, -, hold⟩ := hs.sessions old hold
        have hsame := (eq_of_beq hsame).symm.trans hold
        rw [hid] at hsame
        exact absurd (String.append_right_inj _ |>.mp hsame) (hfresh.2 e he).2
      · exact .inr ⟨mem_append_right _ (mem_singleton.mpr rfl), d,
          mem_append_right _ (mem_singleton.mpr rfl), hfresh, hcode, hid⟩
    | deleteSession => exact .inl (mem_of_mem_filter hrow)
    | _ => exact .inl hrow

theorem refreshTokens_changes (hs : Inv sha256 s) (h : Changes sha256 mayFail s s')
    {row : RefreshToken} (hrow : row ∈ s'.refreshTokens) :
    row ∈ s.refreshTokens ∨ Vouched s row.grant ∧
      ((∃ d ∈ s'.drawn, s.Fresh sha256 d ∧ row.hash = hashToken sha256 d.hex) ∨
        (∃ d ∈ s.drawn, row.hash = hashToken sha256 d.hex) ∧ row.usedAt.isSome) := by
  obtain ⟨c, r, hallowed, hexec⟩ := h
  cases hexec with
  | fails => exact .inl hrow
  | runs d hd =>
    cases c with
    | saveRefreshToken token =>
      have hfresh := hd rfl
      obtain ⟨hvouched, hhash⟩ := hallowed d
      rcases mem_upsert hrow with hrow | ⟨old, hold, hsame, rfl⟩ | rfl
      · exact .inl hrow
      · obtain ⟨hvouched', e, he, hold⟩ := hs.refreshTokens old hold
        rcases hhash with hhash | ⟨-, hused⟩
        · -- the hash is new
          have hsame := (hold.symm.trans (eq_of_beq hsame)).trans hhash
          exact absurd hsame.symm (hfresh.2 e he).1
        · exact .inr ⟨hvouched', .inr ⟨⟨e, he, hold⟩, hused⟩⟩
      · exact .inr ⟨hvouched, hhash.imp
          (fun h => ⟨d, mem_append_right _ (mem_singleton.mpr rfl), hfresh, h⟩) id⟩
    | deleteRefreshToken => exact .inl (mem_of_mem_filter hrow)
    | _ => exact .inl hrow

theorem Inv.changes (hs : Inv sha256 s) (h : Changes sha256 mayFail s s') : Inv sha256 s' := by
  have hgrows := grows h
  refine ⟨fun row hrow => ?_, fun row hrow => ?_, fun d hd e he heq => ?_⟩
  · rcases sessions_changes hs h hrow with hold | ⟨hauth, d, hd, -, hrow⟩
    · obtain ⟨hauth, hdrawn⟩ := hs.sessions row hold
      exact ⟨hgrows.authorized row hauth, hgrows.exists_drawn hdrawn⟩
    · exact ⟨hauth, d, hd, hrow⟩
  · rcases refreshTokens_changes hs h hrow with hold | ⟨hvouched, hhash⟩
    · obtain ⟨hvouched, hdrawn⟩ := hs.refreshTokens row hold
      exact ⟨hgrows.vouched hvouched, hgrows.exists_drawn hdrawn⟩
    · refine ⟨hgrows.vouched hvouched, ?_⟩
      rcases hhash with ⟨d, hd, -, hhash⟩ | ⟨hdrawn, -⟩
      · exact ⟨d, hd, hhash⟩
      · exact hgrows.exists_drawn hdrawn
  · rcases drawn_changes h with hsame | ⟨new, ⟨-, hfresh⟩, hsame⟩
    · rw [hsame] at hd he
      exact hs.drawn d hd e he heq
    · rw [hsame, mem_append, mem_singleton] at hd he
      rcases hd with hd | rfl <;> rcases he with he | rfl
      · exact hs.drawn d hd e he heq
      · exact absurd heq.symm (hfresh d hd).1
      · exact absurd heq (hfresh e he).1
      · rfl

/-- What is spent stays spent. -/
theorem Spent.changes (hs : Inv sha256 s) (h : Changes sha256 mayFail s s')
    (hc : Spent sha256 s c) : Spent sha256 s' c := by
  have hgrows := grows h
  cases c with
  | code code =>
    obtain ⟨⟨d, hd, rfl⟩, hnone⟩ := hc
    refine ⟨hgrows.exists_drawn ⟨d, hd, rfl⟩, fun row hrow heq => ?_⟩
    rcases sessions_changes hs h hrow with hold | ⟨-, e, -, hfresh, hcode, -⟩
    · exact hnone row hold heq
    · exact (hfresh.2 d hd).1 (congrArg _ (hcode.symm.trans heq))
  | refreshToken raw =>
    obtain ⟨⟨d, hd, hraw⟩, hused⟩ := hc
    refine ⟨hgrows.exists_drawn ⟨d, hd, hraw⟩, fun row hrow heq => ?_⟩
    rcases refreshTokens_changes hs h hrow with hold | ⟨-, ⟨e, -, hfresh, hhash⟩ | ⟨-, hmarked⟩⟩
    · exact hused row hold heq
    · exact absurd ((hhash.symm.trans heq).trans hraw) (hfresh.2 d hd).1
    · exact hmarked

theorem Inv.star (hs : Inv sha256 s) (h : ReflTransGen (Changes sha256 mayFail) s s') :
    Inv sha256 s' := by
  induction h with
  | refl => exact hs
  | tail _ hstep ih => exact ih.changes hstep

theorem Spent.star (hs : Inv sha256 s) (hc : Spent sha256 s c)
    (h : ReflTransGen (Changes sha256 mayFail) s s') : Spent sha256 s' c := by
  induction h with
  | refl => exact hc
  | tail hsteps hstep ih => exact ih.changes (hs.star hsteps) hstep

/-- The rows of a token that is saved as used are used. -/
theorem marked_used {token : RefreshToken} {rows : List RefreshToken} {row : RefreshToken}
    (h : row ∈ upsert (fun r : RefreshToken => r.hash == token.hash)
      (fun r => { r with usedAt := token.usedAt }) token rows)
    (hhash : row.hash = token.hash) (hused : token.usedAt.isSome) : row.usedAt.isSome := by
  unfold upsert at h
  split at h
  · obtain ⟨old, hold, rfl⟩ := mem_map.mp h
    split at hhash
    · next heq => rwa [if_pos heq]
    · next hne => exact absurd (beq_iff_eq.mpr hhash) hne
  · next hnone =>
    rcases mem_append.mp h with h | h
    · have hsome : rows.any (fun r => r.hash == token.hash) = true :=
        any_eq_true.mpr ⟨row, h, beq_iff_eq.mpr hhash⟩
      exact absurd hsome hnone
    · rwa [mem_singleton.mp h]

/-! ### What a handler ensures -/

/-- What was authorized for tokens that answer a request. -/
def Granted (sha256 : List UInt8 → List UInt8) (s : TokenStore) (grant : TokenGrant) :
    Request → Prop
  | .exchange q => ∃ sess ∈ s.authorized, sess.code = q.code ∧ q.codeVerifier ≠ "" ∧
      verifyPKCE sha256 sess.codeChallenge q.codeVerifier = true ∧ sess.grant = grant
  | .refresh q => Vouched s grant ∧
      ∃ d ∈ s.drawn, hashToken sha256 q.refreshToken = hashToken sha256 d.hex
  | _ => False

/-- Tokens are for what was authorized, the credential was good when the request began,
and it is spent unless statements may fail. -/
def Post (sha256 : List UInt8 → List UInt8) (mayFail : Prop)
    (s₀ : TokenStore) (q : Request) (a : Answer) (s : TokenStore) : Prop :=
  ∀ grant raw, a = .tokens grant raw → Granted sha256 s grant q ∧ ∀ c, q.credential = some c →
      ¬ Spent sha256 s₀ c ∧ (¬ mayFail → Spent sha256 s c)

variable {s₀ : TokenStore} {q : Request} {p : Handler} {post : Answer → TokenStore → Prop}

/-- The handler ensures its condition, and makes allowed calls only. -/
abbrev Keeps (sha256 : List UInt8 → List UInt8) (mayFail : Prop)
    (post : Answer → TokenStore → Prop) (p : Handler) (s : TokenStore) : Prop :=
  p.Ensures (Exec sha256 mayFail) (Allowed sha256) post s

theorem keeps_refusal {a : Answer} (ha : ∀ grant raw, a ≠ .tokens grant raw) :
    Keeps sha256 mayFail (Post sha256 mayFail s₀ q) (.done a) s :=
  fun _ _ _ _ heq => absurd heq (ha _ _)

/-- A request that is refused where a condition fails. -/
theorem keeps_guard {c : Prop} [Decidable c] {a : Answer} (ha : ∀ grant raw, a ≠ .tokens grant raw)
    (h : ¬ c → Keeps sha256 mayFail (Post sha256 mayFail s₀ q) p s) :
    Keeps sha256 mayFail (Post sha256 mayFail s₀ q)
      (if c then .done a else p) s := by
  split
  · exact keeps_refusal ha
  · next hc => exact h hc

/-- A request that is refused where a condition fails, once a row is dropped. -/
theorem keeps_drop {c : Prop} [Decidable c] {call : TokenCall} {code description : String}
    (hcall : ∀ s, Allowed sha256 call s)
    (h : ¬ c → Keeps sha256 mayFail (Post sha256 mayFail s₀ q) p s) :
    Keeps sha256 mayFail (Post sha256 mayFail s₀ q)
      (if c then .call call fun _ => reject code description else p) s := by
  split
  · exact fun s' _ => ⟨hcall s', fun _ _ _ => keeps_refusal nofun⟩
  · next hc => exact h hc

theorem keeps_validateClientAuth {auth : ClientAuth} {clientID : String}
    {next : Option String → Handler} (h : ∀ err s', ReflTransGen (Changes sha256 mayFail) s s' →
      Keeps sha256 mayFail post (next err) s') :
    Keeps sha256 mayFail post (validateClientAuth sha256 auth clientID next) s := by
  intro s₁ hs₁
  refine ⟨trivial, fun client s₂ hexec => ?_⟩
  have hs₂ := hs₁.tail ⟨.getClient clientID, client, trivial, hexec⟩
  cases client with
  | none => exact h _ _ hs₂
  | some client =>
    dsimp only
    split_ifs
    all_goals exact h _ _ hs₂

theorem keeps_issueTokens {rest : Handler → Handler} (hvouched : Vouched s grant)
    (h : ∀ raw s', ReflTransGen (Changes sha256 mayFail) s s' →
      Keeps sha256 mayFail (Post sha256 mayFail s₀ q)
        (rest (.done (.tokens grant raw))) s') :
    Keeps sha256 mayFail (Post sha256 mayFail s₀ q)
      (issueTokens sha256 grant rest) s := by
  intro s₁ hs₁
  have hgrows : Grows s s₁ := grows_star hs₁
  have hallowed : Allowed sha256 (.saveRefreshToken fun draw =>
      ⟨hashToken sha256 draw.hex, grant.subjectDID, grant.clientID, grant.scope, draw.now,
        draw.now + refreshTokenTTL, none⟩) s₁ := fun _ => ⟨hgrows.vouched hvouched, .inl rfl⟩
  refine ⟨hallowed, fun saved s₂ hexec => ?_⟩
  cases saved with
  | none => exact keeps_refusal nofun
  | some draw => exact h _ _ (hs₁.tail ⟨_, _, hallowed, hexec⟩)

theorem keeps_tokens (hs : Inv sha256 s) (hcredential : q.credential = some c)
    (hgranted : Granted sha256 s grant q) (hgood : ¬ Spent sha256 s₀ c)
    (hspent : ¬ mayFail → Spent sha256 s c) :
    Keeps sha256 mayFail (Post sha256 mayFail s₀ q)
      (.done (.tokens grant raw)) s := by
  intro s' hs' _ _ heq
  cases heq
  have hgrows := grows_star hs'
  refine ⟨?_, fun c' hc' => ?_⟩
  · cases q with
    | exchange =>
      obtain ⟨sess, hsess, hrest⟩ := hgranted
      exact ⟨sess, hgrows.authorized _ hsess, hrest⟩
    | refresh => exact ⟨hgrows.vouched hgranted.1, hgrows.exists_drawn hgranted.2⟩
    | _ => exact hgranted
  · obtain rfl := Option.some.inj (hcredential.symm.trans hc')
    exact ⟨hgood, fun hnot => (hspent hnot).star hs hs'⟩

theorem exchange_keeps (hs : Inv sha256 s) (q : TokenForm) :
    Keeps sha256 mayFail (Post sha256 mayFail s (.exchange q))
      (handleAuthCodeExchange sha256 q) s := by
  refine keeps_guard nofun fun _ s₁ hs₁ => ⟨trivial, fun row s₂ hexec => ?_⟩
  have hinv := hs.star hs₁
  cases hexec with
  | fails => exact keeps_refusal nofun
  | runs =>
    cases hfind : s₁.sessions.find? (·.code == q.code) with
    | none =>
      simp only [run, hfind]
      exact keeps_refusal nofun
    | some sess =>
      simp only [run, hfind]
      have hmem := mem_of_find?_eq_some hfind
      have hkey : sess.code = q.code := by simpa using find?_some hfind
      obtain ⟨hauth, d, hd, hcode, hid⟩ := hinv.sessions sess hmem
      refine keeps_guard nofun fun _ => keeps_guard nofun fun _ =>
        keeps_guard nofun fun hverifier =>
        keeps_guard nofun fun _ => keeps_guard nofun fun hpkce =>
          keeps_validateClientAuth fun err s₂ hs₂ => ?_
      cases err with
      | some e => exact keeps_refusal nofun
      | none =>
        have hauth := (grows_star hs₂).authorized _ hauth
        refine keeps_issueTokens ⟨sess, hauth, rfl⟩
          fun raw s₃ hs₃ s₄ hs₄ => ⟨trivial, fun _ s₅ hexec => ?_⟩
        have hsteps := (hs₂.trans hs₃).trans hs₄
        have hinv₄ := hinv.star hsteps
        have hchange : Changes sha256 mayFail s₄ s₅ := ⟨.deleteSession sess.id, _, trivial, hexec⟩
        have hgrows := grows_star ((hs₃.trans hs₄).tail hchange)
        refine keeps_tokens (hinv₄.changes hchange) rfl
          ⟨sess, hgrows.authorized _ hauth, hkey, hverifier, not_not.mp hpkce, rfl⟩
          (fun hspent => (hspent.star hs hs₁).2 sess hmem hkey) fun hnot => ?_
        cases hexec with
        | fails h => exact absurd h hnot
        | runs =>
          have hd := (grows_star hsteps).drawn d hd
          have hcode := hkey.symm.trans hcode
          refine ⟨⟨d, hd, hcode⟩, fun row hrow heq => ?_⟩
          -- a row with this code has the identifier of the session
          obtain ⟨hrow, hne⟩ := mem_filter.mp hrow
          obtain ⟨-, e, he, hcode', hid'⟩ := hinv₄.sessions row hrow
          obtain rfl := hinv₄.drawn e he d hd (congrArg _ (hcode'.symm.trans (heq.trans hcode)))
          rw [hid', hid] at hne
          simp at hne

theorem refresh_keeps (hs : Inv sha256 s) (q : TokenForm) :
    Keeps sha256 mayFail (Post sha256 mayFail s (.refresh q))
      (handleRefreshTokenGrant sha256 q) s := by
  refine keeps_guard nofun fun _ s₁ hs₁ => ⟨trivial, fun row s₂ hexec => ?_⟩
  have hinv := hs.star hs₁
  cases hexec with
  | fails => exact keeps_refusal nofun
  | runs =>
    cases hfind : s₁.refreshTokens.find? (·.hash == hashToken sha256 q.refreshToken) with
    | none =>
      simp only [run, hfind]
      exact keeps_refusal nofun
    | some rt =>
      simp only [run, hfind]
      have hmem := mem_of_find?_eq_some hfind
      have hkey : rt.hash = hashToken sha256 q.refreshToken := by
        simpa using find?_some hfind
      obtain ⟨hvouched, hdrawn⟩ := hinv.refreshTokens rt hmem
      refine keeps_drop (fun _ => trivial) fun _ => keeps_drop (fun _ => trivial) fun hused =>
        keeps_validateClientAuth fun err s₂ hs₂ => ?_
      cases err with
      | some e => exact keeps_refusal nofun
      | none =>
        intro s₃ hs₃
        have hgrows := grows_star (hs₂.trans hs₃)
        have hvouched := hgrows.vouched hvouched
        have hdrawn := hgrows.exists_drawn hdrawn
        have hallowed : Allowed sha256
            (.saveRefreshToken fun draw => { rt with usedAt := some draw.now }) s₃ :=
          fun _ => ⟨hvouched, .inr ⟨hdrawn, rfl⟩⟩
        refine ⟨hallowed, fun _ s₄ hexec => ?_⟩
        have hinv₃ := hinv.star (hs₂.trans hs₃)
        have hchange : Changes sha256 mayFail s₃ s₄ := ⟨_, _, hallowed, hexec⟩
        have hinv₄ := hinv₃.changes hchange
        have hvouched := (grows hchange).vouched hvouched
        have hissued := (grows hchange).exists_drawn hdrawn
        rw [hkey] at hissued
        refine keeps_issueTokens hvouched fun raw s₅ hs₅ => ?_
        have hgrows₅ := grows_star hs₅
        refine keeps_tokens (hinv₄.star hs₅) rfl
          ⟨hgrows₅.vouched hvouched, hgrows₅.exists_drawn hissued⟩
          (fun hspent => hused ((hspent.star hs hs₁).2 rt hmem hkey)) fun hnot =>
            Spent.star hinv₄ ?_ hs₅
        cases hexec with
        | fails h => exact absurd h hnot
        | runs =>
          obtain ⟨d, hd, hhash⟩ := hdrawn
          refine ⟨⟨d, (grows hchange).drawn d hd, hkey.symm.trans hhash⟩, fun row hrow heq => ?_⟩
          exact marked_used hrow (heq.trans hkey.symm) rfl

/-- Whatever the others do, a handler that begins on good tables ensures its condition. -/
theorem handler_keeps (hs : Inv sha256 s) (q : Request) :
    Keeps sha256 mayFail (Post sha256 mayFail s q) (handler sha256 q) s := by
  cases q with
  | authorize q =>
    refine keeps_guard nofun fun _ => keeps_guard nofun fun _ => keeps_guard nofun fun _ =>
      keeps_guard nofun fun _ s₁ _ => ⟨trivial, fun client s₂ _ => ?_⟩
    cases client with
    | none => exact keeps_refusal nofun
    | some client =>
      refine keeps_guard nofun fun _ s₃ _ => ⟨fun _ => ⟨rfl, rfl⟩, fun saved s₄ _ => ?_⟩
      cases saved <;> exact keeps_refusal nofun
  | issueSession q =>
    refine fun s₁ _ => ⟨fun _ => ⟨rfl, rfl⟩, fun saved s₂ _ => ?_⟩
    cases saved <;> exact keeps_refusal nofun
  | exchange q => exact exchange_keeps hs q
  | refresh q => exact refresh_keeps hs q
  | _ => exact fun s₁ _ => ⟨trivial, fun _ s₂ _ => keeps_refusal nofun⟩

/-! ### Runs -/

/-- The server before its first request. -/
def start : Threads TokenStore Request TokenCall TokenCall.Reply Answer :=
  ⟨.empty, fun _ => none⟩

/-- The run of some requests, in any order of their statements. -/
abbrev Runs (sha256 : List UInt8 → List UInt8) (mayFail : Prop) :=
  ReflTransGen (Threads.Step (Exec sha256 mayFail) (handler sha256))

variable {t t' : Threads TokenStore Request TokenCall TokenCall.Reply Answer}

theorem inv_empty : Inv sha256 .empty :=
  ⟨nofun, nofun, nofun⟩

theorem run_keeps (hrun : Runs sha256 mayFail start t) :
    (∀ k q p, t.thread k = some (q, p) →
      Keeps sha256 mayFail (fun a s => ∃ s₀, Post sha256 mayFail s₀ q a s) p t.shared) ∧
        Inv sha256 t.shared := by
  obtain ⟨hkeeps, -, hmoves⟩ := Threads.ensures (fun _ q a s => ∃ s₀, Post sha256 mayFail s₀ q a s)
    hrun nofun fun k q s _ hs =>
      (handler_keeps (inv_empty.star hs) q).mono fun _ _ hpost => ⟨s, hpost⟩
  exact ⟨hkeeps, inv_empty.star hmoves⟩

/-! ### A run in which a code is exchanged, and the refresh token used -/

def nthHex (n : Nat) : String :=
  String.ofList (List.replicate 64 (hexDigit n))

/-- SHA-256 on the texts of the run. -/
def knownSha256 (bytes : List UInt8) : List UInt8 :=
  ([
    (bytesOf "dBjftJeZ4CVP-mB92K27uhbUJU1p1r_wW1gFWFOEjXk", [19, 211, 30, 150, 26, 26, 216, 236,
      47, 22, 177, 12, 76, 152, 46, 8, 118, 168, 120, 173, 109, 241, 68, 86, 110, 225, 137, 74,
      203, 112, 249, 195]),
    (List.replicate 64 48, [96, 224, 91, 209, 177, 149, 175, 47, 148, 17, 47, 167, 25, 122, 92,
      136, 40, 144, 88, 132, 12, 231, 198, 223, 150, 147, 117, 107, 198, 37, 15, 85]),
    (List.replicate 64 49, [49, 56, 187, 155, 199, 141, 242, 124, 71, 62, 207, 209, 65, 15, 123,
      212, 94, 186, 193, 245, 156, 243, 255, 156, 254, 77, 183, 122, 171, 122, 237, 211]),
    (List.replicate 64 50, [79, 46, 141, 101, 72, 60, 100, 22, 72, 205, 179, 116, 174, 157, 138,
      189, 54, 141, 38, 158, 77, 223, 254, 9, 42, 130, 55, 184, 22, 44, 221, 214]),
    (List.replicate 64 51, [121, 189, 125, 127, 214, 132, 179, 153, 133, 124, 88, 43, 27, 113,
      114, 221, 242, 119, 212, 254, 27, 2, 126, 197, 43, 40, 218, 58, 227, 129, 230, 117]),
    (List.replicate 64 52, [244, 53, 242, 66, 11, 80, 199, 14, 200, 8, 101, 207, 142, 32, 177,
      105, 135, 65, 101, 251, 133, 118, 180, 134, 51, 202, 242, 168, 23, 109, 46, 74]),
    (List.replicate 64 53, [145, 24, 120, 177, 255, 148, 166, 218, 236, 171, 161, 215, 239, 111,
      218, 11, 151, 17, 106, 22, 41, 19, 137, 66, 123, 64, 42, 1, 58, 42, 231, 159])
    ] : List (List UInt8 × List UInt8)).lookup bytes |>.getD []

/-- The statement with the next draw, if the draw is fresh. -/
def runNext (c : TokenCall) (s : TokenStore) : Option (c.Reply × TokenStore) :=
  let draw := ⟨nthHex s.drawn.length, nthHex s.drawn.length, s.now⟩
  if s.Fresh knownSha256 draw then some (run draw c s) else none

theorem runNext_exec (mayFail : Prop) (c : TokenCall) (s : TokenStore) (r : c.Reply)
    (s' : TokenStore) (h : runNext c s = some (r, s')) : Exec knownSha256 mayFail c s r s' := by
  simp only [runNext] at h
  split at h
  · next hfresh =>
    obtain ⟨rfl, rfl⟩ := Prod.mk.inj (Option.some.inj h)
    exact .runs c s _ fun _ => hfresh
  · cases h

def exchangeForm : TokenForm :=
  ⟨"app", ⟨none, ""⟩, nthHex 0, "dBjftJeZ4CVP-mB92K27uhbUJU1p1r_wW1gFWFOEjXk", ""⟩

def refreshForm (refreshToken : String) : TokenForm :=
  ⟨"app", ⟨none, ""⟩, "", "", refreshToken⟩

def exchangeTurns : List (Slot Request) :=
  [.begin 0 (.saveClient ⟨"app", "", "none", ["https://app/cb"]⟩), .call 0,
    .begin 1 (.authorize ⟨"app", "https://app/cb", "openid", "n", "xyz",
      "E9Melhoa2OwvFrEMTJguCHaoeK1t8URWbuGJSstw-cM", "S256", "did:key:alice"⟩), .call 1, .call 1,
    .begin 2 (.exchange exchangeForm), .call 2, .call 2, .call 2, .call 2]

def refreshTurns (k : Nat) (refreshToken : String) : List (Slot Request) :=
  [.begin k (.refresh (refreshForm refreshToken)), .call k, .call k, .call k, .call k]

abbrev afterTurns (t : Threads TokenStore Request TokenCall TokenCall.Reply Answer)
    (turns : List (Slot Request)) : Threads TokenStore Request TokenCall TokenCall.Reply Answer :=
  turns.foldl (Threads.turn (handler knownSha256) runNext) t

theorem runs_afterTurns (t : Threads TokenStore Request TokenCall TokenCall.Reply Answer)
    (turns : List (Slot Request)) : Runs knownSha256 mayFail t (afterTurns t turns) :=
  Threads.step_turns (runNext_exec mayFail) turns t

/-- Tokens are only ever issued for what was authorized, whatever statements fail: for the
code of a session whose challenge the verifier meets, or for a refresh token that was drawn. -/
theorem tokens_authorized (hrun : Runs sha256 mayFail start t) {k : Nat} {q : Request}
    (h : t.thread k = some (q, .done (.tokens grant raw))) :
    Granted sha256 t.shared grant q := by
  obtain ⟨_, hpost⟩ := (run_keeps hrun).1 k q _ h _ .refl
  exact (hpost _ _ rfl).1

/-- The tokens of an exchanged code are for what Alice authorized. -/
theorem exchange_authorized : Granted knownSha256 (afterTurns start exchangeTurns).shared
    ⟨"did:key:alice", "app", "openid"⟩ (.exchange exchangeForm) :=
  have hrun : Runs knownSha256 False start _ := runs_afterTurns start exchangeTurns
  have h : (afterTurns start exchangeTurns).thread 2 = some (.exchange exchangeForm,
      .done (.tokens ⟨"did:key:alice", "app", "openid"⟩ (nthHex 1))) := rfl
  tokens_authorized hrun h

/-- Once a code or a refresh token was answered with tokens, no request that begins later is
answered with tokens for it. -/
theorem credential_used_once (hrun : Runs sha256 False start t)
    (hrun' : Runs sha256 False t t') {k j : Nat} {q q' : Request} {grant' : TokenGrant}
    {raw' : String} (hk : t.thread k = some (q, .done (.tokens grant raw)))
    (hj : t.thread j = none) (hj' : t'.thread j = some (q', .done (.tokens grant' raw'))) :
    q'.credential ≠ q.credential := by
  obtain ⟨hkeeps, hinv⟩ := run_keeps hrun
  intro heq
  obtain ⟨_, hpost⟩ := hkeeps k q _ hk _ .refl
  have hanswer := hpost _ _ rfl
  obtain ⟨c, hc⟩ : ∃ c, q.credential = some c := by
    cases q with
    | exchange | refresh => exact ⟨_, rfl⟩
    | _ => exact absurd hanswer.1 id
  have hspent := (hanswer.2 c hc).2 id
  have hend := (Threads.ensures
    (fun k q a _ => k = j → ∀ grant raw, a = .tokens grant raw → q.credential ≠ some c) hrun'
    (fun i q p hi => (hkeeps i q p hi).mono fun _ _ _ hij => by rw [hij, hj] at hi; cases hi)
    fun i q s _ hs => (handler_keeps (hinv.star hs) q).mono
      fun a s' hpost _ _ _ ha hq => ((hpost _ _ ha).2 c hq).1 (hspent.star hinv hs)).1 j q' _ hj'
  exact hend _ .refl rfl _ _ rfl (heq.trans hc)

/-- The token of a first refresh, and the one that it was answered with. -/
theorem second_refresh_differs : (Request.refresh (refreshForm (nthHex 3))).credential ≠
    (Request.refresh (refreshForm (nthHex 1))).credential :=
  credential_used_once (k := 3) (j := 4)
    (runs_afterTurns start (exchangeTurns ++ refreshTurns 3 (nthHex 1)))
    (runs_afterTurns _ (refreshTurns 4 (nthHex 3))) rfl rfl rfl

end Oikos.Identity.Provider
