/-
Capabilities of `tpt-archon-bridge`: tokens minted and revoked by an issuer, and
the two places that ask for them, the message router of the kernel and the page
cache over the core buffer pool.  A run mints and revokes capabilities at several
issuers and presents them there; it numbers them in the order of their mints.
-/
import Std.Data.TreeMap.Lemmas
import Mathlib.Data.Finset.Basic
import Oikos.Archon.Page

namespace Oikos.Archon

open Std (TreeMap)

/-- What a capability allows. -/
inductive Right where
  | read
  | write
  | readWrite
deriving Repr, DecidableEq

namespace Right

def allowsRead : Right → Bool
  | .read | .readWrite => true
  | .write => false

def allowsWrite : Right → Bool
  | .write | .readWrite => true
  | .read => false

end Right

/-- What a capability is for. -/
inductive Resource where
  | page (blockId : BlockId)
  | channel (id : UInt64)
deriving Repr, DecidableEq

/-- A token.  Its fields are private in the source: only an issuer makes one. -/
structure Capability where
  serial : Nat
  resource : Resource
  right : Right
deriving Repr, DecidableEq

/-- Whether the capability authorizes `right` on `resource`. -/
def Capability.authorizes (cap : Capability) (resource : Resource) (right : Right) : Bool :=
  cap.resource == resource &&
    match right with
    | .read => cap.right.allowsRead
    | .write => cap.right.allowsWrite
    | .readWrite => cap.right.allowsRead && cap.right.allowsWrite

/-- Serials are 64-bit numbers; the counter panics where it overflows. -/
structure CapabilityIssuer where
  nextSerial : Nat
  live : Finset Nat
deriving DecidableEq

namespace CapabilityIssuer

def new : CapabilityIssuer :=
  ⟨0, ∅⟩

/-- Serials count upwards; one that leaves no successor is a panic. -/
def mint (issuer : CapabilityIssuer) (resource : Resource) (right : Right) :
    Result Empty (Capability × CapabilityIssuer) :=
  let serial := issuer.nextSerial
  if serial + 1 < 2 ^ 64 then
    .ok (⟨serial, resource, right⟩, ⟨serial + 1, insert serial issuer.live⟩)
  else .error .panic

/-- An issuer does not ask whether the capability is one of its own. -/
def revoke (issuer : CapabilityIssuer) (cap : Capability) : CapabilityIssuer :=
  { issuer with live := issuer.live.erase cap.serial }

/-- An issuer looks at the serial only. -/
def validate (issuer : CapabilityIssuer) (cap : Capability) : Bool :=
  decide (cap.serial ∈ issuer.live)

end CapabilityIssuer

/-! ### The message router -/

structure Message where
  channel : UInt64
  payload : Bytes
deriving Repr, DecidableEq

inductive IpcError where
  | denied
  | noSuchChannel
deriving Repr, DecidableEq

/-- The inbox of every registered channel. -/
structure MessageRouter where
  inboxes : TreeMap UInt64 (List Message)

namespace MessageRouter

def new : MessageRouter :=
  ⟨∅⟩

/-- A channel that exists keeps its messages. -/
def registerChannel (router : MessageRouter) (channel : UInt64) : MessageRouter :=
  ⟨router.inboxes.insertIfNew channel []⟩

/-- The router asks whether the capability allows it, then whether the channel exists. -/
def send (router : MessageRouter) (cap : Capability) (message : Message) :
    MessageRouter × Except IpcError Unit :=
  if !cap.authorizes (.channel message.channel) .write then (router, .error .denied)
  else
    match router.inboxes[message.channel]? with
    | none => (router, .error .noSuchChannel)
    | some inbox => (⟨router.inboxes.insert message.channel (inbox ++ [message])⟩, .ok ())

/-- Receiving empties the inbox. -/
def receive (router : MessageRouter) (cap : Capability) (channel : UInt64) :
    MessageRouter × Except IpcError (List Message) :=
  if !cap.authorizes (.channel channel) .read then (router, .error .denied)
  else
    match router.inboxes[channel]? with
    | none => (router, .error .noSuchChannel)
    | some inbox => (⟨router.inboxes.insert channel []⟩, .ok inbox)

end MessageRouter

/-! ### The page cache -/

inductive CacheError where
  | denied
  | storage (e : StorageError)
deriving Repr, DecidableEq

structure CorePageCache (D : Type) where
  pool : BufferPool D

namespace CorePageCache

variable {D : Type} [BlockDevice D]

/-- The cache asks the capability, then pins the page. -/
def mapRead (cache : CorePageCache D) (cap : Capability) (blockId : BlockId) :
    Result Empty (CorePageCache D × Except CacheError Page) := do
  if !cap.authorizes (.page blockId) .read then .ok (cache, .error .denied)
  else
    let (pool, fetched) ← cache.pool.fetch blockId
    .ok (⟨pool⟩, fetched.mapError .storage)

/-- Map a page for writing: the index of its frame, through which the caller may
change the page. -/
def mapWrite (cache : CorePageCache D) (cap : Capability) (blockId : BlockId) :
    Result Empty (CorePageCache D × Except CacheError Nat) := do
  if !cap.authorizes (.page blockId) .write then .ok (cache, .error .denied)
  else
    let (pool, fetched) ← cache.pool.fetchMut blockId
    .ok (⟨pool⟩, fetched.mapError .storage)

def unmap (cache : CorePageCache D) (blockId : BlockId) : Result Empty (CorePageCache D) := do
  let pool ← cache.pool.unpin blockId
  .ok ⟨pool⟩

end CorePageCache

/-! ### The capabilities of a run -/

/-- The issuers, who minted what, and what was revoked. -/
structure Registry where
  issuers : List CapabilityIssuer
  minted : List (Nat × Capability)
  revoked : List (Nat × Nat)
deriving DecidableEq

namespace Registry

def empty : Registry :=
  ⟨[], [], []⟩

def newIssuer (r : Registry) : Registry :=
  { r with issuers := r.issuers ++ [CapabilityIssuer.new] }

/-- Mint at issuer `i`, if there is one. -/
def mint (r : Registry) (i : Nat) (resource : Resource) (right : Right) :
    Result Empty Registry :=
  match r.issuers[i]? with
  | none => .ok r
  | some issuer => do
    let (cap, issuer) ← issuer.mint resource right
    .ok ⟨r.issuers.set i issuer, r.minted ++ [(i, cap)], r.revoked⟩

/-- Revoke capability `k` at issuer `i`, if there are such. -/
def revoke (r : Registry) (i k : Nat) : Registry :=
  match r.issuers[i]?, r.minted[k]? with
  | some issuer, some token =>
    ⟨r.issuers.set i (issuer.revoke token.2), r.minted, r.revoked ++ [(i, k)]⟩
  | _, _ => r

variable {r r' : Registry} {i j k : Nat} {issuer : CapabilityIssuer} {cap : Capability}

/-- Capability `k` of another issuer has the serial of one that issuer `i` minted and
has not revoked. -/
def Clash (r : Registry) (i k : Nat) : Prop :=
  ∃ foreign ∈ r.minted[k]?, foreign.1 ≠ i ∧ ∃ k' < r.minted.length, ∃ own ∈ r.minted[k']?,
    own.1 = i ∧ own.2.serial = foreign.2.serial ∧ (i, k') ∉ r.revoked

instance (r : Registry) (i k : Nat) : Decidable (r.Clash i k) :=
  inferInstanceAs (Decidable (∃ foreign ∈ r.minted[k]?, _))

theorem clash_of_serial {minter k' : Nat} {cap' : Capability}
    (hk : r.minted[k]? = some (minter, cap)) (hne : minter ≠ i)
    (hk' : r.minted[k']? = some (i, cap')) (hserial : cap'.serial = cap.serial)
    (hnot : (i, k') ∉ r.revoked) : r.Clash i k :=
  ⟨_, hk, hne, k', (List.getElem?_eq_some_iff.mp hk').1, _, hk', rfl, hserial, hnot⟩

structure Inv (r : Registry) : Prop where
  minter : ∀ (k i : Nat) (cap : Capability), r.minted[k]? = some (i, cap) → i < r.issuers.length
  serial_lt : ∀ (k i : Nat) (cap : Capability) (issuer : CapabilityIssuer),
    r.minted[k]? = some (i, cap) → r.issuers[i]? = some issuer → cap.serial < issuer.nextSerial
  serial_inj : ∀ (k k' i : Nat) (cap cap' : Capability), r.minted[k]? = some (i, cap) →
    r.minted[k']? = some (i, cap') → cap.serial = cap'.serial → k = k'
  revoked_lt : ∀ p ∈ r.revoked, p.2 < r.minted.length
  live_iff : ∀ (i : Nat) (issuer : CapabilityIssuer) (n : Nat), r.issuers[i]? = some issuer →
    (n ∈ issuer.live ↔ ∃ k cap, r.minted[k]? = some (i, cap) ∧ cap.serial = n ∧ (i, k) ∉ r.revoked)

theorem inv_empty : Inv empty where
  serial_lt := by simp [empty]
  serial_inj := by simp [empty]
  live_iff := by simp [empty]
  minter := by simp [empty]
  revoked_lt := by simp [empty]

theorem Inv.newIssuer (hinv : r.Inv) : r.newIssuer.Inv where
  serial_lt k i cap issuer hk hi := by
    rcases getElem?_concat_cases hi with hi | ⟨rfl, _⟩
    · exact hinv.serial_lt k i cap issuer hk hi
    · exact absurd (hinv.minter k _ cap hk) (lt_irrefl _)
  serial_inj := hinv.serial_inj
  live_iff i issuer n hi := by
    rcases getElem?_concat_cases hi with hi | ⟨rfl, rfl⟩
    · exact hinv.live_iff i issuer n hi
    · refine iff_of_false (Finset.notMem_empty n) ?_
      rintro ⟨k, cap, hk, _⟩
      exact absurd (hinv.minter k _ cap hk) (lt_irrefl _)
  minter k i cap hk := by
    rw [Registry.newIssuer, List.length_append]
    exact Nat.lt_add_right 1 (hinv.minter k i cap hk)
  revoked_lt := hinv.revoked_lt

theorem mint_eq_ok {resource : Resource} {right : Right} (hi : r.issuers[i]? = some issuer)
    (h : r.mint i resource right = .ok r') :
    r' = ⟨r.issuers.set i ⟨issuer.nextSerial + 1, insert issuer.nextSerial issuer.live⟩,
      r.minted ++ [(i, ⟨issuer.nextSerial, resource, right⟩)], r.revoked⟩ := by
  rw [mint, hi] at h
  simp only [CapabilityIssuer.mint] at h
  split at h
  · cases h
    rfl
  · cases h

theorem Inv.mint {resource : Resource} {right : Right} (hinv : r.Inv)
    (h : r.mint i resource right = .ok r') : r'.Inv := by
  cases hi : r.issuers[i]? with
  | none =>
    rw [Registry.mint, hi] at h
    cases h
    exact hinv
  | some issuer =>
    obtain rfl := mint_eq_ok hi h
    have hlen : i < r.issuers.length := (List.getElem?_eq_some_iff.mp hi).1
    -- serials of issuer `i` in the old log are below its old counter
    have hold : ∀ (k : Nat) (cap : Capability), r.minted[k]? = some (i, cap) →
        cap.serial < issuer.nextSerial :=
      fun k cap hk => hinv.serial_lt k i cap issuer hk hi
    constructor
    case serial_lt =>
      intro k j cap issuer' hk hj
      rcases getElem?_concat_cases hk with hk | ⟨_, heq⟩
      · rcases getElem?_set_cases hj with ⟨rfl, rfl⟩ | ⟨_, hj⟩
        · exact Nat.lt_succ_of_lt (hold k cap hk)
        · exact hinv.serial_lt k j cap issuer' hk hj
      · cases heq
        rw [List.getElem?_set_self hlen] at hj
        obtain rfl := Option.some.inj hj
        exact Nat.lt_succ_self _
    case serial_inj =>
      intro k k' j cap cap' hk hk' heq
      rcases getElem?_concat_cases hk with hk | ⟨rfl, hnew⟩
      · rcases getElem?_concat_cases hk' with hk' | ⟨rfl, hnew'⟩
        · exact hinv.serial_inj k k' j cap cap' hk hk' heq
        · cases hnew'
          exact absurd heq (ne_of_lt (hold k cap hk))
      · cases hnew
        rcases getElem?_concat_cases hk' with hk' | ⟨rfl, _⟩
        · exact absurd heq.symm (ne_of_lt (hold k' cap' hk'))
        · rfl
    case live_iff =>
      intro j issuer' n hj
      have hnew : (i, r.minted.length) ∉ r.revoked :=
        fun hmem => absurd (hinv.revoked_lt _ hmem) (lt_irrefl _)
      have hwas : ∀ {k cap}, r.minted[k]? = some (j, cap) →
          (r.minted ++ [(i, ⟨issuer.nextSerial, resource, right⟩)])[k]? = some (j, cap) :=
        fun hk => by rw [List.getElem?_append_left (List.getElem?_eq_some_iff.mp hk).1, hk]
      rcases getElem?_set_cases hj with ⟨rfl, rfl⟩ | ⟨hij, hj⟩
      · rw [Finset.mem_insert, hinv.live_iff i issuer n hi]
        constructor
        · rintro (rfl | ⟨k, cap, hk, hserial, hnot⟩)
          · exact ⟨_, _, List.getElem?_concat_length, rfl, hnew⟩
          · exact ⟨k, cap, hwas hk, hserial, hnot⟩
        · rintro ⟨k, cap, hk, rfl, hnot⟩
          rcases getElem?_concat_cases hk with hk | ⟨_, heq⟩
          · exact Or.inr ⟨k, cap, hk, rfl, hnot⟩
          · cases heq
            exact Or.inl rfl
      · rw [hinv.live_iff j issuer' n hj]
        refine ⟨fun ⟨k, cap, hk, hrest⟩ => ⟨k, cap, hwas hk, hrest⟩, ?_⟩
        rintro ⟨k, cap, hk, hrest⟩
        rcases getElem?_concat_cases hk with hk | ⟨_, heq⟩
        · exact ⟨k, cap, hk, hrest⟩
        · cases heq
          exact absurd rfl hij
    case minter =>
      intro k j cap hk
      rw [List.length_set]
      rcases getElem?_concat_cases hk with hk | ⟨_, heq⟩
      · exact hinv.minter k j cap hk
      · cases heq
        exact hlen
    case revoked_lt =>
      intro p hp
      rw [List.length_append]
      exact Nat.lt_add_right 1 (hinv.revoked_lt p hp)

theorem revoke_cases (r : Registry) (i k : Nat) :
    r.revoke i k = r ∨ ∃ issuer token, r.issuers[i]? = some issuer ∧ r.minted[k]? = some token ∧
      r.revoke i k =
        ⟨r.issuers.set i (issuer.revoke token.2), r.minted, r.revoked ++ [(i, k)]⟩ := by
  unfold revoke
  split
  · next issuer token hi hk => exact Or.inr ⟨issuer, token, hi, hk, rfl⟩
  · exact Or.inl rfl

theorem Inv.revoke (hinv : r.Inv) (hclash : ¬r.Clash i k) : (r.revoke i k).Inv := by
  rcases revoke_cases r i k with heq | ⟨issuer, token, hi, hk, heq⟩
  · rw [heq]
    exact hinv
  · rw [heq]
    have hlen : i < r.issuers.length := (List.getElem?_eq_some_iff.mp hi).1
    constructor
    case serial_lt =>
      intro k' j cap issuer' hk' hj
      rcases getElem?_set_cases hj with ⟨rfl, rfl⟩ | ⟨hij, hj⟩
      · exact hinv.serial_lt k' i cap issuer hk' hi
      · exact hinv.serial_lt k' j cap issuer' hk' hj
    case serial_inj => exact hinv.serial_inj
    case live_iff =>
      intro j issuer' n hj
      have hmem : ∀ k', (j, k') ∈ r.revoked ++ [(i, k)] ↔ (j, k') ∈ r.revoked ∨ j = i ∧ k' = k := by
        simp
      rcases getElem?_set_cases hj with ⟨rfl, rfl⟩ | ⟨hij, hj⟩
      · rw [CapabilityIssuer.revoke, Finset.mem_erase, hinv.live_iff i issuer n hi]
        constructor
        · rintro ⟨hne, k', cap, hk', rfl, hnot⟩
          refine ⟨k', cap, hk', rfl, fun h => ?_⟩
          rcases (hmem k').mp h with h | ⟨_, rfl⟩
          · exact hnot h
          · rw [hk] at hk'
            cases hk'
            exact hne rfl
        · rintro ⟨k', cap, hk', rfl, hnot⟩
          rw [hmem, not_or] at hnot
          refine ⟨fun heq => ?_, k', cap, hk', rfl, hnot.1⟩
          -- the serial that goes is that of the issuer's own capability
          by_cases hown : token.1 = i
          · have hsame := hinv.serial_inj k' k i cap token.2 hk' (by rw [hk, ← hown]) heq
            exact hnot.2 ⟨rfl, hsame⟩
          · exact hclash (clash_of_serial hk hown hk' heq hnot.1)
      · rw [hinv.live_iff j issuer' n hj]
        refine exists_congr fun k' => exists_congr fun cap => and_congr_right fun _ =>
          and_congr_right fun _ => ?_
        rw [hmem, not_or]
        exact (and_iff_left fun h => hij h.1).symm
    case minter =>
      intro k' j cap hk'
      rw [List.length_set]
      exact hinv.minter k' j cap hk'
    case revoked_lt =>
      intro p hp
      rcases List.mem_append.mp hp with hp | hp
      · exact hinv.revoked_lt p hp
      · rw [List.mem_singleton.mp hp]
        exact (List.getElem?_eq_some_iff.mp hk).1

end Registry

/-! ### Using capabilities -/

/-- What a capability may be presented for; the page mapped by `map_write` may
be modified. -/
inductive Use where
  | send (message : Message)
  | receive (channel : UInt64)
  | mapRead (blockId : BlockId)
  | mapWrite (blockId : BlockId) (modify : Page → Page)

namespace Use

def resource : Use → Resource
  | .send message => .channel message.channel
  | .receive channel => .channel channel
  | .mapRead blockId => .page blockId
  | .mapWrite blockId _ => .page blockId

def right : Use → Right
  | .send _ => .write
  | .receive _ => .read
  | .mapRead _ => .read
  | .mapWrite _ _ => .write

end Use

inductive UseReply where
  | sent (r : Except IpcError Unit)
  | received (r : Except IpcError (List Message))
  | mapped (r : Except CacheError Page)

/-- The reply is `Err(Denied)`. -/
def UseReply.denied : UseReply → Bool
  | .sent (.error .denied) => true
  | .received (.error .denied) => true
  | .mapped (.error .denied) => true
  | _ => false

structure Kernel (D : Type) where
  registry : Registry
  router : MessageRouter
  cache : CorePageCache D

inductive KernelCall where
  | newIssuer
  | mint (issuer : Nat) (resource : Resource) (right : Right)
  | revoke (issuer capability : Nat)
  | registerChannel (channel : UInt64)
  | use (capability : Nat) (use : Use)
  | unmap (blockId : BlockId)

namespace Kernel

variable {D : Type} [BlockDevice D]

def perform (kernel : Kernel D) (cap : Capability) : Use → Result Empty (UseReply × Kernel D)
  | .send message =>
    let (router, r) := kernel.router.send cap message
    .ok (.sent r, { kernel with router := router })
  | .receive channel =>
    let (router, r) := kernel.router.receive cap channel
    .ok (.received r, { kernel with router := router })
  | .mapRead blockId => do
    let (cache, r) ← kernel.cache.mapRead cap blockId
    .ok (.mapped r, { kernel with cache := cache })
  | .mapWrite blockId modify => do
    let (cache, r) ← kernel.cache.mapWrite cap blockId
    match r with
    | .error e => .ok (.mapped (.error e), { kernel with cache := cache })
    | .ok idx =>
      let f ← index cache.pool.frames idx
      let pool ← cache.pool.setPage idx (modify f.page)
      .ok (.mapped (.ok f.page), { kernel with cache := ⟨pool⟩ })

/-- One call.  A call that names an issuer or a capability that is not there
cannot be made, and does nothing here. -/
def step (kernel : Kernel D) : KernelCall → Result Empty (Kernel D)
  | .newIssuer => .ok { kernel with registry := kernel.registry.newIssuer }
  | .mint i resource right => do
    let registry ← kernel.registry.mint i resource right
    .ok { kernel with registry := registry }
  | .revoke i k => .ok { kernel with registry := kernel.registry.revoke i k }
  | .registerChannel channel =>
    .ok { kernel with router := kernel.router.registerChannel channel }
  | .use k use =>
    match kernel.registry.minted[k]? with
    | none => .ok kernel
    | some token => do
      let (_, kernel) ← kernel.perform token.2 use
      .ok kernel
  | .unmap blockId => do
    let cache ← kernel.cache.unmap blockId
    .ok { kernel with cache := cache }

variable {kernel kernel' : Kernel D} {cap : Capability} {use : Use} {reply : UseReply}

end Kernel

/-! ### Runs of the router -/

inductive RouterCall where
  | registerChannel (channel : UInt64)
  | send (cap : Capability) (message : Message)
  | receive (cap : Capability) (channel : UInt64)

structure Traffic where
  router : MessageRouter
  sent : UInt64 → List Message
  received : UInt64 → List Message

namespace Traffic

def new : Traffic :=
  ⟨.new, fun _ => [], fun _ => []⟩

def step (t : Traffic) : RouterCall → Traffic
  | .registerChannel channel => { t with router := t.router.registerChannel channel }
  | .send cap message =>
    match t.router.send cap message with
    | (_, .error _) => t
    | (router, .ok _) =>
      { t with
        router
        sent := Function.update t.sent message.channel (t.sent message.channel ++ [message]) }
  | .receive cap channel =>
    match t.router.receive cap channel with
    | (_, .error _) => t
    | (router, .ok messages) =>
      { t with
        router
        received := Function.update t.received channel (t.received channel ++ messages) }

def queued (t : Traffic) (channel : UInt64) : List Message :=
  t.router.inboxes[channel]?.getD []

structure Inv (t : Traffic) (calls : List RouterCall) : Prop where
  fifo : ∀ channel, t.sent channel = t.received channel ++ t.queued channel
  authorized : ∀ channel, ∀ message ∈ t.sent channel, message.channel = channel ∧
    ∃ cap, .send cap message ∈ calls ∧ cap.authorizes (.channel channel) .write = true

theorem Inv.step {t : Traffic} {calls : List RouterCall} (h : t.Inv calls) (call : RouterCall) :
    (t.step call).Inv (calls ++ [call]) := by
  have hold : ∀ channel, ∀ message ∈ t.sent channel, message.channel = channel ∧ ∃ cap,
      .send cap message ∈ calls ++ [call] ∧ cap.authorizes (.channel channel) .write = true :=
    fun channel message hmem =>
      have ⟨hchannel, cap, hcall, hauth⟩ := h.authorized channel message hmem
      ⟨hchannel, cap, List.mem_append_left _ hcall, hauth⟩
  cases call with
  | registerChannel id =>
    refine ⟨fun channel => (h.fifo channel).trans ?_, hold⟩
    simp only [Traffic.step, queued, MessageRouter.registerChannel]
    rw [Std.TreeMap.getElem?_insertIfNew]
    split
    · next hnew =>
      rw [← compare_eq_iff_eq.mp hnew.1, Std.TreeMap.getElem?_eq_none hnew.2]
      rfl
    · rfl
  | send cap message =>
    simp only [Traffic.step, MessageRouter.send]
    cases hauth : cap.authorizes (.channel message.channel) .write with
    | false => exact ⟨h.fifo, hold⟩
    | true =>
      cases hinbox : t.router.inboxes[message.channel]? with
      | none => exact ⟨h.fifo, hold⟩
      | some inbox =>
        have hsent := h.fifo message.channel
        rw [queued, hinbox] at hsent
        refine ⟨fun channel => ?_, fun channel m hm => ?_⟩
        · by_cases hc : channel = message.channel
          · subst hc
            simp [queued, hsent]
          · simpa [queued, hc, Std.TreeMap.getElem?_insert, Ne.symm hc] using h.fifo channel
        · change m ∈ Function.update t.sent message.channel _ channel at hm
          by_cases hc : channel = message.channel
          · subst hc
            rw [Function.update_self, List.mem_append, List.mem_singleton] at hm
            rcases hm with hm | rfl
            · exact hold _ m hm
            · exact ⟨rfl, cap, by simp, hauth⟩
          · rw [Function.update_of_ne hc] at hm
            exact hold channel m hm
  | receive cap id =>
    simp only [Traffic.step, MessageRouter.receive]
    cases hauth : cap.authorizes (.channel id) .read with
    | false => exact ⟨h.fifo, hold⟩
    | true =>
      cases hinbox : t.router.inboxes[id]? with
      | none => exact ⟨h.fifo, hold⟩
      | some inbox =>
        have hreceived := h.fifo id
        rw [queued, hinbox] at hreceived
        refine ⟨fun channel => ?_, hold⟩
        by_cases hc : channel = id
        · subst hc
          simpa [queued] using hreceived
        · simpa [queued, hc, Std.TreeMap.getElem?_insert, Ne.symm hc] using h.fifo channel

/-- What was sent to a channel is what it has received followed by what is queued, each
message meant for it and sent by a call that may write there. -/
theorem delivered_once (calls : List RouterCall) (channel : UInt64) :
    let t := calls.foldl step new
    t.sent channel = t.received channel ++ t.queued channel ∧
      ∀ message ∈ t.sent channel, message.channel = channel ∧
        ∃ cap, .send cap message ∈ calls ∧ cap.authorizes (.channel channel) .write = true := by
  have hinv : ∀ (calls before : List RouterCall) (t : Traffic), t.Inv before →
      (calls.foldl step t).Inv (before ++ calls) := by
    intro calls
    induction calls with
    | nil => exact fun before t h => by simpa using h
    | cons call calls ih =>
      intro before t h
      simpa using ih _ _ (h.step call)
  have h := hinv calls [] new ⟨fun _ => rfl, nofun⟩
  exact ⟨h.fifo channel, h.authorized channel⟩

end Traffic

end Oikos.Archon
