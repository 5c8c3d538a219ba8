/-
The peers that a node knows: a bounded table, and random choices from it.

The gossip layer of `koinon-network`: blocks and transactions are passed on to
random peers, unless their hash is among the latest that were seen.
-/
import Mathlib.Data.Finset.Card
import Oikos.Lib.Table
import Oikos.Koinon.Wire
import Oikos.Lib.Recent

namespace Oikos.Koinon.Network

inductive SocketAddr where
  | v4 (ip : Vector UInt8 4) (port : UInt16)
  | v6 (ip : Vector UInt8 16) (port : UInt16) (flowinfo scopeId : UInt32)
deriving DecidableEq

/-- A reading of the monotone clock, in nanoseconds. -/
abbrev Instant := Nat

/-- A peer, when it was last seen and how far its chain goes. -/
structure Peer where
  id : PeerId
  addr : SocketAddr
  bestHeight : UInt64
  lastSeen : Instant
  connected : Bool
deriving DecidableEq

inductive PeerError where
  | selfConnection
  | maxPeersReached
deriving Repr, DecidableEq

/-- An order that `shuffle` may put a list into. -/
structure Shuffle where
  apply : List Peer → List Peer
  perm : ∀ l, (apply l).Perm l

/-- The shuffle that moves nothing. -/
def Shuffle.still : Shuffle :=
  ⟨id, fun l => List.Perm.refl l⟩

/-- The known peers, each under its own id. -/
structure PeerManager where
  peers : Table PeerId Peer
  maxPeers : Nat
  myId : PeerId
  keyed : ∀ id peer, peers.get id = some peer → peer.id = id

namespace PeerManager

def new (myId : PeerId) (maxPeers : Nat) : PeerManager :=
  ⟨.empty, maxPeers, myId, fun _ _ h => nomatch h⟩

def store (pm : PeerManager) (peer : Peer) : PeerManager :=
  { pm with
    peers := pm.peers.insert peer.id peer
    keyed := by
      intro id q hq
      rw [Table.get_insert] at hq
      split at hq
      · next heq =>
        cases hq
        exact heq.symm
      · exact pm.keyed id q hq }

/-- A full table still takes a peer that it knows. -/
def addPeer (pm : PeerManager) (id : PeerId) (addr : SocketAddr) (now : Instant) :
    Except PeerError PeerManager :=
  if id = pm.myId then .error .selfConnection
  else if pm.maxPeers ≤ pm.peers.keys.length ∧ id ∉ pm.peers.keys then .error .maxPeersReached
  else .ok (pm.store ⟨id, addr, 0, now, true⟩)

def retain (pm : PeerManager) (keep : PeerId → Peer → Bool) : PeerManager :=
  { pm with
    peers := pm.peers.filter keep
    keyed := fun id peer h => pm.keyed id peer (Table.get_filter.mp h).1 }

def removePeer (pm : PeerManager) (id : PeerId) : PeerManager :=
  pm.retain fun id' _ => id' != id

def getPeers (pm : PeerManager) : List Peer :=
  pm.peers.values

/-- The first `count` of the connected peers, shuffled. -/
def getRandomPeers (pm : PeerManager) (shuffle : Shuffle) (count : Nat) : List Peer :=
  (shuffle.apply (pm.peers.values.filter Peer.connected)).take count

def updateHeight (pm : PeerManager) (id : PeerId) (height : UInt64) (now : Instant) : PeerManager :=
  { pm with
    peers := pm.peers.modify id fun peer => { peer with bestHeight := height, lastSeen := now }
    keyed := by
      intro id' q hq
      rw [Table.get_modify] at hq
      split at hq
      · next heq =>
        obtain ⟨peer, hpeer, rfl⟩ := Option.map_eq_some_iff.mp hq
        rw [heq]
        exact pm.keyed id peer hpeer
      · exact pm.keyed id' q hq }

/-- Forget peers that were not seen for the timeout. -/
def pruneStale (pm : PeerManager) (timeout : Nat) (now : Instant) : PeerManager :=
  pm.retain fun _ peer => now - peer.lastSeen < timeout

variable {pm : PeerManager} {shuffle : Shuffle} {n : Nat}

theorem map_id_values (pm : PeerManager) : pm.peers.values.map Peer.id = pm.peers.keys := by
  rw [Table.values, Table.keys, List.map_map]
  apply List.map_congr_left
  intro p hp
  exact pm.keyed p.1 p.2 (Table.get_eq_some_iff.mpr hp)

theorem nodup_getRandomPeers : ((pm.getRandomPeers shuffle n).map Peer.id).Nodup := by
  have hvalues : ((pm.peers.values.filter Peer.connected).map Peer.id).Nodup := by
    refine (List.filter_sublist.map Peer.id).nodup ?_
    rw [map_id_values]
    exact pm.peers.nodup
  have hshuffled := ((shuffle.perm (pm.peers.values.filter Peer.connected)).map
    Peer.id).nodup_iff.mpr
    hvalues
  exact ((List.take_sublist n _).map Peer.id).nodup hshuffled

end PeerManager

/-- The queue, and the hashes seen before, of which the latest are kept. -/
structure GossipLayer where
  peerManager : PeerManager
  messageQueue : List (PeerId × NetworkMessage)
  seenSet : Finset TxHash
  seenOrder : List TxHash
  maxSeen : Nat

/-- The hash that a message spreads. -/
def NetworkMessage.announced : NetworkMessage → Option TxHash
  | .newBlock header => some header.hash
  | .newTransaction tx => some tx.hash
  | _ => none

namespace GossipLayer

def new (peerManager : PeerManager) (maxSeen : Nat) : GossipLayer :=
  ⟨peerManager, [], ∅, [], maxSeen⟩

def isSeen (layer : GossipLayer) (hash : TxHash) : Bool :=
  hash ∈ layer.seenSet

/-- A new hash may push the oldest one out. -/
def markSeen (layer : GossipLayer) (hash : TxHash) : GossipLayer :=
  let (set, order) := Recent.mark layer.maxSeen layer.seenSet layer.seenOrder hash
  { layer with seenSet := set, seenOrder := order }

/-- The same message to each of these peers. -/
def enqueue (layer : GossipLayer) (peers : List PeerId) (msg : NetworkMessage) : GossipLayer :=
  { layer with messageQueue := layer.messageQueue ++ peers.map fun id => (id, msg) }

def randomPeers (layer : GossipLayer) (shuffle : Shuffle) : List PeerId :=
  (layer.peerManager.getRandomPeers shuffle 3).map Peer.id

/-- Pass a new block or transaction on, except to the peer that it came from. -/
def announce (layer : GossipLayer) (hash : TxHash) (msg : NetworkMessage) (source : Option PeerId)
    (shuffle : Shuffle) : GossipLayer :=
  if layer.isSeen hash then layer
  else
    let layer := layer.markSeen hash
    layer.enqueue ((layer.randomPeers shuffle).filter fun id => some id != source) msg

def gossipBlock (layer : GossipLayer) (header : BlockHeader) (shuffle : Shuffle) : GossipLayer :=
  layer.announce header.hash (.newBlock header) none shuffle

def gossipTransaction (layer : GossipLayer) (tx : WireTx) (shuffle : Shuffle) : GossipLayer :=
  layer.announce tx.hash (.newTransaction tx) none shuffle

def updateHeight (layer : GossipLayer) (id : PeerId) (height : UInt64) (now : Instant) :
    GossipLayer :=
  { layer with peerManager := layer.peerManager.updateHeight id height now }

/-- Blocks and transactions are passed on, to others than the one that sent them. -/
def handleMessage (layer : GossipLayer) (source : PeerId) (msg : NetworkMessage) (myHeight : UInt64)
    (now : Instant) (shuffle : Shuffle) : GossipLayer × List NetworkMessage :=
  match msg with
  | .newBlock header => (layer.announce header.hash msg (some source) shuffle, [])
  | .newTransaction tx => (layer.announce tx.hash msg (some source) shuffle, [])
  | .ping _ height =>
    (layer.updateHeight source height now, [.pong layer.peerManager.myId myHeight])
  | .pong _ height => (layer.updateHeight source height now, [])
  | .handshake chainId _ _ => (layer, [.handshakeAck chainId layer.peerManager.myId myHeight])
  | .handshakeAck _ _ bestHeight => (layer.updateHeight source bestHeight now, [])
  | .blockRequest _ | .blockResponse _ | .transactionRequest _ | .transactionResponse _
  | .stateSyncRequest _ _ | .stateSyncResponse _ => (layer, [])

def getPendingMessages (layer : GossipLayer) : List (PeerId × NetworkMessage) × GossipLayer :=
  (layer.messageQueue, { layer with messageQueue := [] })

/-! ### Runs -/

/-- A call of the layer.  Between the calls its peers may be changed. -/
inductive Call where
  | gossipBlock (header : BlockHeader) (shuffle : Shuffle)
  | gossipTransaction (tx : WireTx) (shuffle : Shuffle)
  | handleMessage (source : PeerId) (msg : NetworkMessage) (myHeight : UInt64) (now : Instant)
      (shuffle : Shuffle)
  | getPendingMessages
  | setPeers (peerManager : PeerManager)

def Call.hash : Call → Option TxHash
  | .gossipBlock header _ => some header.hash
  | .gossipTransaction tx _ => some tx.hash
  | .handleMessage _ msg _ _ _ => msg.announced
  | .getPendingMessages | .setPeers _ => none

def Call.source : Call → Option PeerId
  | .handleMessage source _ _ _ _ => some source
  | _ => none

/-- A layer with the calls made on it and the messages taken from it. -/
structure Log where
  layer : GossipLayer
  past : List Call
  taken : List (PeerId × NetworkMessage)

namespace Log

def start (peerManager : PeerManager) (maxSeen : Nat) : Log :=
  ⟨.new peerManager maxSeen, [], []⟩

def call (log : Log) (c : Call) : Log :=
  match c with
  | .gossipBlock header shuffle =>
    ⟨log.layer.gossipBlock header shuffle, log.past ++ [c], log.taken⟩
  | .gossipTransaction tx shuffle =>
    ⟨log.layer.gossipTransaction tx shuffle, log.past ++ [c], log.taken⟩
  | .handleMessage source msg myHeight now shuffle =>
    ⟨(log.layer.handleMessage source msg myHeight now shuffle).1, log.past ++ [c], log.taken⟩
  | .getPendingMessages =>
    ⟨log.layer.getPendingMessages.2, log.past ++ [c],
      log.taken ++ log.layer.getPendingMessages.1⟩
  | .setPeers peerManager => ⟨{ log.layer with peerManager }, log.past ++ [c], log.taken⟩

def queued (log : Log) : List (PeerId × NetworkMessage) :=
  log.taken ++ log.layer.messageQueue

/-- Who was sent what, queued messages included. -/
def sent (log : Log) : List (PeerId × Option TxHash) :=
  log.queued.map fun p => (p.1, p.2.announced)

end Log

/-- The hashes that a run is about. -/
def hashes (calls : List Call) : List TxHash :=
  calls.filterMap Call.hash

/-- The peer from which a hash came first, if it came from one. -/
def firstSource (calls : List Call) (hash : TxHash) : Option PeerId :=
  (calls.find? fun c => c.hash == some hash).bind Call.source

/-! ### What a call does -/

variable {layer : GossipLayer} {log log' : Log} {c : Call} {calls past : List Call} {hash : TxHash}
  {id : PeerId} {msg : NetworkMessage} {source : Option PeerId} {shuffle : Shuffle}

theorem announced_eq_none (h : msg.announced = none) (from_ : PeerId) (myHeight : UInt64)
    (now : Instant) : ∃ peerManager, (layer.handleMessage from_ msg myHeight now shuffle).1 =
      { layer with peerManager } := by
  cases msg with
  | newBlock header => cases h
  | newTransaction tx => cases h
  | ping _ _ => exact ⟨_, rfl⟩
  | pong _ _ => exact ⟨_, rfl⟩
  | handshakeAck _ _ _ => exact ⟨_, rfl⟩
  | _ => exact ⟨layer.peerManager, rfl⟩

inductive Step (log : Log) (c : Call) : Log → Prop
  | quiet (log' : Log) (hpast : log'.past = log.past ++ [c])
      (hset : log'.layer.seenSet = log.layer.seenSet)
      (horder : log'.layer.seenOrder = log.layer.seenOrder)
      (hmax : log'.layer.maxSeen = log.layer.maxSeen) (hqueued : log'.queued = log.queued)
      (hseen : ∀ hash, c.hash = some hash → hash ∈ log.layer.seenSet) : Step log c log'
  | announced (log' : Log) (hash : TxHash) (ids : List PeerId)
      (hpast : log'.past = log.past ++ [c]) (hhash : c.hash = some hash)
      (hnew : hash ∉ log.layer.seenSet)
      (hmark : (log'.layer.seenSet, log'.layer.seenOrder) =
        Recent.mark log.layer.maxSeen log.layer.seenSet log.layer.seenOrder hash)
      (hmax : log'.layer.maxSeen = log.layer.maxSeen) (hids : ids.Nodup)
      (hsource : ∀ id ∈ ids, c.source ≠ some id)
      (hsent : log'.sent = log.sent ++ ids.map fun id => (id, some hash)) : Step log c log'

theorem step_announce (hhash : c.hash = some hash) (hmsg : msg.announced = some hash) :
    Step log c ⟨log.layer.announce hash msg c.source shuffle, log.past ++ [c], log.taken⟩ := by
  unfold announce
  split
  · next hseen =>
    refine .quiet _ rfl rfl rfl rfl rfl fun hash' hhash' => ?_
    obtain rfl := Option.some.inj (hhash.symm.trans hhash')
    exact of_decide_eq_true hseen
  · next hseen =>
    refine .announced _ hash ((log.layer.randomPeers shuffle).filter fun id => some id != c.source)
      rfl hhash (fun hmem => hseen (decide_eq_true hmem)) rfl rfl ?_ ?_ ?_
    · exact List.filter_sublist.nodup PeerManager.nodup_getRandomPeers
    · intro id hid heq
      simpa [heq] using (List.mem_filter.mp hid).2
    · simp only [Log.sent, Log.queued, enqueue, markSeen, randomPeers, List.map_append,
        List.map_map,
        List.append_assoc]
      congr 2
      apply List.map_congr_left
      intro id _
      simp only [Function.comp_apply, hmsg]

theorem step_call (log : Log) (c : Call) : Step log c (log.call c) := by
  cases c with
  | gossipBlock header shuffle => exact step_announce rfl rfl
  | gossipTransaction tx shuffle => exact step_announce rfl rfl
  | getPendingMessages =>
    refine .quiet _ rfl rfl rfl rfl ?_ (fun _ h => nomatch h)
    simp only [Log.queued, Log.call, getPendingMessages, List.append_nil]
  | setPeers peerManager => exact .quiet _ rfl rfl rfl rfl rfl (fun _ h => nomatch h)
  | handleMessage source msg myHeight now shuffle =>
    cases hmsg : msg.announced with
    | none =>
      obtain ⟨peerManager, heq⟩ := @announced_eq_none log.layer msg shuffle hmsg source myHeight now
      rw [Log.call, heq]
      refine .quiet _ rfl rfl rfl rfl rfl fun hash hhash => ?_
      change msg.announced = some hash at hhash
      rw [hmsg] at hhash
      cases hhash
    | some hash =>
      cases msg with
      | newBlock header => exact step_announce rfl rfl
      | newTransaction tx => exact step_announce rfl rfl
      | _ => cases hmsg

theorem Step.past_eq (h : Step log c log') :
    log'.past = log.past ++ [c] ∧ log'.layer.maxSeen = log.layer.maxSeen := by
  cases h with
  | quiet hpast _ _ hmax => exact ⟨hpast, hmax⟩
  | announced _ _ hpast _ _ _ hmax => exact ⟨hpast, hmax⟩

/-! ### The hashes seen -/

/-- The order lists what was seen, each hash once, and not too many. -/
structure Bounded (layer : GossipLayer) : Prop where
  lists : Recent.Lists layer.seenSet layer.seenOrder
  length_le : layer.seenOrder.length ≤ layer.maxSeen

theorem bounded_new (peerManager : PeerManager) (maxSeen : Nat) :
    Bounded (new peerManager maxSeen) :=
  ⟨⟨List.nodup_nil, fun _ => Iff.rfl⟩, Nat.zero_le _⟩

theorem Bounded.step (h : log.layer.Bounded) (hstep : Step log c log') : log'.layer.Bounded := by
  cases hstep with
  | quiet hpast hset horder hmax =>
    constructor
    · rw [hset, horder]
      exact h.lists
    · rw [horder, hmax]
      exact h.length_le
  | announced hash ids hpast hhash hnew hmark hmax =>
    have hmarked := h.lists.mark h.length_le hash
    rw [← hmark] at hmarked
    exact ⟨hmarked.1, hmax ▸ hmarked.2⟩

/-! ### At most once -/

theorem hashes_concat : hashes (past ++ [c]) = hashes past ++ c.hash.toList := by
  rw [hashes, List.filterMap_append, hashes]
  cases hc : c.hash with
  | none => simp [hc]
  | some hash => simp [hc]

theorem firstSource_of_mem (h : hash ∈ hashes past) :
    firstSource (past ++ [c]) hash = firstSource past hash := by
  obtain ⟨d, hd, hhash⟩ := List.mem_filterMap.mp h
  obtain ⟨e, he⟩ := Option.isSome_iff_exists.mp
    (List.find?_isSome.mpr ⟨d, hd, by simpa using hhash⟩ :
      (past.find? fun c => c.hash == some hash).isSome)
  rw [firstSource, firstSource, List.find?_append, he, Option.some_or]

theorem firstSource_of_notMem (h : hash ∉ hashes past) (hc : c.hash = some hash) :
    firstSource (past ++ [c]) hash = c.source := by
  have hnone : (past.find? fun c => c.hash == some hash) = none := by
    rw [List.find?_eq_none]
    intro d hd heq
    exact h (List.mem_filterMap.mpr ⟨d, hd, by simpa using heq⟩)
  rw [firstSource, List.find?_append, hnone, Option.none_or, List.find?_singleton]
  simp [hc]

/-- No one is sent a hash twice, and the peer it came from is not sent it. -/
structure Once (log : Log) : Prop where
  sent_nodup : log.sent.Nodup
  sent_cases : ∀ p ∈ log.sent, ∃ hash, p.2 = some hash ∧ hash ∈ hashes log.past ∧
    firstSource log.past hash ≠ some p.1

/-- The hashes of the run fit into what is kept. -/
def Log.Few (log : Log) : Prop :=
  (hashes log.past).toFinset.card ≤ log.layer.maxSeen

/-- While the hashes are few, those of the run have all been seen. -/
structure Remembers (log : Log) : Prop extends Once log where
  seen_iff : ∀ hash, hash ∈ log.layer.seenSet ↔ hash ∈ hashes log.past

theorem Log.Few.of_step (hstep : Step log c log') (h : log'.Few) : log.Few := by
  rw [Log.Few, hstep.past_eq.1, hstep.past_eq.2, hashes_concat] at h
  refine le_trans (Finset.card_le_card ?_) h
  intro hash hmem
  simp only [List.mem_toFinset, List.mem_append] at hmem ⊢
  exact Or.inl hmem

theorem room_of_few (hlists : Recent.Lists log.layer.seenSet log.layer.seenOrder)
    (hseen : ∀ hash, hash ∈ log.layer.seenSet ↔ hash ∈ hashes log.past)
    (hnew : hash ∉ log.layer.seenSet)
    (hfew : (hashes log.past ++ [hash]).toFinset.card ≤ log.layer.maxSeen) :
    log.layer.seenOrder.length < log.layer.maxSeen := by
  have hsub : (log.layer.seenOrder ++ [hash]).toFinset ⊆ (hashes log.past ++ [hash]).toFinset := by
    intro other hmem
    simp only [List.mem_toFinset, List.mem_append] at hmem ⊢
    rcases hmem with hmem | hmem
    · exact Or.inl ((hseen other).mp ((hlists.mem_iff other).mpr hmem))
    · exact Or.inr hmem
  have hcard := List.toFinset_card_of_nodup (hlists.concat hnew).nodup
  rw [List.length_append, List.length_singleton] at hcard
  have hle := (Finset.card_le_card hsub).trans hfew
  omega

theorem Remembers.step (h : Remembers log) (hbounded : log.layer.Bounded)
    (hstep : Step log c log') (hfew : log'.Few) : Remembers log' := by
  cases hstep with
  | quiet hpast hset horder hmax hqueued hseen =>
    have hmem : ∀ hash, hash ∈ hashes log'.past ↔ hash ∈ hashes log.past := by
      intro hash
      rw [hpast, hashes_concat, List.mem_append, Option.mem_toList]
      exact ⟨fun hmem => hmem.elim id fun hc => (h.seen_iff hash).mp (hseen hash hc), Or.inl⟩
    have hsent : log'.sent = log.sent := by rw [Log.sent, hqueued, Log.sent]
    refine ⟨⟨hsent ▸ h.sent_nodup, ?_⟩, fun hash => ?_⟩
    · intro p hp
      rw [hsent] at hp
      obtain ⟨hash, hhash, hpastMem, hfirst⟩ := h.sent_cases p hp
      refine ⟨hash, hhash, (hmem hash).mpr hpastMem, ?_⟩
      rwa [hpast, firstSource_of_mem hpastMem]
    · rw [hset, h.seen_iff, hmem]
  | announced hash ids hpast hhash hnew hmark hmax hids hsource hsent =>
    have hnot : hash ∉ hashes log.past := fun hmem => hnew ((h.seen_iff hash).mpr hmem)
    have hpastHashes : hashes log'.past = hashes log.past ++ [hash] := by
      rw [hpast, hashes_concat, hhash]
      rfl
    rw [Log.Few, hpastHashes, hmax] at hfew
    rw [Recent.mark_of_lt hnew (room_of_few hbounded.lists h.seen_iff hnew hfew)] at hmark
    obtain ⟨hset, -⟩ := Prod.mk.inj hmark
    refine ⟨⟨?_, ?_⟩, fun other => ?_⟩
    · rw [hsent]
      refine List.nodup_append.mpr ⟨h.sent_nodup, ?_, ?_⟩
      · exact hids.map fun a b heq => (Prod.mk.inj heq).1
      · rintro p hp q hq rfl
        obtain ⟨_, _, rfl⟩ := List.mem_map.mp hq
        obtain ⟨other, heq, hmem, _⟩ := h.sent_cases _ hp
        cases heq
        exact hnot hmem
    · intro p hp
      rw [hsent, List.mem_append] at hp
      rcases hp with hp | hp
      · obtain ⟨other, heq, hmem, hfirst⟩ := h.sent_cases p hp
        refine ⟨other, heq, by rw [hpastHashes]; exact List.mem_append_left _ hmem, ?_⟩
        rwa [hpast, firstSource_of_mem hmem]
      · obtain ⟨id, hid, rfl⟩ := List.mem_map.mp hp
        refine ⟨hash, rfl, by rw [hpastHashes]; exact List.mem_append_right _ (by simp), ?_⟩
        rw [hpast, firstSource_of_notMem hnot hhash]
        exact hsource id hid
    · rw [hset, hpastHashes, Finset.mem_insert, h.seen_iff, List.mem_append, List.mem_singleton]
      exact Or.comm

theorem past_foldl (calls : List Call) (log : Log) :
    (calls.foldl Log.call log).past = log.past ++ calls ∧
      (calls.foldl Log.call log).layer.maxSeen = log.layer.maxSeen := by
  induction calls generalizing log with
  | nil => exact ⟨(List.append_nil _).symm, rfl⟩
  | cons c calls ih =>
    obtain ⟨hpast, hmax⟩ := ih (log.call c)
    have hstep := (step_call log c).past_eq
    rw [List.foldl_cons]
    refine ⟨?_, hmax.trans hstep.2⟩
    rw [hpast, hstep.1, List.append_assoc, List.singleton_append]

theorem remembers_start (peerManager : PeerManager) (maxSeen : Nat) :
    Remembers (.start peerManager maxSeen) :=
  ⟨⟨List.nodup_nil, fun _ h => nomatch h⟩, fun _ => Iff.rfl⟩

/-- After every run the hashes are kept in order, each once and not too many; and if
those of the run fit into what is kept, each was queued for a peer at most once, and
not for the one whose message was the first about it. -/
theorem gossip_once (peerManager : PeerManager) (maxSeen : Nat) (calls : List Call) :
    (calls.foldl Log.call (.start peerManager maxSeen)).layer.Bounded ∧
      ((hashes calls).toFinset.card ≤ maxSeen →
        Once (calls.foldl Log.call (.start peerManager maxSeen))) := by
  obtain ⟨hbounded, hremembers⟩ := @visited_preserve _ _ Log.call
    (fun log => log.layer.Bounded ∧ (log.Few → Remembers log)) (.start peerManager maxSeen) calls
    ⟨bounded_new peerManager maxSeen, fun _ => remembers_start peerManager maxSeen⟩
    (fun log c ⟨hbounded, hremembers⟩ => ⟨hbounded.step (step_call log c), fun hfew =>
      (hremembers (hfew.of_step (step_call log c))).step hbounded (step_call log c) hfew⟩)
    _ foldl_mem_visited
  refine ⟨hbounded, fun hcard => (hremembers ?_).toOnce⟩
  obtain ⟨hpast, hmax⟩ := past_foldl calls (.start peerManager maxSeen)
  rw [Log.Few, hpast, hmax]
  exact hcard

/-- Two peers that hear of one block from each other. -/
def samplePeers : PeerManager :=
  let peer id : Peer := ⟨.replicate 32 id, .v4 (.replicate 4 id) 30303, 0, 0, true⟩
  ((PeerManager.new (.replicate 32 0) 10).store (peer 1)).store (peer 2)

def sampleCalls : List Call :=
  let block : BlockHeader := ⟨1, .replicate 32 7, .replicate 32 0, 0, 0, 0, .replicate 32 0⟩
  [.handleMessage (.replicate 32 1) (.newBlock block) 0 0 .still,
    .handleMessage (.replicate 32 2) (.newBlock block) 0 0 .still]

/-- There is room for one hash, and the run is about one. -/
theorem gossip_once_block : Once (sampleCalls.foldl Log.call (.start samplePeers 1)) :=
  (gossip_once samplePeers 1 sampleCalls).2 (by decide)

end GossipLayer

end Oikos.Koinon.Network
