/-
The network node of `koinon-network`: it registers the peers that shake hands on
its connections, passes messages to the gossip layer, and reports events.
-/
import Oikos.Koinon.Gossip

namespace Oikos.Koinon.Network

open List

abbrev ConnId := UInt64

def protocolVersion : UInt32 := 1

def maxSeenMessages : Nat := 10000

inductive NetworkEvent where
  | blockReceived (header : BlockHeader)
  | transactionReceived (tx : WireTx)
  | peerConnected (id : PeerId) (addr : SocketAddr)
  | peerDisconnected (id : PeerId)
  | syncNeeded (height : UInt64)
deriving DecidableEq

/-- The transport is outside: its messages and addresses come in with a poll, and
what is sent goes out. -/
structure NetworkNode where
  gossip : GossipLayer
  myId : PeerId
  chainId : UInt64
  bestHeight : UInt64
  shutdown : Bool
  connToPeer : Table ConnId PeerId
  peerToConn : Table PeerId ConnId
  peerTimeoutSecs : UInt64

/-- A raw message, with what the transport, the clock and the random choice say while
it is handled. -/
structure Incoming where
  connId : ConnId
  msg : NetworkMessage
  addr : Option SocketAddr
  now : Instant
  shuffle : Shuffle

/-- What is sent on a connection. -/
abbrev Outgoing := ConnId × NetworkMessage

structure Poll where
  accepted : Option ConnId
  messages : List Incoming
  now : Instant

namespace NetworkNode

def new (myId : PeerId) (chainId : UInt64) (maxPeers : Nat) (peerTimeoutSecs : UInt64) :
    NetworkNode where
  gossip := .new (.new myId maxPeers) maxSeenMessages
  myId := myId
  chainId := chainId
  bestHeight := 0
  shutdown := false
  connToPeer := .empty
  peerToConn := .empty
  peerTimeoutSecs := peerTimeoutSecs

def setBestHeight (node : NetworkNode) (height : UInt64) : NetworkNode :=
  { node with bestHeight := height }

def handshake (node : NetworkNode) : NetworkMessage :=
  .handshake node.chainId node.myId protocolVersion

def broadcastBlock (node : NetworkNode) (header : BlockHeader) (shuffle : Shuffle) : NetworkNode :=
  { node with
    gossip := node.gossip.gossipBlock header shuffle
    bestHeight := if node.bestHeight < header.height then header.height else node.bestHeight }

def broadcastTransaction (node : NetworkNode) (tx : WireTx) (shuffle : Shuffle) : NetworkNode :=
  { node with gossip := node.gossip.gossipTransaction tx shuffle }

def shutDown (node : NetworkNode) : NetworkNode :=
  { node with shutdown := true }

/-- `0.0.0.0:0`. -/
def unknownAddr : SocketAddr :=
  .v4 (.replicate 4 0) 0

def register (node : NetworkNode) (m : Incoming) (peerId : PeerId) : Option NetworkNode :=
  match node.gossip.peerManager.addPeer peerId (m.addr.getD unknownAddr) m.now with
  | .error _ => none
  | .ok peerManager =>
    some { node with
      gossip := { node.gossip with peerManager }
      connToPeer := node.connToPeer.insert m.connId peerId
      peerToConn := node.peerToConn.insert peerId m.connId }

def greet (node : NetworkNode) (m : Incoming) (myHeight : UInt64) :
    Option (NetworkNode × List NetworkEvent × List NetworkMessage) :=
  match m.msg with
  | .handshake chainId nodeId version =>
    if chainId ≠ node.chainId then none
    else if version ≠ protocolVersion then none
    else
      (node.register m nodeId).map fun node =>
        (node, [.peerConnected nodeId (m.addr.getD unknownAddr)],
          [.handshakeAck node.chainId node.myId myHeight])
  | .handshakeAck chainId nodeId bestHeight =>
    if chainId ≠ node.chainId then none
    else
      (node.register m nodeId).map fun node =>
        ({ node with gossip := node.gossip.updateHeight nodeId bestHeight m.now },
          .peerConnected nodeId (m.addr.getD unknownAddr) ::
            if myHeight < bestHeight then [.syncNeeded bestHeight] else [], [])
  | _ => none

def forwarded : NetworkMessage → Option NetworkEvent
  | .newBlock header => some (.blockReceived header)
  | .newTransaction tx => some (.transactionReceived tx)
  | _ => none

/-- One turn of the loop over the raw messages. -/
def receive (node : NetworkNode) (m : Incoming) (myHeight : UInt64) :
    NetworkNode × List NetworkEvent × List Outgoing :=
  let handled : Option (NetworkNode × List NetworkEvent × List NetworkMessage) :=
    match node.connToPeer.get m.connId with
    | some peerId =>
      let (gossip, responses) := node.gossip.handleMessage peerId m.msg myHeight m.now m.shuffle
      some ({ node with gossip }, [], responses)
    | none => node.greet m myHeight
  match handled with
  | none => (node, [], [])
  | some (node, events, responses) =>
    (node, events ++ responses.filterMap forwarded, responses.map fun r => (m.connId, r))

/-- The loop over the raw messages. -/
def receiveAll (node : NetworkNode) (myHeight : UInt64) :
    List Incoming → NetworkNode × List NetworkEvent × List Outgoing
  | [] => (node, [], [])
  | m :: ms =>
    let (node, events, out) := node.receive m myHeight
    let (node, events', out') := receiveAll node myHeight ms
    (node, events ++ events', out ++ out')

/-- Send what the gossip layer has queued, to the peers that have a connection. -/
def drain (node : NetworkNode) : NetworkNode × List Outgoing :=
  let (pending, gossip) := node.gossip.getPendingMessages
  ({ node with gossip },
    pending.filterMap fun p => (node.peerToConn.get p.1).map fun connId => (connId, p.2))

def setPeers (node : NetworkNode) (peerManager : PeerManager) : NetworkNode :=
  { node with gossip := { node.gossip with peerManager } }

def pruneStale (node : NetworkNode) (now : Instant) : NetworkNode :=
  node.setPeers (node.gossip.peerManager.pruneStale (node.peerTimeoutSecs.toNat * 1000000000) now)

def dropDisconnected (node : NetworkNode) : NetworkNode × List NetworkEvent :=
  let gone := (node.gossip.peerManager.getPeers.map Peer.id).filter fun id =>
    (node.peerToConn.get id).isNone
  (node.setPeers (gone.foldl PeerManager.removePeer node.gossip.peerManager),
    gone.map .peerDisconnected)

def poll (node : NetworkNode) (input : Poll) : NetworkNode × List NetworkEvent × List Outgoing :=
  if node.shutdown then (node, [], [])
  else
    let greeting := input.accepted.toList.map fun connId => (connId, node.handshake)
    let (node, events, responses) := node.receiveAll node.bestHeight input.messages
    let (node, gossiped) := node.drain
    let (node, disconnected) := (node.pruneStale input.now).dropDisconnected
    (node, events ++ disconnected, greeting ++ responses ++ gossiped)

/-! ### Deliveries -/

variable {node : NetworkNode} {m : Incoming} {ms : List Incoming} {myHeight : UInt64} {input : Poll}
  {p : PeerId} {connId : ConnId}

def isDelivery : NetworkEvent → Bool
  | .blockReceived _ | .transactionReceived _ => true
  | _ => false

/-- A block or a transaction that was not seen before, on a registered connection. -/
def fresh (node : NetworkNode) (m : Incoming) : Bool :=
  (node.connToPeer.get m.connId).isSome &&
    m.msg.announced.any fun hash => !node.gossip.isSeen hash

def due (node : NetworkNode) (myHeight : UInt64) : List Incoming → List NetworkEvent
  | [] => []
  | m :: ms =>
    (if node.fresh m then (forwarded m.msg).toList else []) ++
      due (node.receive m myHeight).1 myHeight ms

def taken (node : NetworkNode) (input : Poll) : List Incoming :=
  if node.shutdown then [] else input.messages

/-- A poll tells of the fresh blocks and transactions, of each once and in order, and
of no others. -/
def Delivers (node : NetworkNode) (input : Poll) : Prop :=
  (node.poll input).2.1.filter isDelivery = node.due node.bestHeight (node.taken input)

/-- No message is fresh when its turn comes. -/
def NothingFresh (node : NetworkNode) (myHeight : UInt64) : List Incoming → Prop
  | [] => True
  | m :: ms => node.fresh m = false ∧ NothingFresh (node.receive m myHeight).1 myHeight ms

theorem forwarded_responses {layer : GossipLayer} {source : PeerId} {msg : NetworkMessage}
    {now : Instant} {shuffle : Shuffle} :
    (layer.handleMessage source msg myHeight now shuffle).2.filterMap forwarded = [] := by
  cases msg with
  | _ => rfl

theorem greet_events {node' : NetworkNode} {events : List NetworkEvent}
    {responses : List NetworkMessage}
    (h : node.greet m myHeight = some (node', events, responses)) :
    events.filter isDelivery = [] ∧ responses.filterMap forwarded = [] := by
  unfold greet at h
  split at h
  · split at h
    · cases h
    · split at h
      · cases h
      · obtain ⟨_, _, heq⟩ := Option.map_eq_some_iff.mp h
        cases heq
        exact ⟨rfl, rfl⟩
  · split at h
    · cases h
    · obtain ⟨_, _, heq⟩ := Option.map_eq_some_iff.mp h
      cases heq
      refine ⟨?_, rfl⟩
      split <;> rfl
  · cases h

theorem receive_events (node : NetworkNode) (m : Incoming) (myHeight : UInt64) :
    (node.receive m myHeight).2.1.filter isDelivery = [] := by
  unfold receive
  cases hconn : node.connToPeer.get m.connId with
  | some peerId =>
    dsimp only
    rw [forwarded_responses]
    rfl
  | none =>
    dsimp only
    cases hgreet : node.greet m myHeight with
    | none => rfl
    | some greeted =>
      obtain ⟨node', events, responses⟩ := greeted
      obtain ⟨hevents, hresponses⟩ := greet_events hgreet
      dsimp only
      rw [hresponses, append_nil, hevents]

theorem receiveAll_events (node : NetworkNode) (myHeight : UInt64) (ms : List Incoming) :
    (node.receiveAll myHeight ms).2.1.filter isDelivery = [] := by
  induction ms generalizing node with
  | nil => rfl
  | cons m ms ih =>
    unfold receiveAll
    dsimp only
    rw [filter_append, receive_events, ih]
    rfl

theorem poll_events (node : NetworkNode) (input : Poll) :
    (node.poll input).2.1.filter isDelivery = [] := by
  unfold poll
  split
  · rfl
  · dsimp only
    rw [filter_append, receiveAll_events, nil_append, dropDisconnected,
      filter_map, map_eq_nil_iff, filter_eq_nil_iff]
    intro id _
    exact Bool.false_ne_true

theorem due_eq_nil_iff : node.due myHeight ms = [] ↔ node.NothingFresh myHeight ms := by
  induction ms generalizing node with
  | nil => simp [due, NothingFresh]
  | cons m ms ih =>
    rw [due, NothingFresh, append_eq_nil_iff, ih]
    refine and_congr_left fun _ => ?_
    split
    · next hfresh =>
      refine iff_of_false ?_ (by simp [hfresh])
      have hannounced := (Bool.and_eq_true_iff.mp hfresh).2
      cases hmsg : m.msg with
      | newBlock header => simp [forwarded]
      | newTransaction tx => simp [forwarded]
      | _ => simp [hmsg, NetworkMessage.announced] at hannounced
    · next hstale => simp [hstale]

/-- A poll delivers as it should exactly if there is nothing to deliver. -/
theorem delivers_iff (node : NetworkNode) (input : Poll) :
    node.Delivers input ↔ node.NothingFresh node.bestHeight (node.taken input) := by
  rw [Delivers, poll_events, ← due_eq_nil_iff]
  exact eq_comm

def sampleHeader (height : UInt64) (hash : TxHash) : BlockHeader :=
  ⟨height, hash, .replicate 32 0, 0, 0, 0, .replicate 32 0⟩

/-- A message with no address, at time 0. -/
def sampleIncoming (connId : ConnId) (msg : NetworkMessage) : Incoming :=
  ⟨connId, msg, none, 0, .still⟩

/-- A node that one peer has shaken hands with. -/
def sampleNode : NetworkNode :=
  ((new (.replicate 32 0) 1 10 60).poll
    ⟨none, [sampleIncoming 1 (.handshake 1 (.replicate 32 1) 1)], 0⟩).1

/-- A block from the peer is not reported. -/
theorem block_not_reported :
    sampleNode.due 0 [sampleIncoming 1 (.newBlock (sampleHeader 1 (.replicate 32 7)))] =
        [.blockReceived (sampleHeader 1 (.replicate 32 7))] ∧
      (sampleNode.poll
        ⟨none, [sampleIncoming 1 (.newBlock (sampleHeader 1 (.replicate 32 7)))], 0⟩).2.1 = [] ∧
      ¬ sampleNode.Delivers
        ⟨none, [sampleIncoming 1 (.newBlock (sampleHeader 1 (.replicate 32 7)))], 0⟩ := by
  refine ⟨rfl, rfl, ?_⟩
  intro h
  cases h

/-! ### Registrations -/

/-- A step of the node; a poll takes several of them. -/
inductive Action where
  | receive (m : Incoming) (myHeight : UInt64)
  | drain
  | pruneStale (now : Instant)
  | dropDisconnected
  | broadcastBlock (header : BlockHeader) (shuffle : Shuffle)
  | broadcastTransaction (tx : WireTx) (shuffle : Shuffle)
  | setBestHeight (height : UInt64)
  | shutDown

def step (node : NetworkNode) : Action → NetworkNode
  | .receive m myHeight => (node.receive m myHeight).1
  | .drain => node.drain.1
  | .pruneStale now => node.pruneStale now
  | .dropDisconnected => node.dropDisconnected.1
  | .broadcastBlock header shuffle => node.broadcastBlock header shuffle
  | .broadcastTransaction tx shuffle => node.broadcastTransaction tx shuffle
  | .setBestHeight height => node.setBestHeight height
  | .shutDown => node.shutDown

def pollActions (node : NetworkNode) (input : Poll) : List Action :=
  if node.shutdown then []
  else (input.messages.map fun m => .receive m node.bestHeight) ++
    [.drain, .pruneStale input.now, .dropDisconnected]

theorem receiveAll_node (node : NetworkNode) (myHeight : UInt64) (ms : List Incoming) :
    (node.receiveAll myHeight ms).1 = (ms.map fun m => .receive m myHeight).foldl step node := by
  induction ms generalizing node with
  | nil => rfl
  | cons m ms ih => exact ih (node.receive m myHeight).1

/-- A poll is the run of its actions. -/
theorem poll_node (node : NetworkNode) (input : Poll) :
    (node.poll input).1 = (node.pollActions input).foldl step node := by
  unfold poll pollActions
  split
  · rfl
  · rw [foldl_append, ← receiveAll_node]
    rfl

/-- The two maps are inverse to each other. -/
def Inverse (node : NetworkNode) : Prop :=
  ∀ p c, node.peerToConn.get p = some c ↔ node.connToPeer.get c = some p

def Registered (node : NetworkNode) : Prop :=
  ∀ p c, node.peerToConn.get p = some c → node.connToPeer.get c = some p

/-- The peer that a message would register. -/
def greets (node : NetworkNode) (m : Incoming) : Option PeerId :=
  match m.msg with
  | .handshake chainId nodeId version =>
    if chainId = node.chainId ∧ version = protocolVersion then some nodeId else none
  | .handshakeAck chainId nodeId _ => if chainId = node.chainId then some nodeId else none
  | _ => none

/-- No message on a new connection registers a peer that has one already. -/
def Careful (node : NetworkNode) : Action → Prop
  | .receive m _ => node.connToPeer.get m.connId = none → ∀ p, node.greets m = some p →
      (node.register m p).isSome = true → node.peerToConn.get p = none
  | _ => True

def KeepsConnections (node : NetworkNode) (a : Action) : Prop :=
  ∀ p c, node.peerToConn.get p = some c → (node.step a).peerToConn.get p = some c

def GossipsHome (node : NetworkNode) : Prop :=
  ∀ c msg, (c, msg) ∈ node.drain.2 → ∃ p, (p, msg) ∈ node.gossip.messageQueue ∧
    node.peerToConn.get p = some c ∧ node.connToPeer.get c = some p

/-- What a step does to the maps. -/
inductive Registers (node : NetworkNode) (a : Action) (node' : NetworkNode) : Prop
  | same (hconn : node'.connToPeer = node.connToPeer) (hpeer : node'.peerToConn = node.peerToConn)
      (hcareful : node.Careful a)
  | new (m : Incoming) (myHeight : UInt64) (p : PeerId) (ha : a = .receive m myHeight)
      (hnew : node.connToPeer.get m.connId = none) (hgreets : node.greets m = some p)
      (haccepted : (node.register m p).isSome = true)
      (hconn : node'.connToPeer = node.connToPeer.insert m.connId p)
      (hpeer : node'.peerToConn = node.peerToConn.insert p m.connId)

theorem register_maps {node' : NetworkNode} (h : node.register m p = some node') :
    node'.connToPeer = node.connToPeer.insert m.connId p ∧
      node'.peerToConn = node.peerToConn.insert p m.connId := by
  unfold register at h
  split at h
  · cases h
  · cases h
    exact ⟨rfl, rfl⟩

theorem greet_cases (node : NetworkNode) (m : Incoming) (myHeight : UInt64) :
    (∃ p node' events responses, node.greet m myHeight = some (node', events, responses) ∧
      node.greets m = some p ∧ (node.register m p).isSome = true ∧
      node'.connToPeer = node.connToPeer.insert m.connId p ∧
      node'.peerToConn = node.peerToConn.insert p m.connId) ∨
    (node.greet m myHeight = none ∧
      ∀ p, node.greets m = some p → (node.register m p).isSome = false) := by
  unfold greet greets
  split
  · next chainId nodeId version hmsg =>
    by_cases hchain : chainId = node.chainId
    · by_cases hversion : version = protocolVersion
      · rw [if_neg (not_not.mpr hchain), if_neg (not_not.mpr hversion), if_pos ⟨hchain, hversion⟩]
        cases hregister : node.register m nodeId with
        | none => exact Or.inr ⟨rfl, fun p hp => by cases hp; rw [hregister]; rfl⟩
        | some node' =>
          exact Or.inl ⟨nodeId, node', _, _, rfl, rfl, by rw [hregister]; rfl,
            register_maps hregister⟩
      · rw [if_neg (not_not.mpr hchain), if_pos hversion, if_neg fun h => hversion h.2]
        exact Or.inr ⟨rfl, fun p hp => nomatch hp⟩
    · rw [if_pos hchain, if_neg fun h => hchain h.1]
      exact Or.inr ⟨rfl, fun p hp => nomatch hp⟩
  · next chainId nodeId bestHeight hmsg =>
    by_cases hchain : chainId = node.chainId
    · rw [if_neg (not_not.mpr hchain), if_pos hchain]
      cases hregister : node.register m nodeId with
      | none => exact Or.inr ⟨rfl, fun p hp => by cases hp; rw [hregister]; rfl⟩
      | some node' =>
        obtain ⟨hconn, hpeer⟩ := register_maps hregister
        exact Or.inl ⟨nodeId, _, _, _, rfl, rfl, by rw [hregister]; rfl, hconn, hpeer⟩
    · rw [if_pos hchain, if_neg hchain]
      exact Or.inr ⟨rfl, fun p hp => nomatch hp⟩
  · next hhandshake hack =>
    exact Or.inr ⟨rfl, fun p hp => nomatch hp⟩

theorem registers_step (node : NetworkNode) (a : Action) : Registers node a (node.step a) := by
  cases a with
  | receive m myHeight =>
    cases hconn : node.connToPeer.get m.connId with
    | some peerId =>
      refine .same ?_ ?_ fun hnew => by simp [hconn] at hnew
      · simp only [step, receive, hconn]
      · simp only [step, receive, hconn]
    | none =>
      rcases greet_cases node m myHeight with
        ⟨p, node', events, responses, hgreet, hgreets, haccepted, hconn', hpeer'⟩ |
        ⟨hgreet, hrejected⟩
      · refine .new m myHeight p rfl hconn hgreets haccepted ?_ ?_
        · simp only [step, receive, hconn, hgreet, hconn']
        · simp only [step, receive, hconn, hgreet, hpeer']
      · refine .same ?_ ?_ ?_
        · simp only [step, receive, hconn, hgreet]
        · simp only [step, receive, hconn, hgreet]
        · intro _ p hp haccepted
          rw [hrejected p hp] at haccepted
          cases haccepted
  | _ => exact .same rfl rfl trivial

theorem Registered.step (h : node.Registered) (a : Action) : (node.step a).Registered := by
  cases registers_step node a with
  | same hconn hpeer _ =>
    intro p c hp
    rw [hpeer] at hp
    rw [hconn]
    exact h p c hp
  | new m myHeight q ha hnew _ _ hconn hpeer =>
    intro p c hp
    rw [hpeer, Table.get_insert] at hp
    rw [hconn, Table.get_insert]
    split at hp
    · next heq =>
      cases hp
      rw [if_pos rfl, heq]
    · have hc := h p c hp
      rw [if_neg]
      · exact hc
      · rintro rfl
        rw [hnew] at hc
        cases hc

/-- The maps stay inverse exactly where no peer is registered anew. -/
theorem Inverse.step_iff (h : node.Inverse) (a : Action) :
    (node.step a).Inverse ↔ node.Careful a := by
  cases registers_step node a with
  | same hconn hpeer hcareful =>
    refine iff_of_true ?_ hcareful
    intro p c
    rw [hpeer, hconn]
    exact h p c
  | new m myHeight q ha hnew hgreets haccepted hconn hpeer =>
    subst ha
    constructor
    · intro hinverse _ p hp _
      obtain rfl := Option.some.inj (hgreets.symm.trans hp)
      -- an earlier connection would still lead to the peer
      by_contra hold
      obtain ⟨c, hc⟩ := Option.ne_none_iff_exists'.mp hold
      have hback := (h q c).mp hc
      have hne : c ≠ m.connId := by
        rintro rfl
        rw [hnew] at hback
        cases hback
      have hstale : (node.step (.receive m myHeight)).connToPeer.get c = some q := by
        rw [hconn, Table.get_insert, if_neg hne, hback]
      have hforward := (hinverse q c).mpr hstale
      rw [hpeer, Table.get_insert, if_pos rfl] at hforward
      exact hne (Option.some.inj hforward).symm
    · intro hcareful p c
      have hfree := hcareful hnew q hgreets haccepted
      rw [hpeer, hconn, Table.get_insert, Table.get_insert]
      by_cases hp : p = q
      · by_cases hc : c = m.connId
        · rw [if_pos hp, if_pos hc, hp, hc]
          exact iff_of_true rfl rfl
        · rw [if_pos hp, if_neg hc, ← h p c, hp, hfree]
          exact iff_of_false (fun heq => hc (Option.some.inj heq).symm) (fun heq => nomatch heq)
      · by_cases hc : c = m.connId
        · rw [if_neg hp, if_pos hc, h p c, hc, hnew]
          exact iff_of_false (fun heq => nomatch heq) (fun heq => hp (Option.some.inj heq).symm)
        · rw [if_neg hp, if_neg hc]
          exact h p c

theorem Careful.keepsConnections {a : Action} (h : node.Careful a) : node.KeepsConnections a := by
  intro p c hp
  cases registers_step node a with
  | same _ hpeer _ => rw [hpeer, hp]
  | new m myHeight q ha hnew hgreets haccepted _ hpeer =>
    subst ha
    have hfree := h hnew q hgreets haccepted
    rw [hpeer, Table.get_insert, if_neg, hp]
    rintro rfl
    rw [hp] at hfree
    cases hfree

theorem Registered.gossipsHome (h : node.Registered) : node.GossipsHome := by
  intro c msg hmem
  obtain ⟨⟨p, msg'⟩, hqueued, hsent⟩ := mem_filterMap.mp hmem
  obtain ⟨c', hc', heq⟩ := Option.map_eq_some_iff.mp hsent
  cases heq
  exact ⟨p, hqueued, hc', h p c hc'⟩

/-- In every run of a new node, gossip for a peer is sent on a connection that it is
registered on.  The maps are inverse to each other throughout, and no peer loses its
connection, if and only if no message registers a peer that has one already. -/
theorem registrations_inverse_iff (myId : PeerId) (chainId : UInt64) (maxPeers : Nat)
    (peerTimeoutSecs : UInt64) (actions : List Action) :
    (∀ t ∈ visited step (new myId chainId maxPeers peerTimeoutSecs) actions, t.GossipsHome) ∧
      ((∀ t ∈ visited step (new myId chainId maxPeers peerTimeoutSecs) actions, t.Inverse) ∧
          Meets step KeepsConnections (new myId chainId maxPeers peerTimeoutSecs) actions ↔
        Meets step Careful (new myId chainId maxPeers peerTimeoutSecs) actions) := by
  have hstart : (new myId chainId maxPeers peerTimeoutSecs).Inverse := fun p c =>
    iff_of_false (fun h => nomatch h) (fun h => nomatch h)
  have hiff := @forall_visited_iff_meets _ _ step Careful Inverse _ actions (fun _ => True)
    (fun _ _ _ => trivial) (fun t a _ h => Inverse.step_iff h a) trivial hstart
  refine ⟨fun t ht => ?_, fun h => hiff.mp h.1, fun h => ⟨hiff.mpr h, h.mono fun _ _ =>
    Careful.keepsConnections⟩⟩
  have hregistered := @visited_preserve _ _ step Registered _ actions
    (fun p c hp => (hstart p c).mp hp) (fun _ a h => h.step a) t ht
  exact hregistered.gossipsHome

/-- A second connection takes over the peer of the first one. -/
theorem connection_taken_over :
    ((new (.replicate 32 0) 1 10 60).step
        (.receive (sampleIncoming 1 (.handshake 1 (.replicate 32 1) 1)) 0)).peerToConn.get
          (.replicate 32 1) = some 1 ∧
      ¬ ∀ t ∈ visited step (new (.replicate 32 0) 1 10 60)
        [.receive (sampleIncoming 1 (.handshake 1 (.replicate 32 1) 1)) 0,
          .receive (sampleIncoming 2 (.handshake 1 (.replicate 32 1) 1)) 0], t.Inverse := by
  refine ⟨rfl, ?_⟩
  intro h
  have hlast := (h _ foldl_mem_visited (.replicate 32 1) 1).mpr rfl
  cases hlast

end NetworkNode

end Oikos.Koinon.Network
