/-
Messages of `koinon-network` on the wire: a length of four bytes, then the JSON text that
the derived serializers write.  The reader refuses frames over 16 MiB, the writer does not;
no text begins another one.
-/
import Oikos.Lib.Bits
import Oikos.Koinon.Wire
import Oikos.Lib.Json

namespace Oikos.Koinon.Network

section Framing

/-- `serde_json`, as far as the transport uses it. -/
structure Serde where
  toVec : NetworkMessage → Option (List UInt8)
  fromSlice : List UInt8 → Option NetworkMessage

def maxFrame : Nat :=
  16 * 1024 * 1024

/-- `(len as u32).to_be_bytes()`: the low four bytes of the length, highest first. -/
def lengthPrefix (len : Nat) : List UInt8 :=
  (leBytes 4 len).reverse

/-- The bytes that are written, or an error before anything is. -/
def writeFrame (serde : Serde) (msg : NetworkMessage) : Option (List UInt8) :=
  (serde.toVec msg).map fun payload => lengthPrefix payload.length ++ payload

/-- `read_exact`: the next `n` bytes and what follows them, if there are as many. -/
def readExact (n : Nat) (input : List UInt8) : Option (List UInt8 × List UInt8) :=
  if input.length < n then none else some (input.take n, input.drop n)

/-- A message and the bytes after it, or an error. -/
def readFrame (serde : Serde) (input : List UInt8) : Option (NetworkMessage × List UInt8) :=
  (readExact 4 input).bind fun (lenBuf, rest) =>
    let len := leValue lenBuf.reverse
    if maxFrame < len then none
    else
      (readExact len rest).bind fun (payload, rest) =>
        (serde.fromSlice payload).map fun msg => (msg, rest)

/-- The messages that the reader delivers before its first error.  A frame takes
at least four bytes, so the bytes of the input are fuel enough. -/
def readerLoop (serde : Serde) : Nat → List UInt8 → List NetworkMessage
  | 0, _ => []
  | fuel + 1, input =>
    match readFrame serde input with
    | some (msg, rest) => msg :: readerLoop serde fuel rest
    | none => []

def received (serde : Serde) (input : List UInt8) : List NetworkMessage :=
  readerLoop serde (input.length + 1) input

/-- The stream of messages that are written one after another. -/
def writeAll (serde : Serde) : List NetworkMessage → Option (List UInt8)
  | [] => some []
  | msg :: msgs =>
    (writeFrame serde msg).bind fun frame => (writeAll serde msgs).map (frame ++ ·)

/-! ### One frame -/

variable {serde : Serde} {msg : NetworkMessage} {payload rest : List UInt8}

theorem length_lengthPrefix (len : Nat) : (lengthPrefix len).length = 4 := by
  rw [lengthPrefix, List.length_reverse, length_leBytes]

theorem readExact_append {front : List UInt8} : readExact front.length (front ++ rest) =
    some (front, rest) := by
  rw [readExact, if_neg (by simp), List.take_left, List.drop_left]

theorem readFrame_written (len : Nat) (input : List UInt8) :
    readFrame serde (lengthPrefix len ++ input) =
      if maxFrame < len % 2 ^ 32 then none
      else (readExact (len % 2 ^ 32) input).bind fun p =>
        (serde.fromSlice p.1).map fun msg => (msg, p.2) := by
  have hread : readExact 4 (lengthPrefix len ++ input) = some (lengthPrefix len, input) := by
    rw [← length_lengthPrefix len]
    exact readExact_append
  rw [readFrame, hread, Option.bind_some]
  dsimp only
  rw [lengthPrefix, List.reverse_reverse, leValue_leBytes]
  rfl

theorem readFrame_of_small (hsize : payload.length ≤ maxFrame)
    (hround : serde.fromSlice payload = some msg) :
    readFrame serde (lengthPrefix payload.length ++ (payload ++ rest)) = some (msg, rest) := by
  have hmod : payload.length % 2 ^ 32 = payload.length := by
    apply Nat.mod_eq_of_lt
    exact hsize.trans_lt (by decide)
  rw [readFrame_written, hmod, if_neg (not_lt.mpr hsize), readExact_append, Option.bind_some,
    hround]
  rfl

theorem readFrame_of_large (hsize : maxFrame < payload.length)
    (hstarts : ∀ front, front <+: payload → front ≠ payload → serde.fromSlice front = none) :
    readFrame serde (lengthPrefix payload.length ++ (payload ++ rest)) = none := by
  rw [readFrame_written]
  split
  · rfl
  · next hfits =>
    have hlt : payload.length % 2 ^ 32 < payload.length :=
      (Nat.le_of_not_lt hfits).trans_lt hsize
    have hread : readExact (payload.length % 2 ^ 32) (payload ++ rest) =
        some (payload.take (payload.length % 2 ^ 32),
          payload.drop (payload.length % 2 ^ 32) ++ rest) := by
      rw [readExact, if_neg, List.take_append_of_le_length hlt.le,
        List.drop_append_of_le_length hlt.le]
      rw [List.length_append]
      omega
    rw [hread, Option.bind_some]
    dsimp only
    rw [hstarts _ (List.take_prefix _ _), Option.map_none]
    intro heq
    have hlen := congrArg List.length heq
    rw [List.length_take] at hlen
    omega

/-! ### Streams -/

/-- Every message is decoded from its own text. -/
def RoundTrips (serde : Serde) (msgs : List NetworkMessage) : Prop :=
  ∀ msg ∈ msgs, ∀ payload, serde.toVec msg = some payload → serde.fromSlice payload = some msg

/-- A text that breaks off is no message. -/
def RefusesPrefixes (serde : Serde) (msgs : List NetworkMessage) : Prop :=
  ∀ msg ∈ msgs, ∀ payload, serde.toVec msg = some payload →
    ∀ front, front <+: payload → front ≠ payload → serde.fromSlice front = none

/-- The texts of all messages are within the limit of the reader. -/
def AllSmall (serde : Serde) (msgs : List NetworkMessage) : Prop :=
  ∀ msg ∈ msgs, ∀ payload, serde.toVec msg = some payload → payload.length ≤ maxFrame

theorem readerLoop_written {msgs : List NetworkMessage} {stream : List UInt8} {fuel : Nat}
    (hwrite : writeAll serde msgs = some stream) (hfuel : stream.length < fuel)
    (hround : RoundTrips serde msgs) (hstarts : RefusesPrefixes serde msgs) :
    readerLoop serde fuel stream = msgs ↔ AllSmall serde msgs := by
  induction msgs generalizing stream fuel with
  | nil =>
    cases hwrite
    constructor
    · intro _ msg hmsg
      cases hmsg
    · intro _
      cases fuel <;> rfl
  | cons msg msgs ih =>
    obtain ⟨frame, hframe, hrest⟩ := Option.bind_eq_some_iff.mp hwrite
    obtain ⟨payload, hpayload, rfl⟩ := Option.map_eq_some_iff.mp hframe
    obtain ⟨tail, htail, rfl⟩ := Option.map_eq_some_iff.mp hrest
    have hlater : ∀ m ∈ msgs, m ∈ msg :: msgs := fun m => List.mem_cons_of_mem msg
    cases fuel with
    | zero => cases hfuel
    | succ fuel =>
      rw [List.append_assoc] at hfuel ⊢
      have hfuel' : tail.length < fuel := by
        rw [List.length_append, length_lengthPrefix, List.length_append] at hfuel
        omega
      have hih := ih htail hfuel' (fun m hm => hround m (hlater m hm))
        (fun m hm => hstarts m (hlater m hm))
      by_cases hsize : payload.length ≤ maxFrame
      · rw [readerLoop, readFrame_of_small hsize (hround msg List.mem_cons_self _ hpayload)]
        constructor
        · intro heq m hm p hp
          rcases List.mem_cons.mp hm with rfl | hm
          · rw [hpayload] at hp
            cases hp
            exact hsize
          · exact hih.mp (List.cons.inj heq).2 m hm p hp
        · intro hsmall
          exact congrArg (msg :: ·) (hih.mpr fun m hm => hsmall m (hlater m hm))
      · rw [readerLoop, readFrame_of_large (Nat.lt_of_not_le hsize)
          (hstarts msg List.mem_cons_self _ hpayload)]
        constructor
        · intro heq
          cases heq
        · intro hsmall
          exact absurd (hsmall msg List.mem_cons_self _ hpayload) hsize

/-- The reader delivers exactly the messages that were written if and only if none
of their texts is over 16 MiB. -/
theorem received_iff_small {msgs : List NetworkMessage} {stream : List UInt8}
    (hwrite : writeAll serde msgs = some stream) (hround : RoundTrips serde msgs)
    (hstarts : RefusesPrefixes serde msgs) :
    received serde stream = msgs ↔ AllSmall serde msgs :=
  readerLoop_written hwrite (Nat.lt_succ_self _) hround hstarts

end Framing

section Texts

/-! ### Texts -/

def name (s : String) (h : ascii '"' ∉ s.toList.map ascii := by decide) : FieldName :=
  ⟨s.toList.map ascii, h⟩

def nat (n : Nat) : Json :=
  .num n

/-- A byte array is an array of numbers. -/
def bytes (v : Vector UInt8 32) : Json :=
  .arr (v.toList.map fun b => nat b.toNat)

def BlockHeader.toJson (h : BlockHeader) : Json :=
  .obj [(name "height", nat h.height.toNat), (name "hash", bytes h.hash),
    (name "parent_hash", bytes h.parentHash), (name "timestamp", nat h.timestamp.toNat),
    (name "validator_id", nat h.validatorId.toNat), (name "tx_count", nat h.txCount.toNat),
    (name "state_root", bytes h.stateRoot)]

def WireTx.toJson (tx : WireTx) : Json :=
  .obj [(name "hash", bytes tx.hash), (name "kind", nat tx.kind.toNat),
    (name "sender", nat tx.sender.toNat), (name "recipient", nat tx.recipient.toNat),
    (name "oikos_amount", nat tx.oikosAmount.toNat), (name "koin_amount", .num tx.koinAmount.toInt),
    (name "gas_limit", nat tx.gasLimit.toNat), (name "nonce", nat tx.nonce.toNat),
    (name "parent_hashes", .arr (tx.parentHashes.map bytes)),
    (name "timestamp", nat tx.timestamp.toNat)]

def Block.toJson (b : Block) : Json :=
  .obj [(name "header", b.header.toJson),
    (name "transactions", .arr (b.transactions.map WireTx.toJson))]

inductive Variant where
  | newBlock
  | blockRequest
  | blockResponse
  | newTransaction
  | transactionRequest
  | transactionResponse
  | stateSyncRequest
  | stateSyncResponse
  | ping
  | pong
  | handshake
  | handshakeAck

def Variant.name : Variant → FieldName
  | .newBlock => Network.name "NewBlock"
  | .blockRequest => Network.name "BlockRequest"
  | .blockResponse => Network.name "BlockResponse"
  | .newTransaction => Network.name "NewTransaction"
  | .transactionRequest => Network.name "TransactionRequest"
  | .transactionResponse => Network.name "TransactionResponse"
  | .stateSyncRequest => Network.name "StateSyncRequest"
  | .stateSyncResponse => Network.name "StateSyncResponse"
  | .ping => Network.name "Ping"
  | .pong => Network.name "Pong"
  | .handshake => Network.name "Handshake"
  | .handshakeAck => Network.name "HandshakeAck"

def NetworkMessage.variant : NetworkMessage → Variant
  | .newBlock _ => .newBlock
  | .blockRequest _ => .blockRequest
  | .blockResponse _ => .blockResponse
  | .newTransaction _ => .newTransaction
  | .transactionRequest _ => .transactionRequest
  | .transactionResponse _ => .transactionResponse
  | .stateSyncRequest _ _ => .stateSyncRequest
  | .stateSyncResponse _ => .stateSyncResponse
  | .ping _ _ => .ping
  | .pong _ _ => .pong
  | .handshake _ _ _ => .handshake
  | .handshakeAck _ _ _ => .handshakeAck

def NetworkMessage.body : NetworkMessage → Json
  | .newBlock header => header.toJson
  | .blockRequest height => nat height.toNat
  | .blockResponse block => block.toJson
  | .newTransaction tx => tx.toJson
  | .transactionRequest hash => bytes hash
  | .transactionResponse tx => tx.toJson
  | .stateSyncRequest fromHeight toHeight =>
    .obj [(name "from_height", nat fromHeight.toNat), (name "to_height", nat toHeight.toNat)]
  | .stateSyncResponse blocks => .arr (blocks.map Block.toJson)
  | .ping nodeId height | .pong nodeId height =>
    .obj [(name "node_id", bytes nodeId), (name "height", nat height.toNat)]
  | .handshake chainId nodeId version =>
    .obj [(name "chain_id", nat chainId.toNat), (name "node_id", bytes nodeId),
      (name "version", nat version.toNat)]
  | .handshakeAck chainId nodeId bestHeight =>
    .obj [(name "chain_id", nat chainId.toNat), (name "node_id", bytes nodeId),
      (name "best_height", nat bestHeight.toNat)]

/-- `serde_json::to_vec` of a message. -/
def NetworkMessage.text (msg : NetworkMessage) : List UInt8 :=
  (Json.obj [(msg.variant.name, msg.body)]).print

/-! ### Each text has one message -/

theorem nat_inj {m n : Nat} : nat m = nat n ↔ m = n := by
  rw [nat, nat, Json.num.injEq, Int.natCast_inj]

theorem bytes_inj {v w : Vector UInt8 32} : bytes v = bytes w ↔ v = w := by
  constructor
  · intro h
    have hmap := Json.arr.inj h
    have hbyte : Function.Injective fun b : UInt8 => nat b.toNat := fun _ _ h =>
      UInt8.toNat_inj.mp (nat_inj.mp h)
    exact Vector.toList_inj.mp (List.map_injective_iff.mpr hbyte hmap)
  · rintro rfl
    rfl

theorem BlockHeader.toJson_inj {h h' : BlockHeader} (heq : h.toJson = h'.toJson) : h = h' := by
  cases h
  cases h'
  simpa [BlockHeader.toJson, nat_inj, bytes_inj, UInt64.toNat_inj, UInt32.toNat_inj] using heq

theorem WireTx.toJson_inj {tx tx' : WireTx} (heq : tx.toJson = tx'.toJson) : tx = tx' := by
  have hbytes : Function.Injective bytes := fun _ _ => bytes_inj.mp
  cases tx
  cases tx'
  simpa [WireTx.toJson, nat_inj, bytes_inj, UInt64.toNat_inj, UInt8.toNat_inj, BitVec.toNat_inj,
    BitVec.toInt_inj, hbytes.list_map.eq_iff] using heq

theorem Block.toJson_inj {b b' : Block} (heq : b.toJson = b'.toJson) : b = b' := by
  have htx : Function.Injective WireTx.toJson := fun _ _ => WireTx.toJson_inj
  cases b
  cases b'
  simp only [Block.toJson, Json.obj.injEq, List.cons.injEq, Prod.mk.injEq, Json.arr.injEq,
    true_and, and_true] at heq
  rw [BlockHeader.toJson_inj heq.1, List.map_injective_iff.mpr htx heq.2]

theorem Variant.name_injective : Function.Injective Variant.name := by
  intro a b h
  cases a <;> cases b <;> first | rfl | exact absurd h (by decide)

theorem NetworkMessage.ext_text {msg msg' : NetworkMessage} (hvariant : msg.variant = msg'.variant)
    (hbody : msg.body = msg'.body) : msg = msg' := by
  have hblock : Function.Injective Block.toJson := fun _ _ => Block.toJson_inj
  cases msg with
  | newBlock header =>
    cases msg' with
    | newBlock header' => rw [BlockHeader.toJson_inj hbody]
    | _ => cases hvariant
  | blockRequest height =>
    cases msg' with
    | blockRequest height' => rw [UInt64.toNat_inj.mp (nat_inj.mp hbody)]
    | _ => cases hvariant
  | blockResponse block =>
    cases msg' with
    | blockResponse block' => rw [Block.toJson_inj hbody]
    | _ => cases hvariant
  | newTransaction tx =>
    cases msg' with
    | newTransaction tx' => rw [WireTx.toJson_inj hbody]
    | _ => cases hvariant
  | transactionRequest hash =>
    cases msg' with
    | transactionRequest hash' => rw [bytes_inj.mp hbody]
    | _ => cases hvariant
  | transactionResponse tx =>
    cases msg' with
    | transactionResponse tx' => rw [WireTx.toJson_inj hbody]
    | _ => cases hvariant
  | stateSyncRequest fromHeight toHeight =>
    cases msg' with
    | stateSyncRequest =>
      simpa [NetworkMessage.body, nat_inj, UInt64.toNat_inj] using hbody
    | _ => cases hvariant
  | stateSyncResponse blocks =>
    cases msg' with
    | stateSyncResponse blocks' =>
      rw [List.map_injective_iff.mpr hblock (Json.arr.inj hbody)]
    | _ => cases hvariant
  | ping nodeId height =>
    cases msg' with
    | ping => simpa [NetworkMessage.body, nat_inj, bytes_inj, UInt64.toNat_inj] using hbody
    | _ => cases hvariant
  | pong nodeId height =>
    cases msg' with
    | pong => simpa [NetworkMessage.body, nat_inj, bytes_inj, UInt64.toNat_inj] using hbody
    | _ => cases hvariant
  | handshake chainId nodeId version =>
    cases msg' with
    | handshake =>
      simpa [NetworkMessage.body, nat_inj, bytes_inj, UInt64.toNat_inj, UInt32.toNat_inj]
        using hbody
    | _ => cases hvariant
  | handshakeAck chainId nodeId bestHeight =>
    cases msg' with
    | handshakeAck =>
      simpa [NetworkMessage.body, nat_inj, bytes_inj, UInt64.toNat_inj] using hbody
    | _ => cases hvariant

theorem NetworkMessage.text_unique {msg msg' : NetworkMessage} {r s : List UInt8}
    (h : msg.text ++ r = msg'.text ++ s) : msg = msg' ∧ r = s := by
  obtain ⟨hfields, hrest⟩ := Json.print_obj_unique _ _ h
  simp only [List.cons.injEq, Prod.mk.injEq, and_true] at hfields
  exact ⟨ext_text (Variant.name_injective hfields.1) hfields.2, hrest⟩

/-! ### Reading the texts -/

/-- The texts that `to_vec` writes, and the reader that accepts no others. -/
noncomputable def textSerde : Serde where
  toVec msg := some msg.text
  fromSlice text :=
    open Classical in if h : ∃ msg : NetworkMessage, msg.text = text then some h.choose else none

theorem textSerde_fromSlice (msg : NetworkMessage) :
    textSerde.fromSlice msg.text = some msg := by
  have hex : ∃ msg' : NetworkMessage, msg'.text = msg.text := ⟨msg, rfl⟩
  have hchoose : hex.choose = msg := by
    apply (NetworkMessage.text_unique (r := []) (s := []) _).1
    rw [hex.choose_spec]
  simp only [textSerde, dif_pos hex, hchoose]

theorem textSerde_roundTrips (msgs : List NetworkMessage) : RoundTrips textSerde msgs := by
  rintro msg - payload ⟨⟩
  exact textSerde_fromSlice msg

theorem textSerde_refusesPrefixes (msgs : List NetworkMessage) :
    RefusesPrefixes textSerde msgs := by
  rintro msg - payload ⟨⟩ front ⟨rest, hfront⟩ hne
  have hnone : ¬ ∃ msg' : NetworkMessage, msg'.text = front := by
    rintro ⟨msg', rfl⟩
    obtain ⟨rfl, -⟩ := NetworkMessage.text_unique (s := []) (hfront.trans (List.append_nil _).symm)
    exact hne rfl
  simp only [textSerde, dif_neg hnone]

/-- The reader delivers a request for block 42. -/
theorem blockRequest_received :
    received textSerde (lengthPrefix 19 ++ (NetworkMessage.blockRequest 42).text) =
      [.blockRequest 42] := by
  have hlen : (NetworkMessage.blockRequest 42).text.length = 19 := by decide
  have hwrite : writeAll textSerde [.blockRequest 42] =
      some (lengthPrefix 19 ++ (NetworkMessage.blockRequest 42).text) := by
    rw [← hlen]
    simp [writeAll, writeFrame, textSerde]
  apply (received_iff_small hwrite (textSerde_roundTrips _) (textSerde_refusesPrefixes _)).mpr
  rintro msg hmsg payload ⟨⟩
  rw [List.mem_singleton.mp hmsg, hlen]
  decide

/-! ### Long texts -/

def emptyBlock : Block :=
  ⟨⟨0, Vector.replicate 32 0, Vector.replicate 32 0, 0, 0, 0, Vector.replicate 32 0⟩, []⟩

theorem length_printItems_replicate (n : Nat) (j : Json) :
    (printItems (List.replicate n j)).length = n * (j.print.length + 1) + 1 := by
  induction n with
  | zero => simp [printItems]
  | succ n ih =>
    simp only [List.replicate_succ, printItems, List.length_cons, List.length_append, ih,
      Nat.add_mul]
    omega

theorem length_emptyBlock : emptyBlock.toJson.print.length = 317 := by
  decide +kernel

theorem le_length_stateSyncResponse (n : Nat) :
    n * 318 ≤ (NetworkMessage.stateSyncResponse
    (List.replicate (n + 1) emptyBlock)).text.length := by
  have hitems := length_printItems_replicate n emptyBlock.toJson
  rw [length_emptyBlock] at hitems
  simp only [NetworkMessage.text, NetworkMessage.body, List.replicate_succ, List.map_cons,
    List.map_replicate, Json.print, List.length_cons, List.length_append, hitems]
  omega

theorem not_received_of_large {msg : NetworkMessage} (h : maxFrame < msg.text.length) :
    ∃ stream, writeAll textSerde [msg] = some stream ∧ received textSerde stream ≠ [msg] := by
  refine ⟨_, rfl, fun hreceived => ?_⟩
  have hsmall := (readerLoop_written rfl (Nat.lt_succ_self _) (textSerde_roundTrips _)
    (textSerde_refusesPrefixes _)).mp hreceived
  exact absurd (hsmall msg List.mem_cons_self _ rfl) (not_le.mpr h)

/-- A response with 52760 empty blocks is written, and not received. -/
theorem stateSyncResponse_not_received :
    (∀ msg, textSerde.fromSlice msg.text = some msg) ∧
      ∃ stream,
        writeAll textSerde [.stateSyncResponse (List.replicate 52760 emptyBlock)] = some stream ∧
        received textSerde stream ≠ [.stateSyncResponse (List.replicate 52760 emptyBlock)] := by
  refine ⟨textSerde_fromSlice, not_received_of_large ?_⟩
  have hlimit : maxFrame < 52759 * 318 := by decide
  exact hlimit.trans_le (le_length_stateSyncResponse 52759)

end Texts

end Oikos.Koinon.Network
