/-
The messages of `koinon-network`, and the conversions between transactions and
their form on the wire.
-/
import Oikos.Koinon.Dag

namespace Oikos.Koinon.Network

abbrev PeerId := Vector UInt8 32

structure BlockHeader where
  height : UInt64
  hash : Vector UInt8 32
  parentHash : Vector UInt8 32
  timestamp : UInt64
  validatorId : UInt64
  txCount : UInt32
  stateRoot : Vector UInt8 32
deriving DecidableEq

/-- Amounts are plain `u128` and `i128`, the latter in two's complement. -/
structure WireTx where
  hash : Vector UInt8 32
  kind : UInt8
  sender : UInt64
  recipient : UInt64
  oikosAmount : BitVec 128
  koinAmount : BitVec 128
  gasLimit : UInt64
  nonce : UInt64
  parentHashes : List (Vector UInt8 32)
  timestamp : UInt64
deriving DecidableEq

structure Block where
  header : BlockHeader
  transactions : List WireTx
deriving DecidableEq

inductive NetworkMessage where
  | newBlock (header : BlockHeader)
  | blockRequest (height : UInt64)
  | blockResponse (block : Block)
  | newTransaction (tx : WireTx)
  | transactionRequest (hash : TxHash)
  | transactionResponse (tx : WireTx)
  | stateSyncRequest (fromHeight toHeight : UInt64)
  | stateSyncResponse (blocks : List Block)
  | ping (nodeId : PeerId) (height : UInt64)
  | pong (nodeId : PeerId) (height : UInt64)
  | handshake (chainId : UInt64) (nodeId : PeerId) (version : UInt32)
  | handshakeAck (chainId : UInt64) (nodeId : PeerId) (bestHeight : UInt64)
deriving DecidableEq

/-! ### Transactions on the wire -/

def kindByte : TxKind → UInt8
  | .transferOikos => 0
  | .transferKoin => 1
  | .mintKoin => 2
  | .burnKoin => 3
  | .escrowCreate => 4
  | .escrowRelease => 5
  | .escrowCancel => 6
  | .streamStart => 7
  | .streamStop => 8
  | .rfpPublish => 9
  | .rfpRespond => 10
  | .mandateCreate => 11
  | .mandateSpend => 12

/-- The table that `try_from` reads kinds from. -/
def kindOfByte : UInt8 → Except String TxKind
  | 0 => .ok .transferOikos
  | 1 => .ok .transferKoin
  | 2 => .ok .mintKoin
  | 3 => .ok .burnKoin
  | 4 => .ok .escrowCreate
  | 5 => .ok .escrowRelease
  | 6 => .ok .escrowCancel
  | 7 => .ok .streamStart
  | 8 => .ok .streamStop
  | 9 => .ok .rfpPublish
  | 10 => .ok .rfpRespond
  | 11 => .ok .mintKoin
  | 12 => .ok .mandateSpend
  | _ => .error "invalid tx kind discriminator"

/-- `From<Transaction> for WireTx`. -/
def WireTx.from (tx : Transaction) : WireTx :=
  ⟨tx.hash, kindByte tx.kind, tx.sender, tx.recipient, tx.oikosAmount.units, tx.koinAmount.units,
    tx.gasLimit, tx.nonce, tx.parentHashes, tx.timestamp⟩

/-- `TryFrom<WireTx> for Transaction`. -/
def WireTx.tryInto (wtx : WireTx) : Except String Transaction :=
  (kindOfByte wtx.kind).map fun kind =>
    ⟨wtx.hash, kind, wtx.sender, wtx.recipient, ⟨wtx.oikosAmount⟩, ⟨wtx.koinAmount⟩, wtx.gasLimit,
      wtx.nonce, wtx.parentHashes, wtx.timestamp⟩

theorem kindOfByte_kindByte_iff (kind : TxKind) :
    kindOfByte (kindByte kind) = .ok kind ↔ kind ≠ .mandateCreate := by
  cases kind <;> simp [kindByte, kindOfByte]

theorem kindByte_of_kindOfByte {byte : UInt8} {kind : TxKind} (h : kindOfByte byte = .ok kind) :
    kindByte kind = byte ↔ byte ≠ 11 := by
  unfold kindOfByte at h
  split at h <;> cases h <;> decide

theorem tryInto_from_iff (tx : Transaction) :
    (WireTx.from tx).tryInto = .ok tx ↔ kindOfByte (kindByte tx.kind) = .ok tx.kind := by
  unfold WireTx.tryInto WireTx.from
  cases kindOfByte (kindByte tx.kind) with
  | error e => simp [Except.map]
  | ok kind =>
    rw [Except.map, Except.ok.injEq, Except.ok.injEq]
    constructor
    · intro h
      exact congrArg Transaction.kind h
    · rintro rfl
      rfl

theorem from_of_tryInto {wtx : WireTx} {tx : Transaction} (h : wtx.tryInto = .ok tx) :
    kindOfByte wtx.kind = .ok tx.kind ∧ (WireTx.from tx = wtx ↔ kindByte tx.kind = wtx.kind) := by
  unfold WireTx.tryInto at h
  cases hkind : kindOfByte wtx.kind with
  | error e =>
    rw [hkind] at h
    cases h
  | ok kind =>
    rw [hkind] at h
    cases h
    refine ⟨rfl, ?_⟩
    constructor
    · intro h
      exact congrArg WireTx.kind h
    · intro h
      rw [WireTx.from, h]

/-- A transaction survives the way to the wire and back exactly when it creates no
mandate, and a wire form the way there from where it is read exactly when its kind
is not the byte of one. -/
theorem wire_round_trip_iff (tx : Transaction) (wtx : WireTx) :
    ((WireTx.from tx).tryInto = .ok tx ↔ tx.kind ≠ .mandateCreate) ∧
      ∀ tx', wtx.tryInto = .ok tx' → (WireTx.from tx' = wtx ↔ wtx.kind ≠ 11) := by
  constructor
  · rw [tryInto_from_iff, kindOfByte_kindByte_iff]
  · intro tx' h
    obtain ⟨hkind, hiff⟩ := from_of_tryInto h
    rw [hiff, kindByte_of_kindOfByte hkind]

/-- A transaction that creates a mandate arrives as one that mints KOIN. -/
theorem mandateCreate_becomes_mintKoin :
    (WireTx.from { sampleTx 1 0 [] with kind := .mandateCreate }).tryInto =
        .ok { sampleTx 1 0 [] with kind := .mintKoin } ∧
      (WireTx.from { sampleTx 1 0 [] with kind := .mandateCreate }).tryInto ≠
        .ok { sampleTx 1 0 [] with kind := .mandateCreate } := by
  refine ⟨rfl, ?_⟩
  intro h
  have hkind := congrArg (Except.map Transaction.kind) h
  revert hkind
  decide

end Oikos.Koinon.Network
