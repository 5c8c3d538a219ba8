/-
The blocks in the store of a node, over every run of block production and restarts in
which any statement of the store may fail.
-/
import Mathlib.Logic.Relation
import Oikos.Koinon.BlockOutcome

namespace Oikos.Koinon

open Relation

namespace StateStore

/-- What decides the chain. -/
def chain (store : StateStore) : Table Int64 BlockRow × Table String String :=
  (store.blocks, store.chainState)

/-- The hash of the block before height `n`. -/
def parentDigest (store : StateStore) (n : UInt64) : Digest :=
  if n = 1 then zeroDigest
  else ((store.blocks.get (n - 1).toInt64).map fun row => readDigest row.hash).getD zeroDigest

/-- Every block up to the last height is stored, and has the hash of the one before it as its
parent.  One block more may be stored, whose height was not. -/
structure Chained (store : StateStore) : Prop where
  linked : ∀ (n : UInt64) row, store.blocks.get n.toInt64 = some row →
    0 < n.toNat ∧ n.toNat ≤ store.lastHeight.toNat + 1 ∧
      readDigest row.parentHash = store.parentDigest n
  stored : ∀ n : UInt64, 0 < n.toNat → n.toNat ≤ store.lastHeight.toNat →
    ∃ row, store.blocks.get n.toInt64 = some row

variable {store store' : StateStore} {block : Block}

theorem chained_empty (faults : List Bool) : (empty faults).Chained where
  linked _ _ h := nomatch h
  stored _ hpos hle := absurd hpos (not_lt.mpr hle)

theorem Chained.congr (h : store.Chained) (hchain : store'.chain = store.chain) :
    store'.Chained := by
  obtain ⟨hblocks, hstate⟩ := Prod.mk.inj hchain
  have hlast := lastHeight_congr hstate
  have hparent : store'.parentDigest = store.parentDigest := by
    funext n
    rw [parentDigest, parentDigest, hblocks]
  constructor
  · rw [hblocks, hlast, hparent]
    exact h.linked
  · rw [hblocks, hlast]
    exact h.stored

theorem readDigest_toList (d : Digest) : readDigest d.toList = d := by
  rw [readDigest, dif_pos (by simp)]
  rfl

/-- The next block is linked to the last, and its height may be stored or not. -/
theorem Chained.insert (h : store.Chained) {row : BlockRow} {n : UInt64}
    (hn : n.toNat = store.lastHeight.toNat + 1)
    (hrow : readDigest row.parentHash = store.parentDigest n)
    (hblocks : store'.blocks = store.blocks.insert n.toInt64 row)
    (hlast : store'.lastHeight = store.lastHeight ∨ store'.lastHeight = n) : store'.Chained := by
  have hget : ∀ m : UInt64, store'.blocks.get m.toInt64 =
      if m = n then some row else store.blocks.get m.toInt64 := by
    intro m
    have hinj : m.toInt64 = n.toInt64 ↔ m = n :=
      ⟨fun heq => congrArg Int64.toUInt64 heq, congrArg _⟩
    rw [hblocks, Table.get_insert]
    exact if_congr hinj rfl rfl
  have hparent : ∀ m : UInt64, 0 < m.toNat → m.toNat ≤ n.toNat →
      store'.parentDigest m = store.parentDigest m := by
    intro m hpos hle
    have hne : m - 1 ≠ n := by
      intro heq
      have hone : (1 : UInt64) ≤ m := UInt64.le_iff_toNat_le.mpr hpos
      have hnat := congrArg UInt64.toNat heq
      rw [UInt64.toNat_sub_of_le _ _ hone, UInt64.toNat_one] at hnat
      omega
    rw [parentDigest, parentDigest, hget, if_neg hne]
  have hle : store.lastHeight.toNat ≤ store'.lastHeight.toNat := by
    rcases hlast with hlast | hlast <;> rw [hlast]
    omega
  constructor
  · intro m r hm
    rw [hget] at hm
    split at hm
    · next heq =>
      subst heq
      cases hm
      exact ⟨by omega, by omega, hrow.trans (hparent m (by omega) (le_refl _)).symm⟩
    · obtain ⟨hpos, hbound, hlink⟩ := h.linked m r hm
      exact ⟨hpos, by omega, hlink.trans (hparent m hpos (by omega)).symm⟩
  · intro m hpos hbound
    rw [hget]
    split
    · exact ⟨row, rfl⟩
    · next hne =>
      refine h.stored m hpos ?_
      rcases hlast with hlast | hlast <;> rw [hlast] at hbound
      · exact hbound
      · have hne' := mt UInt64.toNat_inj.mp hne
        omega

theorem toSql_eq_ok {n : UInt64} {k : Int64} (h : toSql n = .ok k) : k = n.toInt64 := by
  unfold toSql at h
  split at h <;> cases h
  rfl

theorem applyBlock_chain {r : Result StoreError Unit} (h : applyBlock block store = (r, store')) :
    store'.chain = store.chain ∨ ∃ row : BlockRow, row.parentHash = block.parentHash.toList ∧
      store'.blocks = store.blocks.insert block.height.toInt64 row := by
  rcases Effect.bind_cases h with ⟨stop, hrow, rfl⟩ | ⟨⟨height, row⟩, _, hrow, hwrite⟩
  · obtain ⟨-, rfl⟩ := Effect.lift_eq.mp hrow
    exact .inl rfl
  · obtain ⟨hblock, rfl⟩ := Effect.lift_eq.mp hrow
    obtain ⟨_, -, hblock⟩ := bind_eq_ok.mp hblock
    obtain ⟨_, -, hblock⟩ := bind_eq_ok.mp hblock
    obtain ⟨_, hheight, hblock⟩ := bind_eq_ok.mp hblock
    obtain ⟨_, -, hblock⟩ := bind_eq_ok.mp hblock
    obtain ⟨_, -, hblock⟩ := bind_eq_ok.mp hblock
    have hparent : row.parentHash = block.parentHash.toList := by
      cases hblock
      rfl
    obtain rfl : height = block.height.toInt64 := by
      cases hblock
      exact toSql_eq_ok hheight
    rcases Effect.bind_cases hwrite with ⟨stop, hinsert, rfl⟩ | ⟨_, middle, hinsert, hset⟩
    · rcases write_cases hinsert with ⟨hok, -⟩ | ⟨-, rfl⟩
      · cases hok
      · exact .inl rfl
    · refine .inr ⟨row, hparent, ?_⟩
      rcases write_cases hinsert with ⟨-, rfl⟩ | ⟨herr, -⟩
      · rcases write_cases hset with ⟨-, rfl⟩ | ⟨-, rfl⟩ <;> rfl
      · cases herr

theorem Chained.applyBlock (h : store.Chained) {r : Result StoreError Unit}
    (hn : block.height.toNat = store.lastHeight.toNat + 1)
    (hparent : block.parentHash = store.parentDigest block.height)
    (happly : applyBlock block store = (r, store')) : store'.Chained := by
  rcases applyBlock_chain happly with hsame | ⟨row, hrow, hblocks⟩
  · exact h.congr hsame
  · refine h.insert hn ?_ hblocks ((lastHeight_applyBlock happly).symm.imp And.right And.right)
    rw [hrow, readDigest_toList, hparent]

end StateStore

namespace BlockProducer

open StateStore

variable {p p' : BlockProducer} {store : StateStore} {sha256 : List UInt8 → Digest}
  {order : List UInt64} {now : UInt64} {r : Result NodeError Block}

theorem keepsChain_query {α : Type} (read : StateStore → α) : (query read).Keeps chain :=
  keeps_query read fun _ _ => rfl

theorem keepsChain_getLastBlockHeight : getLastBlockHeight.Keeps chain :=
  (keepsChain_query _).bind fun _ => .pure _

theorem keepsChain_readParent : readParent.Keeps chain := by
  refine keepsChain_getLastBlockHeight.bind fun last => (Effect.Keeps.lift _).bind fun h => ?_
  split
  · exact .pure _
  · refine Effect.Keeps.bind ?_ fun _ => .pure _
    refine (Effect.Keeps.lift _).bind fun key => (keepsChain_query _).bind fun row => ?_
    cases row with
    | none => exact .pure _
    | some row => exact (Effect.Keeps.lift _).bind fun _ => .pure _

theorem keepsChain_upsertValidator (v : Validator) : (upsertValidator v).Keeps chain :=
  (Effect.Keeps.lift _).bind fun _ => keeps_execute (fun _ _ => rfl) fun _ => rfl

theorem hash_getBlock {n : UInt64} {block : Option Block} {store' : StateStore}
    (h : getBlock n store = (.ok block, store')) :
    block.map Block.hash = (store.blocks.get n.toInt64).map fun row => readDigest row.hash := by
  obtain ⟨key, _, hkey, h⟩ := Effect.bind_eq_ok.mp h
  obtain ⟨hsql, rfl⟩ := Effect.lift_eq.mp hkey
  obtain rfl := toSql_eq_ok hsql
  obtain ⟨row, _, hquery, h⟩ := Effect.bind_eq_ok.mp h
  have hrow : store.blocks.get n.toInt64 = row := query_eq_ok hquery
  rw [hrow]
  cases row with
  | none =>
    cases h
    rfl
  | some row =>
    obtain ⟨b, _, hread, h⟩ := Effect.bind_eq_ok.mp h
    obtain ⟨hb, -⟩ := Effect.lift_eq.mp hread
    obtain ⟨_, -, hb⟩ := bind_eq_ok.mp hb
    obtain ⟨_, -, hb⟩ := bind_eq_ok.mp hb
    obtain ⟨_, -, hb⟩ := bind_eq_ok.mp hb
    cases hb
    cases h
    rfl

/-- The next height, and the hash of the last block. -/
theorem readParent_eq_ok {height : UInt64} {parent : Digest}
    (h : readParent p.store = (.ok (height, parent), store)) :
    height.toNat = p.store.lastHeight.toNat + 1 ∧ parent = p.store.parentDigest height := by
  obtain ⟨hheight, hnat⟩ := fst_readParent h
  rw [← hheight] at hnat
  refine ⟨hnat, ?_⟩
  obtain ⟨last, store₁, hlast, h⟩ := Effect.bind_eq_ok.mp h
  obtain ⟨height', _, hsucc, h⟩ := Effect.bind_eq_ok.mp h
  obtain ⟨-, rfl⟩ := Effect.lift_eq.mp hsucc
  have hchain : store₁.chain = p.store.chain := by
    have hkeeps := keepsChain_getLastBlockHeight p.store
    rwa [hlast] at hkeeps
  split at h
  · next hone =>
    cases h
    exact (if_pos hone).symm
  · next hne =>
    obtain ⟨block, _, hget, h⟩ := Effect.bind_eq_ok.mp h
    cases h
    rw [hash_getBlock hget, (Prod.mk.inj hchain).1, parentDigest, if_neg hne]

/-- What does not touch the store of a producer keeps the chain. -/
theorem chained_bind {α β : Type} {x : Effect BlockProducer NodeError α}
    {f : α → Effect BlockProducer NodeError β} (hx : x.Keeps BlockProducer.store)
    (hp : p.store.Chained) (hf : ∀ a p₁, p₁.store = p.store → (f a p₁).2.store.Chained) :
    ((x >>= f) p).2.store.Chained := by
  have hsame := hx p
  rcases hxp : x p with ⟨result, p₁⟩
  rw [hxp] at hsame
  cases result with
  | error stop =>
    rw [Effect.bind_of_error hxp]
    exact hsame ▸ hp
  | ok a =>
    rw [Effect.bind_of_ok hxp]
    exact hf a p₁ hsame

theorem keepsStore_processReward (height : UInt64) (txs : List Transaction) :
    (processReward height txs).Keeps BlockProducer.store := by
  intro p
  unfold processReward
  split <;> rfl

theorem keepsStore_creditReward (reward : BlockReward) :
    (creditReward order reward).Keeps BlockProducer.store := by
  intro p
  unfold creditReward
  dsimp only
  split <;> rfl

theorem keepsChain_storeValidators (block : Block) : (do
    let validators ← Effect.gets (validatorsIn order)
    onStore (validators.forM upsertValidator)
    pure block : Effect BlockProducer NodeError Block).Keeps fun p => p.store.chain := by
  refine Effect.Keeps.bind (fun _ => rfl) fun validators => Effect.Keeps.bind ?_ fun _ => .pure _
  have hkeeps : (validators.forM upsertValidator).Keeps chain := .forM keepsChain_upsertValidator
  exact fun p => hkeeps p.store

theorem persist_chained {block : Block} (hp : p.store.Chained)
    (hn : block.height.toNat = p.store.lastHeight.toNat + 1)
    (hparent : block.parentHash = p.store.parentDigest block.height) : ((do
      onStore (StateStore.applyBlock block)
      let validators ← Effect.gets (validatorsIn order)
      onStore (validators.forM upsertValidator)
      pure block : Effect BlockProducer NodeError Block) p).2.store.Chained := by
  rcases hrun : (onStore (StateStore.applyBlock block) p) with ⟨result, p₁⟩
  cases result with
  | error stop =>
    obtain ⟨cause, store, hcall, -, rfl⟩ := onStore_eq_error hrun
    rw [Effect.bind_of_error hrun]
    exact hp.applyBlock hn hparent hcall
  | ok _ =>
    obtain ⟨store, hcall, rfl⟩ := onStore_eq_ok hrun
    rw [Effect.bind_of_ok hrun]
    have hs : store.Chained := hp.applyBlock hn hparent hcall
    exact hs.congr (keepsChain_storeValidators block _)

/-- Producing a block keeps the chain, wherever it stops. -/
theorem produceBlock_chained (hp : p.store.Chained)
    (h : produceBlock sha256 order now p = (r, p')) : p'.store.Chained := by
  rcases Effect.bind_cases h with ⟨stop, hfirst, rfl⟩ | ⟨⟨height, parent⟩, _, hfirst, h⟩
  · obtain ⟨cause, store, hread, -, rfl⟩ := onStore_eq_error hfirst
    have hkeeps := keepsChain_readParent p.store
    rw [hread] at hkeeps
    exact hp.congr hkeeps
  · obtain ⟨store, hread, rfl⟩ := onStore_eq_ok hfirst
    obtain ⟨hnat, hparent⟩ := readParent_eq_ok hread
    have hkeeps := keepsChain_readParent p.store
    rw [hread] at hkeeps
    obtain ⟨hblocks, hstate⟩ := Prod.mk.inj hkeeps
    have hs : store.Chained := hp.congr hkeeps
    obtain rfl : p' = _ := (congrArg Prod.snd h).symm
    refine chained_bind (fun _ => rfl) hs fun txs p₁ h₁ =>
      chained_bind (keepsStore_processReward height txs) (h₁ ▸ hs) fun reward p₂ h₂ =>
        chained_bind (keepsStore_creditReward reward) (h₂ ▸ h₁ ▸ hs) fun _ p₃ h₃ => ?_
    obtain rfl : p₃.store = store := h₃.trans (h₂.trans h₁)
    refine persist_chained hs ?_ ?_
    · rw [lastHeight_congr hstate]
      exact hnat
    · refine hparent.trans ?_
      rw [parentDigest, parentDigest, hblocks]
      rfl

/-- What happens to a node: a transaction comes in, a block is produced, or the node starts
again from its store. -/
inductive Step (sha256 : List UInt8 → Digest) : BlockProducer → BlockProducer → Prop
  | submit (p : BlockProducer) (tx : Transaction) : Step sha256 p (p.submitTransaction tx).2
  | produce {p p' : BlockProducer} {order : List UInt64} {now : UInt64} {r : Result NodeError Block}
      (h : produceBlock sha256 order now p = (r, p')) : Step sha256 p p'
  | restart {p p' : BlockProducer} {json : JsonStrings} {config : NodeConfig}
      (h : new json config p.store = .ok p') : Step sha256 p p'

theorem new_chain {json : JsonStrings} {config : NodeConfig}
    (h : new json config store = .ok p') : p'.store.chain = store.chain := by
  have hlast := keepsChain_getLastBlockHeight store
  unfold new at h
  split at h
  · next stop _ heq => cases stop <;> cases h
  · next last store₁ heq =>
    rw [heq] at hlast
    split at h
    · cases hgenesis : genesisState config with
      | error stop =>
        rw [hgenesis] at h
        cases h
      | ok state =>
        rw [hgenesis] at h
        cases h
        exact hlast
    · have hkeeps : (restoreState json).Keeps chain := by
        refine Effect.Keeps.bind (keepsChain_query (readable readAccount ·.accounts)) fun _ =>
          Effect.Keeps.bind (keepsChain_query (readable readValidator ·.validators)) fun _ =>
            (Effect.Keeps.lift _).bind fun pool => Effect.Keeps.bind ?_ fun mandates => .pure _
        exact keepsChain_query (readable (readMandate json) ·.mandates)
      have hrestored := hkeeps store₁
      split at h
      · cases h
      · next state store₂ hstate =>
        rw [hstate] at hrestored
        cases h
        exact hrestored.trans hlast

/-- Whatever statements fail, in every run with restarts each block up to the last height
is stored and carries the hash of the one before it. -/
theorem blocks_linked {faults : List Bool} (hempty : p.store = .empty faults)
    (hrun : ReflTransGen (Step sha256) p p') (n : UInt64) (hpos : 0 < n)
    (hle : n ≤ p'.store.lastHeight) :
    ∃ row, p'.store.blocks.get n.toInt64 = some row ∧
      readDigest row.parentHash = p'.store.parentDigest n := by
  have hchained : p'.store.Chained := by
    clear hle
    induction hrun with
    | refl => exact hempty ▸ chained_empty faults
    | tail _ hstep ih =>
      cases hstep with
      | submit => exact ih
      | produce h => exact produceBlock_chained ih h
      | restart h => exact ih.congr (new_chain h)
  obtain ⟨row, hrow⟩ := hchained.stored n hpos hle
  exact ⟨row, hrow, (hchained.linked n row hrow).2.2⟩

/-- The producer after a block at a time, with a checksum for the hash. -/
def produced (p : BlockProducer) (now : UInt64) : BlockProducer :=
  (produceBlock (fun bytes => .replicate 32 (bytes.foldl (· + ·) 0)) [] now p).2

/-- The height of the second block is not stored at first. -/
theorem second_block_linked :
    let p := sampleProducer [] [false, false, false, false, false, false, true]
    let p' := produced (produced (produced p 1000) 1001) 1002
    p'.store.lastHeight = 2 ∧ ∃ row, p'.store.blocks.get 2 = some row ∧
      readDigest row.parentHash = p'.store.parentDigest 2 := by
  intro p p'
  have hlast : p'.store.lastHeight = 2 := by decide +kernel
  have hrun : ReflTransGen (Step fun bytes => .replicate 32 (bytes.foldl (· + ·) 0)) p p' :=
    .tail (.tail (.single (.produce rfl)) (.produce rfl)) (.produce rfl)
  exact ⟨hlast, blocks_linked rfl hrun 2 (by decide) (by rw [hlast])⟩

end BlockProducer

end Oikos.Koinon
