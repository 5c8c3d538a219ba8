/-
What a state root commits to: the bytes that are hashed can be read in one way only
between states of certain sizes.  A producer that is rebuilt from its store has minted
nothing, and its root shows it.
-/
import Oikos.Lib.Records
import Oikos.Koinon.BlockOutcome

namespace Oikos.Koinon

theorem length_leU64 (n : UInt64) : (leU64 n).length = 8 :=
  length_leBytes 8 _

theorem length_leU128 (n : BitVec 128) : (leU128 n).length = 16 :=
  length_leBytes 16 _

theorem leU64_inj {n m : UInt64} (h : leU64 n = leU64 m) : n = m :=
  UInt64.toNat_inj.mp (leBytes_inj n.toNat_lt m.toNat_lt h)

theorem leU128_inj {n m : BitVec 128} (h : leU128 n = leU128 m) : n = m :=
  BitVec.toNat_inj.mp (leBytes_inj n.isLt m.isLt h)

/-- Split two equal byte strings after a `u64`. -/
theorem leU64_append_inj {n m : UInt64} {t t' : List UInt8} (h : leU64 n ++ t = leU64 m ++ t') :
    n = m ∧ t = t' := by
  obtain ⟨hn, ht⟩ := List.append_inj h ((length_leU64 n).trans (length_leU64 m).symm)
  exact ⟨leU64_inj hn, ht⟩

/-- Split two equal byte strings after a `u128`. -/
theorem leU128_append_inj {n m : BitVec 128} {t t' : List UInt8}
    (h : leU128 n ++ t = leU128 m ++ t') : n = m ∧ t = t' := by
  obtain ⟨hn, ht⟩ := List.append_inj h ((length_leU128 n).trans (length_leU128 m).symm)
  exact ⟨leU128_inj hn, ht⟩

def Account.covered (acc : Account) : OikosAmount × KoinAmount × UInt64 :=
  (acc.oikosBalance, acc.koinBalance, acc.nonce)

namespace NodeState

/-- The states agree on everything that the root is computed from. -/
structure Agree (s s' : NodeState) : Prop where
  accounts : ∀ id, (s.accounts.get id).map Account.covered =
    (s'.accounts.get id).map Account.covered
  totalStaked : s.stakingPool.totalStaked = s'.stakingPool.totalStaked
  stakes : ∀ vid, (s.stakingPool.validators.get vid).map Validator.stakedAmount =
    (s'.stakingPool.validators.get vid).map Validator.stakedAmount
  treasury : s.treasury.balance = s'.treasury.balance
  minted : s.conservation.minted = s'.conservation.minted
  burned : s.conservation.burned = s'.conservation.burned

def accountCount (s : NodeState) : Nat :=
  s.accounts.keys.length

def validatorCount (s : NodeState) : Nat :=
  s.stakingPool.validators.keys.length

theorem inKeyOrder_eq {V : Type} (t : Table UInt64 V) (bytes : UInt64 → V → List UInt8) :
    inKeyOrder t bytes = t.sorted.flatMap fun p => bytes p.1 p.2 := by
  rw [inKeyOrder, Table.sorted]
  induction t.keys.mergeSort (· ≤ ·) with
  | nil => rfl
  | cons id ids ih =>
    rw [List.flatMap_cons, ih, List.filterMap_cons]
    cases t.get id with
    | none => rfl
    | some v => rfl

theorem length_accountBytes (id : AccountId) (acc : Account) :
    (accountBytes id acc).length = 48 := by
  simp [accountBytes, length_leU64, length_leU128]

theorem length_validatorBytes (vid : UInt64) (v : Validator) :
    (validatorBytes vid v).length = 24 := by
  simp [validatorBytes, length_leU64, length_leU128]

theorem accountBytes_inj {id id' : AccountId} {acc acc' : Account}
    (h : accountBytes id acc = accountBytes id' acc') :
    (id, acc.covered) = (id', acc'.covered) := by
  unfold accountBytes at h
  simp only [List.append_assoc] at h
  obtain ⟨hid, h⟩ := leU64_append_inj h
  obtain ⟨hoikos, h⟩ := leU128_append_inj h
  obtain ⟨hkoin, h⟩ := leU128_append_inj h
  have hnonce := leU64_inj h
  have hoikos' : acc.oikosBalance = acc'.oikosBalance := congrArg OikosAmount.mk hoikos
  have hkoin' : acc.koinBalance = acc'.koinBalance := congrArg KoinAmount.mk hkoin
  rw [Account.covered, Account.covered, hid, hoikos', hkoin', hnonce]

theorem validatorBytes_inj {vid vid' : UInt64} {v v' : Validator}
    (h : validatorBytes vid v = validatorBytes vid' v') :
    (vid, v.stakedAmount) = (vid', v'.stakedAmount) := by
  obtain ⟨hid, hstake⟩ := leU64_append_inj h
  have hstake' : v.stakedAmount = v'.stakedAmount := congrArg OikosAmount.mk (leU128_inj hstake)
  rw [hid, hstake']

theorem section_inj {V W : Type} {t t' : Table UInt64 V} {bytes : UInt64 → V → List UInt8}
    {width : Nat} {view : V → W} {rest rest' : List UInt8}
    (hwidth : ∀ id v, (bytes id v).length = width)
    (hinj : ∀ {id id' v v'}, bytes id v = bytes id' v' → (id, view v) = (id', view v'))
    (hcount : t.keys.length = t'.keys.length)
    (h : inKeyOrder t bytes ++ rest = inKeyOrder t' bytes ++ rest') :
    (∀ id, (t.get id).map view = (t'.get id).map view) ∧ rest = rest' := by
  rw [inKeyOrder_eq, inKeyOrder_eq] at h
  have hlength : t.sorted.length = t'.sorted.length := by
    rw [Table.length_sorted, Table.length_sorted, hcount]
  obtain ⟨hviews, hrest⟩ := flatMap_append_inj_of_width (fun p => (p.1, view p.2))
    (fun p => hwidth p.1 p.2) (fun _ _ => hinj) hlength h
  exact ⟨Table.get_map_eq_of_sorted hviews, hrest⟩

theorem length_rootPreimage (s : NodeState) :
    s.rootPreimage.length = 24 * (2 * s.accountCount + s.validatorCount) + 64 := by
  unfold rootPreimage
  rw [inKeyOrder_eq, inKeyOrder_eq]
  simp only [List.length_append, length_leU128,
    length_flatMap_of_width (fun p : UInt64 × Account => length_accountBytes p.1 p.2),
    length_flatMap_of_width (fun p : UInt64 × Validator => length_validatorBytes p.1 p.2),
    Table.length_sorted, accountCount, validatorCount]
  omega

variable {s s' : NodeState} {n common extra rest : Nat}

theorem agree_of_rootPreimage (hcount : s.accountCount = s'.accountCount)
    (h : s.rootPreimage = s'.rootPreimage) : s.Agree s' := by
  have hlength := congrArg List.length h
  rw [length_rootPreimage, length_rootPreimage] at hlength
  have hvalidators : s.validatorCount = s'.validatorCount := by omega
  unfold rootPreimage at h
  obtain ⟨haccounts, h⟩ := section_inj length_accountBytes accountBytes_inj hcount h
  obtain ⟨htotal, h⟩ := leU128_append_inj h
  obtain ⟨hstakes, h⟩ := section_inj length_validatorBytes validatorBytes_inj hvalidators h
  obtain ⟨htreasury, h⟩ := leU128_append_inj h
  obtain ⟨hminted, h⟩ := leU128_append_inj h
  exact ⟨haccounts, congrArg OikosAmount.mk htotal, hstakes, congrArg OikosAmount.mk htreasury,
    congrArg OikosAmount.mk hminted, congrArg OikosAmount.mk (leU128_inj h)⟩

/-- The end of the bytes gives the minted total, whatever stands before it. -/
theorem minted_of_rootPreimage (h : s.rootPreimage = s'.rootPreimage) :
    s.conservation.minted = s'.conservation.minted := by
  unfold rootPreimage at h
  simp only [← List.append_assoc] at h
  have hfront := (List.append_inj' h ((length_leU128 _).trans (length_leU128 _).symm)).1
  have hminted := (List.append_inj' hfront ((length_leU128 _).trans (length_leU128 _).symm)).2
  exact congrArg OikosAmount.mk (leU128_inj hminted)

/-! ### Two states with the same bytes -/

theorem inKeyOrder_numbered {V : Type} {start count : Nat} (h : start + count ≤ 2 ^ 64)
    (f : Nat → V) (bytes : UInt64 → V → List UInt8) :
    inKeyOrder (Table.numbered start count h f) bytes =
      (List.range' start count).flatMap fun i => bytes (UInt64.ofNat i) (f i) := by
  have hkeys : (Table.numbered start count h f).keys.Pairwise (· < ·) := by
    rw [Table.keys_numbered, List.pairwise_map]
    refine List.Pairwise.imp_of_mem ?_ List.pairwise_lt_range'
    intro i j hi hj hlt
    rw [List.mem_range'_1] at hi hj
    rwa [UInt64.lt_iff_toNat_lt, toNat_ofNat_of_lt_pow (by omega),
      toNat_ofNat_of_lt_pow (by omega)]
  rw [inKeyOrder_eq, Table.sorted_of_pairwise hkeys, Table.numbered, List.flatMap_map]

/-- Accounts from `common` on carry two validator identifiers: in the high half
of the balance and in the nonce. -/
def sampleAccount (common i : Nat) : Account :=
  if i < common then ⟨UInt64.ofNat i, .zero, .zero, 0⟩
  else ⟨UInt64.ofNat i, ⟨BitVec.ofNat 128 (256 ^ 8 * (2 * (i - common)))⟩, .zero,
    UInt64.ofNat (2 * (i - common) + 1)⟩

/-- Every second validator has an account identifier for a stake. -/
def sampleValidator (common i : Nat) : Validator :=
  ⟨UInt64.ofNat i, "", if i % 2 = 1 then ⟨BitVec.ofNat 128 (common + (i + 1) / 2)⟩ else .zero, 0,
    true, .zero, 0, 0⟩

def sampleState (accounts : Table AccountId Account) (validators : Table UInt64 Validator)
    (totalStaked : Nat) : NodeState :=
  ⟨⟨validators, ⟨BitVec.ofNat 128 totalStaked⟩, 1, .new⟩, .new .zero, .new, .new .default,
    accounts, []⟩

theorem leU128_ofNat (h : n < 2 ^ 64) :
    leU128 (BitVec.ofNat 128 n) = leU64 (UInt64.ofNat n) ++ leBytes 8 0 := by
  have hmod : n % 2 ^ 128 = n := Nat.mod_eq_of_lt (h.trans (by decide))
  have hdiv : n / 256 ^ 8 = 0 := Nat.div_eq_of_lt h
  rw [leU128, BitVec.toNat_ofNat, hmod, leBytes_add 8 8, hdiv, leU64, toNat_ofNat_of_lt_pow h]

theorem leU128_high (h : n < 2 ^ 64) :
    leU128 (BitVec.ofNat 128 (256 ^ 8 * n)) = leBytes 8 0 ++ leU64 (UInt64.ofNat n) := by
  have hlt : 256 ^ 8 * n < 2 ^ 128 :=
    calc 256 ^ 8 * n < 256 ^ 8 * 2 ^ 64 := Nat.mul_lt_mul_of_pos_left h (by decide)
      _ = 2 ^ 128 := by decide
  have hdiv : 256 ^ 8 * n / 256 ^ 8 = n := Nat.mul_div_cancel_left n (by decide)
  rw [leU128, BitVec.toNat_ofNat, Nat.mod_eq_of_lt hlt, leBytes_add 8 8, leBytes_pow_mul, hdiv,
    leU64, toNat_ofNat_of_lt_pow h]

theorem sampleAccount_bytes {k : Nat} (hid : common + k < 2 ^ 64) (hlow : 2 * k < 2 ^ 64) :
    accountBytes (UInt64.ofNat (common + k)) (sampleAccount common (common + k)) =
      leU128 (BitVec.ofNat 128 (common + k)) ++
        (validatorBytes (UInt64.ofNat (2 * k)) (sampleValidator common (2 * k)) ++
          leU64 (UInt64.ofNat (2 * k + 1))) := by
  have hnot : ¬ common + k < common := by omega
  have hsub : common + k - common = k := by omega
  have heven : ¬ 2 * k % 2 = 1 := by omega
  rw [accountBytes, sampleAccount, if_neg hnot, hsub, leU128_high hlow, leU128_ofNat hid,
    validatorBytes, sampleValidator, if_neg heven]
  simp only [List.append_assoc]
  rfl

theorem sampleValidator_bytes (common k : Nat) :
    validatorBytes (UInt64.ofNat (2 * k + 1)) (sampleValidator common (2 * k + 1)) =
      leU64 (UInt64.ofNat (2 * k + 1)) ++ leU128 (BitVec.ofNat 128 (common + (k + 1))) := by
  have hodd : (2 * k + 1) % 2 = 1 := by omega
  have hhalf : (2 * k + 1 + 1) / 2 = k + 1 := by omega
  rw [validatorBytes, sampleValidator, if_pos hodd, hhalf]

theorem accounts_as_validators (hids : common + extra ≤ 2 ^ 64) (hlow : 2 * extra ≤ 2 ^ 64) :
    ((List.range' common extra).flatMap fun i =>
        accountBytes (UInt64.ofNat i) (sampleAccount common i)) ++
      leU128 (BitVec.ofNat 128 (common + extra)) =
    leU128 (BitVec.ofNat 128 common) ++
      (List.range' 0 (2 * extra)).flatMap fun i =>
        validatorBytes (UInt64.ofNat i) (sampleValidator common i) := by
  induction extra with
  | zero => simp
  | succ k ih =>
    have haccounts : List.range' common (k + 1) = List.range' common k ++ [common + k] := by
      rw [List.range'_concat, one_mul]
    have hvalidators : List.range' 0 (2 * (k + 1)) =
      List.range' 0 (2 * k) ++ [2 * k, 2 * k + 1] := by
      rw [Nat.mul_succ, List.range'_concat, List.range'_concat, List.append_assoc]
      simp
    have ih' := ih (by omega) (by omega)
    rw [haccounts, hvalidators, List.flatMap_append, List.flatMap_append,
      ← List.append_assoc, ← ih']
    simp only [List.flatMap_cons, List.flatMap_nil, List.append_nil, List.append_assoc,
      sampleAccount_bytes (show common + k < 2 ^ 64 by omega) (show 2 * k < 2 ^ 64 by omega),
      sampleValidator_bytes]

/-- `common + extra` accounts and `rest` validators. -/
def manyAccounts (common extra rest : Nat) (haccounts : common + extra ≤ 2 ^ 64)
    (hvalidators : 2 * extra + rest ≤ 2 ^ 64) : NodeState :=
  sampleState (.numbered 0 (common + extra) (by omega) (sampleAccount common))
    (.numbered (2 * extra) rest hvalidators (sampleValidator common)) (common + extra)

/-- `common` accounts and `2 * extra + rest` validators. -/
def manyValidators (common extra rest : Nat) (haccounts : common + extra ≤ 2 ^ 64)
    (hvalidators : 2 * extra + rest ≤ 2 ^ 64) : NodeState :=
  sampleState (.numbered 0 common (by omega) (sampleAccount common))
    (.numbered 0 (2 * extra + rest) (by omega) (sampleValidator common)) common

theorem rootPreimage_manyAccounts (haccounts : common + extra ≤ 2 ^ 64)
    (hvalidators : 2 * extra + rest ≤ 2 ^ 64) :
    (manyAccounts common extra rest haccounts hvalidators).rootPreimage =
      (manyValidators common extra rest haccounts hvalidators).rootPreimage := by
  have hids : List.range' 0 (common + extra) =
    List.range' 0 common ++ List.range' common extra := by
    rw [← List.range'_append_1, zero_add]
  have hvids : List.range' 0 (2 * extra + rest) =
      List.range' 0 (2 * extra) ++ List.range' (2 * extra) rest := by
    rw [← List.range'_append_1, zero_add]
  have hshift := accounts_as_validators haccounts (show 2 * extra ≤ 2 ^ 64 by omega)
  unfold rootPreimage manyAccounts manyValidators sampleState
  simp only [inKeyOrder_numbered, hids, hvids, List.flatMap_append, List.append_assoc]
  congr 1
  rw [← List.append_assoc, hshift, List.append_assoc]

/-- States of these sizes are told apart by their roots, where the digest does
not take their bytes to the same value. -/
def Binds (sha256 : List UInt8 → Digest) (accounts validators accounts' validators' : Nat) : Prop :=
  ∀ s s' : NodeState, s.accountCount = accounts → s.validatorCount = validators →
    s'.accountCount = accounts' → s'.validatorCount = validators' →
    (sha256 s.rootPreimage = sha256 s'.rootPreimage → s.rootPreimage = s'.rootPreimage) →
    s.computeStateRoot sha256 = s'.computeStateRoot sha256 → s.Agree s'

theorem Agree.accountCount (h : s.Agree s') : s.accountCount = s'.accountCount := by
  have hkeys : ∀ id, id ∈ s.accounts.keys ↔ id ∈ s'.accounts.keys := by
    intro id
    have hget := congrArg Option.isSome (h.accounts id)
    rw [Option.isSome_map, Option.isSome_map] at hget
    rw [← not_iff_not, ← Table.get_eq_none, ← Table.get_eq_none, ← Option.not_isSome_iff_eq_none,
      ← Option.not_isSome_iff_eq_none, hget]
  exact ((List.perm_ext_iff_of_nodup s.accounts.nodup s'.accounts.nodup).mpr hkeys).length_eq

theorem Agree.symm (h : s.Agree s') : s'.Agree s :=
  ⟨fun id => (h.accounts id).symm, h.totalStaked.symm, fun vid => (h.stakes vid).symm,
    h.treasury.symm, h.minted.symm, h.burned.symm⟩

theorem accountCount_manyAccounts (haccounts : common + extra ≤ 2 ^ 64)
    (hvalidators : 2 * extra + rest ≤ 2 ^ 64) :
    (manyAccounts common extra rest haccounts hvalidators).accountCount = common + extra := by
  simp [accountCount, manyAccounts, sampleState]

theorem accountCount_manyValidators
    (haccounts : common + extra ≤ 2 ^ 64) (hvalidators : 2 * extra + rest ≤ 2 ^ 64) :
    (manyValidators common extra rest haccounts hvalidators).accountCount = common := by
  simp [accountCount, manyValidators, sampleState]

theorem manyAccounts_not_agree (hextra : 0 < extra)
    (haccounts : common + extra ≤ 2 ^ 64) (hvalidators : 2 * extra + rest ≤ 2 ^ 64) :
    ¬ (manyAccounts common extra rest haccounts hvalidators).Agree
      (manyValidators common extra rest haccounts hvalidators) := by
  intro hagree
  have hcount := hagree.accountCount
  rw [accountCount_manyAccounts, accountCount_manyValidators] at hcount
  omega

theorem exists_same_bytes (hextra : 0 < extra)
    (haccounts : common + extra ≤ 2 ^ 64) (hvalidators : 2 * extra + rest ≤ 2 ^ 64) :
    ∃ s s' : NodeState, s.accountCount = common + extra ∧ s.validatorCount = rest ∧
      s'.accountCount = common ∧ s'.validatorCount = 2 * extra + rest ∧
      s.rootPreimage = s'.rootPreimage ∧ ¬ s.Agree s' := by
  refine ⟨manyAccounts common extra rest haccounts hvalidators,
    manyValidators common extra rest haccounts hvalidators,
    accountCount_manyAccounts haccounts hvalidators, ?_,
    accountCount_manyValidators haccounts hvalidators, ?_,
    rootPreimage_manyAccounts haccounts hvalidators,
    manyAccounts_not_agree hextra haccounts hvalidators⟩
  · simp [validatorCount, manyAccounts, sampleState]
  · simp [validatorCount, manyValidators, sampleState]

/-- For sizes that the identifiers allow: equal roots mean equal states if and
only if the numbers of accounts are equal, or the byte strings have different
lengths. -/
theorem root_binds_iff (sha256 : List UInt8 → Digest) {m n' m' : Nat} (hn : n ≤ 2 ^ 64)
    (hm : m ≤ 2 ^ 64) (hn' : n' ≤ 2 ^ 64) (hm' : m' ≤ 2 ^ 64) :
    Binds sha256 n m n' m' ↔ n = n' ∨ 2 * n + m ≠ 2 * n' + m' := by
  constructor
  · intro hbinds
    by_contra hnot
    obtain ⟨hne, hlength⟩ := not_or.mp hnot
    rw [not_not] at hlength
    rcases Nat.lt_or_gt_of_ne hne with hlt | hlt
    · obtain ⟨s, s', hs, hv, hs', hv', hbytes, hdiffer⟩ := exists_same_bytes
        (show 0 < n' - n by omega) (show n + (n' - n) ≤ 2 ^ 64 by omega)
        (show 2 * (n' - n) + m' ≤ 2 ^ 64 by omega)
      exact hdiffer (hbinds s' s hs' (by omega) (by omega) hv (fun _ => hbytes.symm)
        (congrArg sha256 hbytes.symm)).symm
    · obtain ⟨s, s', hs, hv, hs', hv', hbytes, hdiffer⟩ := exists_same_bytes
        (show 0 < n - n' by omega) (show n' + (n - n') ≤ 2 ^ 64 by omega)
        (show 2 * (n - n') + m ≤ 2 ^ 64 by omega)
      exact hdiffer (hbinds s s' (by omega) hv hs' (by omega) (fun _ => hbytes)
        (congrArg sha256 hbytes))
  · rintro hsizes s s' rfl rfl rfl rfl hcollision hroot
    have hbytes := hcollision hroot
    rcases hsizes with hcount | hlength
    · exact agree_of_rootPreimage hcount hbytes
    · have hlengths := congrArg List.length hbytes
      rw [length_rootPreimage, length_rootPreimage] at hlengths
      omega

/-- Three accounts and two validators are told apart from two accounts and three
validators, under a digest that differs where the lengths do. -/
theorem three_accounts_bind :
    Binds (fun bytes => Vector.replicate 32 (UInt8.ofNat bytes.length)) 3 2 2 3 :=
  (root_binds_iff _ (by decide) (by decide) (by decide) (by decide)).mpr (.inr (by decide))

/-- Account 0 with nonce 1 beside a total stake of 1 has the bytes of a total of 0
and the validators 0 and 1 with stakes 0 and 1. -/
theorem account_reads_as_validators :
    (∀ sha256, (manyAccounts 0 1 0 (by decide) (by decide)).computeStateRoot sha256 =
        (manyValidators 0 1 0 (by decide) (by decide)).computeStateRoot sha256) ∧
      ¬ (manyAccounts 0 1 0 (by decide) (by decide)).Agree
        (manyValidators 0 1 0 (by decide) (by decide)) := by
  constructor
  · intro sha256
    exact congrArg sha256 (rootPreimage_manyAccounts (by decide) (by decide))
  · exact manyAccounts_not_agree (by decide) (by decide) (by decide)

end NodeState

namespace BlockProducer

open BlockRewardProcessor

/-! ### Runs -/

inductive Call where
  | submitTransaction (tx : Transaction)
  | produceBlock (order : List UInt64) (currentTime : UInt64)

def run (sha256 : List UInt8 → Digest) : BlockProducer → List Call → Option (Nat × BlockProducer)
  | p, [] => some (0, p)
  | p, .submitTransaction tx :: calls => run sha256 (p.submitTransaction tx).2 calls
  | p, .produceBlock order now :: calls =>
    match BlockProducer.produceBlock sha256 order now p with
    | (.ok _, p) => (run sha256 p calls).map fun (blocks, p) => (blocks + 1, p)
    | (.error (.err _), p) => run sha256 p calls
    | (.error _, _) => none

/-! ### The chain has minted -/

structure Minting (p : BlockProducer) : Prop where
  schedule : p.state.rewardProcessor.config = .default
  minted : p.store.lastHeight ≠ 0 → 0 < p.state.conservation.minted.toNat

variable {p p' : BlockProducer} {sha256 : List UInt8 → Digest} {order : List UInt64}
  {now : UInt64} {r : Result NodeError Block}

theorem nextReward_first (hschedule : p.state.rewardProcessor.config = .default)
    (hfirst : p.store.lastHeight = 0) : p.nextReward.toNat = 1 := by
  rw [nextReward, nextHeight, hfirst, baseReward, yearForBlock, hschedule]
  decide

theorem minted_recordBase_le (tc : TotalValueConservation) (base : OikosAmount) :
    tc.minted.toNat ≤ (recordBase tc base).2.minted.toNat := by
  rcases recordBase_cases tc base with ⟨-, heq⟩ | ⟨-, -, heq⟩ | ⟨-, -, hminted⟩
  · rw [heq]
  · rw [heq]
  · omega

theorem minted_recordBase_pos (tc : TotalValueConservation) {base : OikosAmount}
    (hbase : base.toNat = 1) : 0 < (recordBase tc base).2.minted.toNat := by
  rcases recordBase_cases tc base with ⟨hzero, -⟩ | ⟨-, hfull, heq⟩ | ⟨-, -, hminted⟩
  · omega
  · rw [heq]
    change 0 < tc.minted.toNat
    rw [toNat_oikosMaxSupply] at hfull
    omega
  · omega

theorem Minting.produceBlock (hp : p.Minting)
    (h : BlockProducer.produceBlock sha256 order now p = (r, p')) (hpanic : r ≠ .error .panic) :
    p'.Minting ∧ (p.store.lastHeight ≠ 0 → p'.store.lastHeight ≠ 0) ∧
      ∀ block, r = .ok block → p'.store.lastHeight ≠ 0 := by
  cases produceBlock_outcome h hpanic with
  | @unread stop store hread =>
    have hlast := lastHeight_readParent hread
    refine ⟨⟨hp.schedule, fun hne => hp.minted (hlast ▸ hne)⟩, fun hne => hlast ▸ hne, ?_⟩
    intro block hblock
    cases stop <;> cases hblock
  | rejected hread hrecord =>
    have hlast := lastHeight_readParent hread
    exact ⟨⟨hp.schedule, fun hne => hp.minted (hlast ▸ hne)⟩, fun hne => hlast ▸ hne, nofun⟩
  | rewarded hread hrecord hpool hheight =>
    have hnext : p.nextHeight ≠ 0 := by
      intro hzero
      have hnat := (fst_readParent hread).2
      rw [hzero] at hnat
      cases hnat
    have hminted : 0 < (recordBase p.state.conservation p.nextReward).2.minted.toNat := by
      by_cases hfirst : p.store.lastHeight = 0
      · exact minted_recordBase_pos _ (nextReward_first hp.schedule hfirst)
      · exact lt_of_lt_of_le (hp.minted hfirst) (minted_recordBase_le _ _)
    refine ⟨⟨hp.schedule, fun _ => hminted⟩, fun hne => ?_, fun block hblock => ?_⟩
    · rcases hheight with hset | ⟨hkept, -⟩
      · exact hset ▸ hnext
      · exact hkept ▸ hne
    · rcases hheight with hset | ⟨-, hfailed⟩
      · exact hset ▸ hnext
      · exact (hfailed block hblock).elim

theorem Minting.run {calls : List Call} {blocks : Nat} {q : BlockProducer} (hp : p.Minting)
    (h : p.run sha256 calls = some (blocks, q)) :
    q.Minting ∧ (p.store.lastHeight ≠ 0 ∨ 0 < blocks → q.store.lastHeight ≠ 0) := by
  induction calls generalizing p blocks with
  | nil =>
    cases h
    exact ⟨hp, fun hne => hne.resolve_right (lt_irrefl 0)⟩
  | cons c calls ih =>
    cases c with
    | submitTransaction tx => exact ih (p := (p.submitTransaction tx).2) ⟨hp.1, hp.2⟩ h
    | produceBlock order now =>
      unfold BlockProducer.run at h
      split at h
      · next block p₁ hcall =>
        obtain ⟨hp₁, -, hstored⟩ := hp.produceBlock hcall nofun
        obtain ⟨⟨more, q'⟩, hrest, heq⟩ := Option.map_eq_some_iff.mp h
        cases heq
        obtain ⟨hq, hheight⟩ := ih hp₁ hrest
        exact ⟨hq, fun _ => hheight (.inl (hstored block rfl))⟩
      · next e p₁ hcall =>
        obtain ⟨hp₁, hkept, -⟩ := hp.produceBlock hcall nofun
        obtain ⟨hq, hheight⟩ := ih hp₁ h
        exact ⟨hq, fun hne => hheight (hne.imp_left hkept)⟩
      · cases h

/-! ### Restarts -/

variable {json : JsonStrings} {config : NodeConfig} {store : StateStore}

theorem minting_new (hempty : store.lastHeight = 0) (h : new json config store = .ok p) :
    p.Minting := by
  unfold new at h
  split at h
  · next stop _ _ => cases stop <;> cases h
  · next last store' hlast =>
    have hkeeps := StateStore.keeps_getLastBlockHeight store
    rw [hlast] at hkeeps
    rw [StateStore.getLastBlockHeight_eq_ok hlast, if_pos hempty] at h
    have hstored : store'.lastHeight = 0 := (StateStore.lastHeight_congr hkeeps).trans hempty
    cases hgenesis : genesisState config with
    | error stop =>
      rw [hgenesis] at h
      cases h
    | ok state =>
      rw [hgenesis] at h
      cases h
      obtain ⟨pool, -, hstate⟩ := bind_eq_ok.mp hgenesis
      cases hstate
      exact ⟨rfl, fun hne => (hne hstored).elim⟩

/-- A producer on a store with a block starts with a tracker that has minted
nothing. -/
theorem conservation_restored (hstored : store.lastHeight ≠ 0)
    (h : new json config store = .ok p) : p.state.conservation = .new := by
  unfold new at h
  split at h
  · next stop _ _ => cases stop <;> cases h
  · next last store' hlast =>
    rw [StateStore.getLastBlockHeight_eq_ok hlast, if_neg hstored] at h
    split at h
    · cases h
    · next state store'' hrestore =>
      cases h
      obtain ⟨accounts, _, -, hrest⟩ := Effect.bind_eq_ok.mp hrestore
      obtain ⟨validators, _, -, hrest⟩ := Effect.bind_eq_ok.mp hrest
      obtain ⟨pool, _, -, hrest⟩ := Effect.bind_eq_ok.mp hrest
      obtain ⟨mandates, _, -, hpure⟩ := Effect.bind_eq_ok.mp hrest
      cases hpure
      rfl

structure SameChain (sha256 : List UInt8 → Digest) (s s' : NodeState) : Prop where
  root : s.computeStateRoot sha256 = s'.computeStateRoot sha256
  accounts : ∀ id, s.accounts.get id = s'.accounts.get id
  validators : ∀ vid, s.stakingPool.validators.get vid = s'.stakingPool.validators.get vid
  treasury : s.treasury.balance = s'.treasury.balance
  minted : s.conservation.minted = s'.conservation.minted

/-- After every run from an empty store that has produced a block, a restart
changes the minted total, and with it the root of the state. -/
theorem restart_is_visible (faults : List Bool) (calls : List Call) (blocks : Nat)
    {q restarted : BlockProducer} (hstart : new json config (.empty faults) = .ok p)
    (hrun : p.run sha256 calls = some (blocks, q)) (hblocks : 0 < blocks)
    (hrestart : new json config q.store = .ok restarted) :
    ¬ SameChain sha256 q.state restarted.state ∧
      ((q.state.computeStateRoot sha256 = restarted.state.computeStateRoot sha256 →
          q.state.rootPreimage = restarted.state.rootPreimage) →
        q.state.computeStateRoot sha256 ≠ restarted.state.computeStateRoot sha256) := by
  obtain ⟨hq, hstored⟩ := (minting_new rfl hstart).run hrun
  have hheight := hstored (.inr hblocks)
  have hminted : q.state.conservation.minted ≠ restarted.state.conservation.minted := by
    intro heq
    have hpos := hq.minted hheight
    rw [heq, conservation_restored hheight hrestart] at hpos
    exact lt_irrefl 0 hpos
  refine ⟨fun hsame => hminted hsame.minted, fun hcollision hroot => ?_⟩
  exact hminted (NodeState.minted_of_rootPreimage (hcollision hroot))

/-- The default chain after one block. -/
theorem default_restart_is_visible :
    ∃ p q restarted, new transferJson .default (.empty []) = .ok p ∧
      p.run (fun _ => zeroDigest) [.produceBlock [1] 1000] = some (1, q) ∧
      new transferJson .default q.store = .ok restarted ∧
      ¬ SameChain (fun _ => zeroDigest) q.state restarted.state := by
  refine ⟨_, _, _, rfl, rfl, rfl, ?_⟩
  exact (restart_is_visible [] [.produceBlock [1] 1000] 1 rfl rfl (by decide) rfl).1

/-- The default chain has two accounts, a funded treasury and a minted total; a
restart after its first block loses all three. -/
theorem default_restart_loses_state :
    ∃ p q restarted, new transferJson .default (.empty []) = .ok p ∧
      p.run (fun _ => zeroDigest) [.produceBlock [1] 1000] = some (1, q) ∧
      new transferJson .default q.store = .ok restarted ∧
      q.state.accounts.keys = [1, 2] ∧ restarted.state.accounts.keys = [] ∧
      q.state.treasury.balance = ⟨BitVec.ofNat 128 (1000000 * 10 ^ 18)⟩ ∧
      restarted.state.treasury.balance = .zero ∧
      q.state.conservation.minted = ⟨BitVec.ofNat 128 (1000000 * 10 ^ 18 + 1)⟩ ∧
      restarted.state.conservation.minted = .zero := by
  refine ⟨_, _, _, rfl, rfl, rfl, ?_, ?_, ?_, ?_, ?_, ?_⟩
  all_goals decide

end BlockProducer

end Oikos.Koinon
