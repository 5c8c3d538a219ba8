/-
What the conservation tracker promises its callers: that its two checks of the
invariant agree, and that a record it refuses leaves it as it was.
-/
import Oikos.Lib.Decimal
import Oikos.Koinon.Ledger

namespace Oikos.Koinon.TotalValueConservation

variable {tc : TotalValueConservation}

/-! ### The two checks -/

/-- The check that reports what is wrong. -/
def checkFullInvariantOk (tc : TotalValueConservation) : Except String Unit :=
  match (checkedAdd tc.totalStaked.units tc.totalCirculatingOikos.units).bind
      (checkedAdd · tc.totalTreasuryOikos.units) with
  | none =>
    .error ("oikos decomposition overflow: staked=" ++ showUnsigned tc.totalStaked.units ++
      ", circulating=" ++ showUnsigned tc.totalCirculatingOikos.units ++
      ", treasury=" ++ showUnsigned tc.totalTreasuryOikos.units)
  | some oikosSum =>
    if tc.totalOikos.units ≠ oikosSum then
      .error ("oikos decomposition mismatch: total=" ++ showUnsigned tc.totalOikos.units ++
        ", sum=" ++ showUnsigned oikosSum)
    else
      match checkedAdd tc.totalCirculatingKoin tc.totalTreasuryKoin with
      | none =>
        .error ("koin decomposition overflow: circulating=" ++
          showUnsigned tc.totalCirculatingKoin ++
          ", treasury=" ++ showUnsigned tc.totalTreasuryKoin)
      | some koinSum =>
        if tc.totalKoin ≠ koinSum then
          .error ("koin decomposition mismatch: total=" ++ showUnsigned tc.totalKoin ++
            ", sum=" ++ showUnsigned koinSum)
        else
          match checkedSub tc.minted.units tc.burned.units with
          | none =>
            .error ("burned exceeds minted: minted=" ++ showUnsigned tc.minted.units ++
              ", burned=" ++ showUnsigned tc.burned.units)
          | some circulatingSupply =>
            if oikosMaxSupply < circulatingSupply then
              .error ("circulating supply exceeds max: supply=" ++
                showUnsigned circulatingSupply ++ ", max=" ++ showUnsigned oikosMaxSupply)
            else .ok ()

/-- The two sums hold, without overflow. -/
def Decomposed (tc : TotalValueConservation) : Prop :=
  tc.totalOikos.toNat =
      tc.totalStaked.toNat + tc.totalCirculatingOikos.toNat + tc.totalTreasuryOikos.toNat ∧
    tc.totalKoin.toNat = tc.totalCirculatingKoin.toNat + tc.totalTreasuryKoin.toNat

theorem conserved_iff :
    tc.Conserved ↔ tc.Decomposed ∧ tc.minted.toNat - tc.burned.toNat ≤ oikosMaxSupply.toNat := by
  constructor
  · rintro ⟨hoikos, hkoin, hsupply⟩
    exact ⟨⟨hoikos, hkoin⟩, hsupply⟩
  · rintro ⟨⟨hoikos, hkoin⟩, hsupply⟩
    exact ⟨hoikos, hkoin, hsupply⟩

theorem checkFullInvariantOk_iff :
    tc.checkFullInvariantOk = .ok () ↔ tc.Conserved ∧ tc.burned.toNat ≤ tc.minted.toNat := by
  have hkoin := tc.totalKoin.isLt
  rw [conserved_iff, Decomposed, checkFullInvariantOk]
  cases hsum : (checkedAdd tc.totalStaked.units tc.totalCirculatingOikos.units).bind
      (checkedAdd · tc.totalTreasuryOikos.units) with
  | none => simp [oikosSum_ne hsum]
  | some oikosSum =>
    dsimp only
    rw [← oikosSum_eq_iff hsum]
    by_cases ho : tc.totalOikos.units = oikosSum
    · rw [if_neg (not_not.mpr ho)]
      cases hkoinSum : checkedAdd tc.totalCirculatingKoin tc.totalTreasuryKoin with
      | none =>
        have hne : tc.totalKoin.toNat ≠
            tc.totalCirculatingKoin.toNat + tc.totalTreasuryKoin.toNat := by
          have := checkedAdd_eq_none.mp hkoinSum
          omega
        simp [hne]
      | some koinSum =>
        dsimp only
        rw [← checkedAdd_eq_some.mp hkoinSum, BitVec.toNat_inj]
        by_cases hk : tc.totalKoin = koinSum
        · rw [if_neg (not_not.mpr hk)]
          cases hsub : checkedSub tc.minted.units tc.burned.units with
          | none =>
            have : tc.minted.toNat < tc.burned.toNat := checkedSub_eq_none.mp hsub
            simp [not_le.mpr this]
          | some supply =>
            have hsupply : tc.minted.toNat = supply.toNat + tc.burned.toNat :=
              checkedSub_eq_some.mp hsub
            dsimp only
            by_cases hcap : oikosMaxSupply < supply
            · rw [if_pos hcap]
              rw [BitVec.lt_def] at hcap
              simp only [reduceCtorEq, false_iff]
              omega
            · rw [if_neg hcap]
              rw [BitVec.lt_def] at hcap
              simp only [true_iff]
              exact ⟨⟨⟨ho, hk⟩, by omega⟩, by omega⟩
        · simp [hk]
    · simp [ho]

/-- The two checks agree exactly where no more was burned than minted, or a sum is
wrong in any case. -/
theorem checks_agree_iff (tc : TotalValueConservation) :
    (tc.checkFullInvariant = true ↔ tc.checkFullInvariantOk = .ok ()) ↔
      tc.burned.toNat ≤ tc.minted.toNat ∨ ¬ tc.Decomposed := by
  rw [checkFullInvariant_iff, checkFullInvariantOk_iff, conserved_iff]
  constructor
  · intro hagree
    by_contra hneither
    obtain ⟨hburned, hsums⟩ := not_or.mp hneither
    have hsupply : tc.minted.toNat - tc.burned.toNat ≤ oikosMaxSupply.toNat := by omega
    exact hburned (hagree.mp ⟨not_not.mp hsums, hsupply⟩).2
  · rintro (hburned | hsums)
    · exact ⟨fun h => ⟨h, hburned⟩, And.left⟩
    · exact ⟨fun h => absurd h.1 hsums, fun h => absurd h.1.1 hsums⟩

/-- One unit burned and none minted: one check passes, the other reports it. -/
theorem checks_disagree :
    (new.record (.burn ⟨1⟩)).2.checkFullInvariant = true ∧
      (new.record (.burn ⟨1⟩)).2.checkFullInvariantOk =
        .error "burned exceeds minted: minted=0, burned=1" := by
  decide

/-! ### Refused records -/

def Record.Covered (tc : TotalValueConservation) : Record → Prop
  | .burn amount =>
    tc.burned.toNat + amount.toNat ≤ tc.minted.toNat ∨
      2 ^ 128 ≤ tc.burned.toNat + amount.toNat
  | _ => True

theorem record_cases (tc : TotalValueConservation) (r : Record) :
    (tc.record r = (false, tc) ∧ r.Covered tc) ∨
    (∃ amount minted, r = .mint amount ∧ minted.toNat = tc.minted.toNat + amount.toNat ∧
      minted.toNat ≤ oikosMaxSupply.toNat ∧
      ((∃ total, total.toNat = tc.totalOikos.toNat + amount.toNat ∧
          tc.record r = (true, { tc with minted := minted, totalOikos := total })) ∨
        (2 ^ 128 ≤ tc.totalOikos.toNat + amount.toNat ∧
          tc.record r = (false, { tc with minted := minted })))) ∨
    (∃ amount burned circ, r = .burn amount ∧ burned.toNat = tc.burned.toNat + amount.toNat ∧
      tc.record r = (decide (burned.toNat ≤ tc.minted.toNat),
        { tc with burned := burned, totalCirculatingOikos := circ })) ∨
    ((tc.record r).1 = true ∧ r.Covered tc ∧ (tc.record r).2.minted = tc.minted ∧
      (tc.record r).2.burned = tc.burned ∧ (tc.record r).2.totalOikos = tc.totalOikos) := by
  cases r with
  | mint amount =>
    rcases tc.recordMint_cases amount with ⟨-, heq⟩ |
      ⟨minted, total, hm, hcap, ⟨ht, heq⟩ | ⟨ht, heq⟩⟩
    · exact .inl ⟨heq, trivial⟩
    · exact .inr (.inl ⟨amount, minted, rfl, hm, hcap, .inl ⟨total, ht, heq⟩⟩)
    · exact .inr (.inl ⟨amount, minted, rfl, hm, hcap, .inr ⟨ht, heq⟩⟩)
  | burn amount =>
    simp only [record, recordBurn]
    cases hburned : tc.burned.checkedAdd amount with
    | none => exact .inl ⟨rfl, .inr (OikosAmount.checkedAdd_eq_none.mp hburned)⟩
    | some burned =>
      exact .inr (.inr (.inl ⟨amount, burned, _, rfl,
        OikosAmount.checkedAdd_eq_some.mp hburned, rfl⟩))
  | stake amount =>
    rcases tc.recordStake_cases amount with heq | ⟨staked, circ, -, -, heq⟩
    · exact .inl ⟨heq, trivial⟩
    · rw [record, heq]
      exact .inr (.inr (.inr ⟨rfl, trivial, rfl, rfl, rfl⟩))
  | unstake amount =>
    rcases tc.recordUnstake_cases amount with heq | ⟨staked, circ, -, -, heq⟩
    · exact .inl ⟨heq, trivial⟩
    · rw [record, heq]
      exact .inr (.inr (.inr ⟨rfl, trivial, rfl, rfl, rfl⟩))
  | treasuryOikos amount =>
    rcases tc.recordTreasuryOikos_cases amount with heq | ⟨treasury, -, heq⟩
    · exact .inl ⟨heq, trivial⟩
    · rw [record, heq]
      exact .inr (.inr (.inr ⟨rfl, trivial, rfl, rfl, rfl⟩))
  | treasuryKoin amount =>
    rcases tc.recordTreasuryKoin_cases amount with heq | ⟨treasury, -, heq⟩
    · exact .inl ⟨heq, trivial⟩
    · rw [record, heq]
      exact .inr (.inr (.inr ⟨rfl, trivial, rfl, rfl, rfl⟩))
  | circulatingKoin amount =>
    rcases tc.recordCirculatingKoin_cases amount with heq | ⟨circ, -, heq⟩
    · exact .inl ⟨heq, trivial⟩
    · rw [record, heq]
      exact .inr (.inr (.inr ⟨rfl, trivial, rfl, rfl, rfl⟩))
  | koinMint amount =>
    rcases tc.recordKoinMint_cases amount with heq | ⟨total, circ, -, -, heq⟩
    · exact .inl ⟨heq, trivial⟩
    · rw [record, heq]
      exact .inr (.inr (.inr ⟨rfl, trivial, rfl, rfl, rfl⟩))
  | koinBurn amount =>
    rcases tc.recordKoinBurn_cases amount with heq | ⟨total, circ, -, -, heq⟩
    · exact .inl ⟨heq, trivial⟩
    · rw [record, heq]
      exact .inr (.inr (.inr ⟨rfl, trivial, rfl, rfl, rfl⟩))

/-- The tracker after a record, whether it was refused or not. -/
def step (tc : TotalValueConservation) (r : Record) : TotalValueConservation :=
  (tc.record r).2

def RefusedUnchanged (tc : TotalValueConservation) (r : Record) : Prop :=
  (tc.record r).1 = false → (tc.record r).2 = tc

/-- What a run from `new` keeps of the supply: the total never passes the minted
amount, nor that the cap. -/
structure Capped (tc : TotalValueConservation) : Prop where
  total : tc.totalOikos.toNat ≤ tc.minted.toNat
  cap : tc.minted.toNat ≤ oikosMaxSupply.toNat

theorem capped_new : new.Capped :=
  ⟨le_refl _, Nat.zero_le _⟩

theorem Capped.fits (h : tc.Capped) {minted amount : OikosAmount}
    (hminted : minted.toNat = tc.minted.toNat + amount.toNat)
    (hcap : minted.toNat ≤ oikosMaxSupply.toNat) :
    tc.totalOikos.toNat + amount.toNat < 2 ^ 128 := by
  have htotal := h.total
  have hmax := oikosMaxSupply.isLt
  omega

theorem Capped.step (h : tc.Capped) (r : Record) : (tc.step r).Capped := by
  rw [TotalValueConservation.step]
  rcases tc.record_cases r with ⟨heq, -⟩ | ⟨amount, minted, -, hminted, hcap, hmint⟩ |
    ⟨amount, burned, circ, -, -, heq⟩ | ⟨-, -, hminted, -, htotal⟩
  · rwa [heq]
  · rcases hmint with ⟨total, htotal, heq⟩ | ⟨hfull, -⟩
    · rw [heq]
      have := h.total
      exact ⟨by dsimp only; omega, hcap⟩
    · exact absurd (h.fits hminted hcap) (not_lt.mpr hfull)
  · rw [heq]
    exact ⟨h.total, h.cap⟩
  · exact ⟨by rw [hminted, htotal]; exact h.total, by rw [hminted]; exact h.cap⟩

theorem Capped.refusedUnchanged_iff (h : tc.Capped) (hburned : tc.burned.toNat ≤ tc.minted.toNat)
    (r : Record) : tc.RefusedUnchanged r ↔ r.Covered tc := by
  unfold RefusedUnchanged
  rcases tc.record_cases r with ⟨heq, hcovered⟩ | ⟨amount, minted, rfl, hminted, hcap, hmint⟩ |
    ⟨amount, burned, circ, rfl, hsum, heq⟩ | ⟨htrue, hcovered, -⟩
  · simp [heq, hcovered]
  · rcases hmint with ⟨total, -, heq⟩ | ⟨hfull, -⟩
    · simp [heq, Record.Covered]
    · exact absurd (h.fits hminted hcap) (not_lt.mpr hfull)
  · have hlt := burned.toNat_lt
    simp only [heq, Record.Covered, decide_eq_false_iff_not]
    constructor
    · intro hrefused
      by_cases hle : burned.toNat ≤ tc.minted.toNat
      · exact .inl (hsum ▸ hle)
      · have hsame : burned = tc.burned := congrArg TotalValueConservation.burned (hrefused hle)
        exact absurd (hsame ▸ hburned) hle
    · rintro (hle | hover) hnot
      · omega
      · omega
  · simp [htrue, hcovered]

theorem burned_le_step (hburned : tc.burned.toNat ≤ tc.minted.toNat) {r : Record}
    (hr : r.Covered tc) :
    (tc.step r).burned.toNat ≤ (tc.step r).minted.toNat := by
  rw [TotalValueConservation.step]
  rcases tc.record_cases r with ⟨heq, -⟩ | ⟨amount, minted, -, hminted, -, hmint⟩ |
    ⟨amount, burned, circ, rfl, hsum, heq⟩ | ⟨-, -, hminted, hsame, -⟩
  · rwa [heq]
  · rcases hmint with ⟨total, -, heq⟩ | ⟨-, heq⟩
    · rw [heq]
      dsimp only
      omega
    · rw [heq]
      dsimp only
      omega
  · have hlt := burned.toNat_lt
    simp only [Record.Covered] at hr
    rw [heq]
    dsimp only
    omega
  · rw [hminted, hsame]
    exact hburned

/-- In a run from `new` every refused record leaves the tracker as it was, and no more
is burned than minted, exactly when every burn of the run is covered. -/
theorem refusals_leave_no_trace_iff (records : List Record) :
    (Meets step RefusedUnchanged new records ∧
        ∀ tc ∈ visited step new records, tc.burned.toNat ≤ tc.minted.toNat) ↔
      Meets step (fun tc r => r.Covered tc) new records := by
  have hrun : ∀ tc : TotalValueConservation, tc.Capped → tc.burned.toNat ≤ tc.minted.toNat →
      ((Meets step RefusedUnchanged tc records ∧
          ∀ tc' ∈ visited step tc records, tc'.burned.toNat ≤ tc'.minted.toNat) ↔
        Meets step (fun tc r => r.Covered tc) tc records) := by
    induction records with
    | nil =>
      intro tc _ hburned
      simpa [Meets, visited] using hburned
    | cons r records ih =>
      intro tc hcapped hburned
      have hfirst := hcapped.refusedUnchanged_iff hburned r
      constructor
      · rintro ⟨⟨hr, hrest⟩, hall⟩
        have hcovered := hfirst.mp hr
        have hnext := burned_le_step hburned hcovered
        exact ⟨hcovered, (ih _ (hcapped.step r) hnext).mp
          ⟨hrest, fun tc' htc' => hall tc' (List.mem_cons_of_mem _ htc')⟩⟩
      · rintro ⟨hcovered, hrest⟩
        have hnext := burned_le_step hburned hcovered
        obtain ⟨hmeets, hall⟩ := (ih _ (hcapped.step r) hnext).mpr hrest
        exact ⟨⟨hfirst.mpr hcovered, hmeets⟩, List.forall_mem_cons.mpr ⟨hburned, hall⟩⟩
  exact hrun new capped_new (le_refl _)

/-- A burn of one unit before anything is minted returns `false` and is stored. -/
theorem refused_burn_stored :
    (new.record (.burn ⟨1⟩)).1 = false ∧ (new.record (.burn ⟨1⟩)).2 ≠ new ∧
      (new.record (.burn ⟨1⟩)).2.minted.toNat < (new.record (.burn ⟨1⟩)).2.burned.toNat := by
  decide

end Oikos.Koinon.TotalValueConservation
