/-
# The next base gas price (EIP-1559)

`calculate_next_base_gas_price` moves the base price of a block toward the gas its predecessor
used: up when the block used more than the target, down when it used less, and never below
`MIN_GAS_PRICE`.  It computes the change as `price * |gas_used - gas_target| / gas_target / 48` in
`u128`, converts it back to `u64` with `expect`, and adds or subtracts it in `u64`.

Every panic of the function is an error with the source's message, and `u64` arithmetic panics on
overflow, as in a debug build (`Lib/Checked.lean`).  Values are natural numbers; the claims bound
them by their Rust types.

`nextBaseGasPrice` is the price the function is meant to compute, with one floor division for
the source's two.  `calculateNextBaseGasPrice_eq_ok` says that every successful call returns it,
and `calculateNextBaseGasPrice_of_fits` that no call panics on the function's whole domain as
long as that price fits in `u64`.  The bound by a 48th of the price and the monotonicity in the
gas used and in the price are facts of `nextBaseGasPrice`.
-/
import Sequencer.Lib.Checked
import Sequencer.Lib.Run

namespace Sequencer.Batcher

/-! ## 1. The function -/

/-- `GAS_PRICE_MAX_CHANGE_DENOMINATOR`. -/
def gasPriceMaxChangeDenominator : Nat := 48

/-- `MIN_GAS_PRICE`, in fri. -/
def minGasPrice : Nat := 100000

/-- `MAX_BLOCK_SIZE`, in gas units. -/
def maxBlockSize : Nat := 4000000000

/-- `u64::abs_diff`. -/
def absDiff (a b : Nat) : Nat := if a < b then b - a else a - b

/-- `calculate_next_base_gas_price`. -/
def calculateNextBaseGasPrice (price gasUsed gasTarget : Nat) : Except String Nat :=
  if gasTarget ≠ maxBlockSize / 2 then
    .error "Gas target must be 50% of max block size to balance price changes."
  else if ¬price ≥ minGasPrice then
    .error "The gas price must be at least the minimum to prevent precision loss during multiplication and division."
  else do
    let gasDelta := absDiff gasUsed gasTarget
    let gasDeltaCost ← expect (checkedMul 128 price gasDelta) "Both variables originate from u64"
    let priceChangeU128 := gasDeltaCost / gasTarget / gasPriceMaxChangeDenominator
    let priceChange ← expect (tryFrom 64 priceChangeU128)
      "Result fits u64 after division of a bounded gas delta"
    let adjustedPrice ←
      (if gasUsed > gasTarget then uAdd 64 price priceChange else uSub price priceChange)
    if ¬(gasUsed > gasTarget ∧ adjustedPrice ≥ price ∨ gasUsed ≤ gasTarget ∧ adjustedPrice ≤ price) then
      .error "assertion failed: gas_used > gas_target && adjusted_price >= price || gas_used <= gas_target && adjusted_price <= price"
    else
      return max adjustedPrice minGasPrice

/-- The price the function is meant to compute: the price moved by the fraction
`(gas_used - gas_target) / (48 * gas_target)` of itself, rounded toward the price, and at least
`MIN_GAS_PRICE`. -/
def nextBaseGasPrice (price gasUsed gasTarget : Nat) : Nat :=
  if gasUsed > gasTarget then
    max minGasPrice (price + price * (gasUsed - gasTarget) / (gasTarget * gasPriceMaxChangeDenominator))
  else
    max minGasPrice (price - price * (gasTarget - gasUsed) / (gasTarget * gasPriceMaxChangeDenominator))

/-! ## 2. Arithmetic of the change -/

theorem nextBaseGasPrice_of_gt {price gasUsed gasTarget : Nat} (h : gasUsed > gasTarget) :
    nextBaseGasPrice price gasUsed gasTarget = max minGasPrice
      (price + price * (gasUsed - gasTarget) / (gasTarget * gasPriceMaxChangeDenominator)) :=
  if_pos h

theorem nextBaseGasPrice_of_le {price gasUsed gasTarget : Nat} (h : gasUsed ≤ gasTarget) :
    nextBaseGasPrice price gasUsed gasTarget = max minGasPrice
      (price - price * (gasTarget - gasUsed) / (gasTarget * gasPriceMaxChangeDenominator)) :=
  if_neg (Nat.not_lt.mpr h)

theorem absDiff_of_lt {a b : Nat} (h : b < a) : absDiff a b = a - b := by
  unfold absDiff
  rw [if_neg (by omega)]

theorem absDiff_of_le {a b : Nat} (h : a ≤ b) : absDiff a b = b - a := by
  unfold absDiff
  split_ifs <;> omega

/-- A gas use up to twice the target is at most the target away from it. -/
theorem absDiff_le {gasUsed gasTarget : Nat} (h : gasUsed ≤ 2 * gasTarget) :
    absDiff gasUsed gasTarget ≤ gasTarget := by
  unfold absDiff
  split_ifs <;> omega

/-- A change by at most the whole denominator is at most a 48th of the price. -/
theorem priceChange_le {price delta gasTarget : Nat} (hdelta : delta ≤ gasTarget) :
    price * delta / (gasTarget * gasPriceMaxChangeDenominator) ≤
      price / gasPriceMaxChangeDenominator := by
  rcases Nat.eq_zero_or_pos gasTarget with rfl | htarget
  · simp
  calc price * delta / (gasTarget * gasPriceMaxChangeDenominator)
      ≤ price * gasTarget / (gasTarget * gasPriceMaxChangeDenominator) :=
        Nat.div_le_div_right (Nat.mul_le_mul_left _ hdelta)
    _ = price / gasPriceMaxChangeDenominator := by
        rw [Nat.mul_comm price gasTarget, Nat.mul_div_mul_left _ _ htarget]

/-- A decrease by a fraction at most 1 of the price keeps the order of prices: the changes of
two prices differ by at most the prices do. -/
theorem sub_mul_div_le_sub_mul_div {price price' delta denominator : Nat} (hprice : price ≤ price')
    (hdelta : delta ≤ denominator) :
    price - price * delta / denominator ≤ price' - price' * delta / denominator := by
  rcases Nat.eq_zero_or_pos denominator with rfl | hpos
  · simpa using hprice
  obtain ⟨k, rfl⟩ := Nat.exists_eq_add_of_le hprice
  have hkey : (price + k) * delta / denominator ≤ price * delta / denominator + k := by
    calc (price + k) * delta / denominator
        ≤ (price * delta + k * denominator) / denominator := by
          rw [Nat.add_mul]
          exact Nat.div_le_div_right (Nat.add_le_add_left (Nat.mul_le_mul_left k hdelta) _)
      _ = price * delta / denominator + k := Nat.add_mul_div_right _ _ hpos
  have hle : price * delta / denominator ≤ price :=
    Nat.div_le_of_le_mul (by rw [Nat.mul_comm denominator]; exact Nat.mul_le_mul_left _ hdelta)
  omega

/-! ## 3. What the function returns -/

section Results

variable {price gasUsed gasTarget r : Nat}

/-- **Every successful call returns `nextBaseGasPrice`**, for the target and the prices its
assertions allow. -/
theorem calculateNextBaseGasPrice_eq_ok
    (h : calculateNextBaseGasPrice price gasUsed gasTarget = .ok r) :
    gasTarget = maxBlockSize / 2 ∧ minGasPrice ≤ price ∧
      r = nextBaseGasPrice price gasUsed gasTarget := by
  unfold calculateNextBaseGasPrice at h
  by_cases htarget : gasTarget = maxBlockSize / 2
  swap
  · rw [if_pos htarget] at h
    cases h
  rw [if_neg (not_not.mpr htarget)] at h
  by_cases hmin : minGasPrice ≤ price
  swap
  · rw [if_pos hmin] at h
    cases h
  rw [if_neg (not_not.mpr hmin)] at h
  obtain ⟨cost, hcost, hchanged⟩ := bind_eq_ok.mp h
  obtain ⟨change, hchange, hadjust⟩ := bind_eq_ok.mp hchanged
  obtain ⟨adjusted, hadjusted, hassert⟩ := bind_eq_ok.mp hadjust
  -- the last assertion holds, so the result is the adjusted price, at least the minimum
  have hresult : r = max adjusted minGasPrice := by
    split_ifs at hassert
    exact (pure_eq_ok.mp hassert).symm
  obtain ⟨rfl, -⟩ := checkedMul_eq_some.mp (expect_eq_ok.mp hcost)
  obtain ⟨rfl, -⟩ := tryFrom_eq_some.mp (expect_eq_ok.mp hchange)
  refine ⟨htarget, hmin, ?_⟩
  rw [hresult]
  by_cases hgt : gasUsed > gasTarget
  · rw [if_pos hgt] at hadjusted
    obtain ⟨rfl, -⟩ := uAdd_eq_ok.mp hadjusted
    rw [nextBaseGasPrice_of_gt hgt, absDiff_of_lt hgt, Nat.div_div_eq_div_mul, max_comm]
  · rw [if_neg hgt] at hadjusted
    obtain ⟨rfl, -⟩ := uSub_eq_ok.mp hadjusted
    rw [nextBaseGasPrice_of_le (Nat.le_of_not_lt hgt), absDiff_of_le (Nat.le_of_not_lt hgt),
      Nat.div_div_eq_div_mul, max_comm]

/-- **No panic on the function's domain**: a price of at least the minimum that fits in `u64`,
a gas use of at most a block, and a next price that fits in `u64`. -/
theorem calculateNextBaseGasPrice_of_fits (hmin : minGasPrice ≤ price) (hprice : price ≤ uMax 64)
    (hused : gasUsed ≤ maxBlockSize)
    (hfits : nextBaseGasPrice price gasUsed (maxBlockSize / 2) ≤ uMax 64) :
    calculateNextBaseGasPrice price gasUsed (maxBlockSize / 2) =
      .ok (nextBaseGasPrice price gasUsed (maxBlockSize / 2)) := by
  have hdelta : absDiff gasUsed (maxBlockSize / 2) ≤ maxBlockSize / 2 :=
    absDiff_le (by unfold maxBlockSize at hused ⊢; omega)
  -- the product of two `u64` values fits in `u128`
  have hcost : price * absDiff gasUsed (maxBlockSize / 2) ≤ uMax 128 :=
    calc price * absDiff gasUsed (maxBlockSize / 2) ≤ uMax 64 * (maxBlockSize / 2) :=
          Nat.mul_le_mul hprice hdelta
      _ ≤ uMax 128 := by decide
  have hchange : price * absDiff gasUsed (maxBlockSize / 2) / (maxBlockSize / 2) /
      gasPriceMaxChangeDenominator ≤ uMax 64 := by
    rw [Nat.div_div_eq_div_mul]
    exact Nat.le_trans (priceChange_le hdelta) (Nat.le_trans (Nat.div_le_self _ _) hprice)
  unfold calculateNextBaseGasPrice
  rw [if_neg (not_not.mpr rfl), if_neg (not_not.mpr hmin)]
  refine bind_eq_ok.mpr ⟨_, expect_eq_ok.mpr (checkedMul_eq_some.mpr ⟨rfl, hcost⟩), ?_⟩
  refine bind_eq_ok.mpr ⟨_, expect_eq_ok.mpr (tryFrom_eq_some.mpr ⟨rfl, hchange⟩), ?_⟩
  rw [Nat.div_div_eq_div_mul]
  by_cases hgt : gasUsed > maxBlockSize / 2
  · rw [nextBaseGasPrice_of_gt hgt] at hfits ⊢
    rw [if_pos hgt, absDiff_of_lt hgt]
    have hadd : price + price * (gasUsed - maxBlockSize / 2) /
        (maxBlockSize / 2 * gasPriceMaxChangeDenominator) ≤ uMax 64 :=
      Nat.le_trans (le_max_right _ _) hfits
    refine bind_eq_ok.mpr ⟨_, uAdd_eq_ok.mpr ⟨rfl, hadd⟩, ?_⟩
    rw [if_neg (not_not.mpr (.inl ⟨hgt, Nat.le_add_right _ _⟩))]
    exact pure_eq_ok.mpr (max_comm _ _)
  · have hle := Nat.le_of_not_lt hgt
    rw [nextBaseGasPrice_of_le hle]
    rw [if_neg hgt, absDiff_of_le hle]
    have hsub : price * (maxBlockSize / 2 - gasUsed) /
        (maxBlockSize / 2 * gasPriceMaxChangeDenominator) ≤ price :=
      Nat.le_trans (priceChange_le (Nat.sub_le _ _)) (Nat.div_le_self _ _)
    refine bind_eq_ok.mpr ⟨_, uSub_eq_ok.mpr ⟨rfl, hsub⟩, ?_⟩
    rw [if_neg (not_not.mpr (.inr ⟨hle, Nat.sub_le _ _⟩))]
    exact pure_eq_ok.mpr (max_comm _ _)

end Results

/-! ## 4. The next price: bounded and monotone -/

section NextPrice

variable {price price' gasUsed gasUsed' gasTarget : Nat}

/-- **The price goes up by at most a 48th of itself**, for a gas use of at most twice the target. -/
theorem nextBaseGasPrice_le_add (hmin : minGasPrice ≤ price) (hused : gasUsed ≤ 2 * gasTarget) :
    nextBaseGasPrice price gasUsed gasTarget ≤ price + price / gasPriceMaxChangeDenominator := by
  have hchange := @priceChange_le price _ _ (absDiff_le hused)
  by_cases hgt : gasUsed > gasTarget
  · rw [nextBaseGasPrice_of_gt hgt]
    rw [absDiff_of_lt hgt] at hchange
    exact max_le (Nat.le_trans hmin (Nat.le_add_right _ _)) (Nat.add_le_add_left hchange _)
  · rw [nextBaseGasPrice_of_le (Nat.le_of_not_lt hgt)]
    exact max_le (Nat.le_trans hmin (Nat.le_add_right _ _))
      (Nat.le_trans (Nat.sub_le _ _) (Nat.le_add_right _ _))

/-- **The price goes down by at most a 48th of itself**, for a gas use of at most twice the
target. -/
theorem le_nextBaseGasPrice_add (hused : gasUsed ≤ 2 * gasTarget) :
    price ≤ nextBaseGasPrice price gasUsed gasTarget + price / gasPriceMaxChangeDenominator := by
  have hchange := @priceChange_le price _ _ (absDiff_le hused)
  by_cases hgt : gasUsed > gasTarget
  · rw [nextBaseGasPrice_of_gt hgt]
    exact Nat.le_trans (Nat.le_add_right _ _)
      (Nat.add_le_add_right (Nat.le_trans (Nat.le_add_right _ _) (le_max_right _ _)) _)
  · rw [nextBaseGasPrice_of_le (Nat.le_of_not_lt hgt)]
    rw [absDiff_of_le (Nat.le_of_not_lt hgt)] at hchange
    have hdown := le_max_right minGasPrice
      (price - price * (gasTarget - gasUsed) / (gasTarget * gasPriceMaxChangeDenominator))
    omega

/-- **More gas used never lowers the next price.** -/
theorem nextBaseGasPrice_mono_gasUsed (h : gasUsed ≤ gasUsed') :
    nextBaseGasPrice price gasUsed gasTarget ≤ nextBaseGasPrice price gasUsed' gasTarget := by
  by_cases hgt : gasUsed > gasTarget
  · have hgt' : gasUsed' > gasTarget := Nat.lt_of_lt_of_le hgt h
    rw [nextBaseGasPrice_of_gt hgt, nextBaseGasPrice_of_gt hgt']
    exact max_le_max (Nat.le_refl _) (Nat.add_le_add_left
      (Nat.div_le_div_right (Nat.mul_le_mul_left _ (Nat.sub_le_sub_right h _))) _)
  have hle := Nat.le_of_not_lt hgt
  rw [nextBaseGasPrice_of_le hle]
  by_cases hgt' : gasUsed' > gasTarget
  · -- below the target the price goes down, above it up
    rw [nextBaseGasPrice_of_gt hgt']
    exact max_le_max (Nat.le_refl _) (Nat.le_trans (Nat.sub_le _ _) (Nat.le_add_right _ _))
  · rw [nextBaseGasPrice_of_le (Nat.le_of_not_lt hgt')]
    exact max_le_max (Nat.le_refl _) (Nat.sub_le_sub_left
      (Nat.div_le_div_right (Nat.mul_le_mul_left _ (Nat.sub_le_sub_left h _))) _)

/-- **A higher price never gives a lower next price**: a decrease is a fraction of at most a
48th of the price, so it grows by less than the price does. -/
theorem nextBaseGasPrice_mono_price (h : price ≤ price') :
    nextBaseGasPrice price gasUsed gasTarget ≤ nextBaseGasPrice price' gasUsed gasTarget := by
  by_cases hgt : gasUsed > gasTarget
  · rw [nextBaseGasPrice_of_gt hgt, nextBaseGasPrice_of_gt hgt]
    exact max_le_max (Nat.le_refl _) (Nat.add_le_add h
      (Nat.div_le_div_right (Nat.mul_le_mul_right _ h)))
  · have hle := Nat.le_of_not_lt hgt
    rw [nextBaseGasPrice_of_le hle, nextBaseGasPrice_of_le hle]
    have hdelta : gasTarget - gasUsed ≤ gasTarget * gasPriceMaxChangeDenominator :=
      Nat.le_trans (Nat.sub_le _ _) (Nat.le_mul_of_pos_right _ (by decide))
    exact max_le_max (Nat.le_refl _) (sub_mul_div_le_sub_mul_div h hdelta)

end NextPrice

/-! ## 5. The claim -/

/-- **The base-price update is exact, bounded and monotone**: on the function's domain it does not
panic and returns `nextBaseGasPrice`, which is within a 48th of the price, and every successful
call with more gas used or a higher price returns at least as much. -/
theorem calculateNextBaseGasPrice_bounded_monotone (price gasUsed : Nat)
    (hmin : minGasPrice ≤ price) (hprice : price ≤ uMax 64) (hused : gasUsed ≤ maxBlockSize)
    (hfits : nextBaseGasPrice price gasUsed (maxBlockSize / 2) ≤ uMax 64) :
    calculateNextBaseGasPrice price gasUsed (maxBlockSize / 2) =
        .ok (nextBaseGasPrice price gasUsed (maxBlockSize / 2)) ∧
      nextBaseGasPrice price gasUsed (maxBlockSize / 2) ≤ price + price / 48 ∧
      price ≤ nextBaseGasPrice price gasUsed (maxBlockSize / 2) + price / 48 ∧
      (∀ gasUsed' r, gasUsed ≤ gasUsed' →
        calculateNextBaseGasPrice price gasUsed' (maxBlockSize / 2) = .ok r →
        nextBaseGasPrice price gasUsed (maxBlockSize / 2) ≤ r) ∧
      (∀ price' r, price ≤ price' →
        calculateNextBaseGasPrice price' gasUsed (maxBlockSize / 2) = .ok r →
        nextBaseGasPrice price gasUsed (maxBlockSize / 2) ≤ r) := by
  have hhalf : gasUsed ≤ 2 * (maxBlockSize / 2) := by
    unfold maxBlockSize at hused ⊢
    omega
  refine ⟨calculateNextBaseGasPrice_of_fits hmin hprice hused hfits,
    nextBaseGasPrice_le_add hmin hhalf, le_nextBaseGasPrice_add hhalf, ?_, ?_⟩
  · intro gasUsed' r hle hr
    rw [(calculateNextBaseGasPrice_eq_ok hr).2.2]
    exact nextBaseGasPrice_mono_gasUsed hle
  · intro price' r hle hr
    rw [(calculateNextBaseGasPrice_eq_ok hr).2.2]
    exact nextBaseGasPrice_mono_price hle

/-- At the target the price stays. -/
theorem calculateNextBaseGasPrice_bounded_monotone_at_target :
    minGasPrice ≤ 1000000 ∧ 1000000 ≤ uMax 64 ∧ maxBlockSize / 2 ≤ maxBlockSize ∧
      nextBaseGasPrice 1000000 (maxBlockSize / 2) (maxBlockSize / 2) ≤ uMax 64 ∧
      calculateNextBaseGasPrice 1000000 (maxBlockSize / 2) (maxBlockSize / 2) = .ok 1000000 := by
  have hmin : minGasPrice ≤ 1000000 := by decide
  have hprice : 1000000 ≤ uMax 64 := by decide
  have hused : maxBlockSize / 2 ≤ maxBlockSize := by decide
  have hfits : nextBaseGasPrice 1000000 (maxBlockSize / 2) (maxBlockSize / 2) ≤ uMax 64 := by decide
  refine ⟨hmin, hprice, hused, hfits, ?_⟩
  rw [(calculateNextBaseGasPrice_bounded_monotone 1000000 (maxBlockSize / 2) hmin hprice hused
    hfits).1]
  decide

end Sequencer.Batcher
