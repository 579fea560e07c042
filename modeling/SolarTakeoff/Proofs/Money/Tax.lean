import SolarTakeoff.Proofs.Money.Amounts
import SolarTakeoff.Proofs.Validation.Accepted
import Mathlib.Tactic

/-!
# Tax to the cent

Tax is reckoned in words of 128 bits, which hold every product of an amount and
a rate, and cut to 64 bits at the end.  At rates of up to a hundred percent of
an amount that is not below zero nothing is cut off, and the tax is the exact
one rounded half up.  Rounding moves a tax by half a cent at most, so the taxes
of two parts and of their sum, three roundings, are within one cent.
-/

namespace SolarTakeoff

namespace Money

/-- The amount times the rate, in ten-thousandths of a cent. -/
def wideProduct (amount : Money) (rate : TaxRate) : BitVec 128 :=
  amount.cents.toBitVec.signExtend 128 * rate.bps.toBitVec.setWidth 128

def wideTax (amount : Money) (rate : TaxRate) : BitVec 128 :=
  (amount.wideProduct rate + 5000#128).sdiv 10000#128

/-- No step overflows in words of 128 bits, and the tax is what they come to,
cut to 64 bits. -/
structure TaxFits (amount : Money) (rate : TaxRate) : Prop where
  product : (amount.cents.toBitVec.signExtend 128).smulOverflow
    (rate.bps.toBitVec.setWidth 128) = false
  sum : (amount.wideProduct rate).saddOverflow 5000#128 = false
  tax_eq : (amount.tax rate).cents = .ofBitVec ((amount.wideTax rate).setWidth 64)

/-- The tax is the exact one rounded half up and not above the amount.  It grows
with the amount and with the rate, and the taxes of two parts are within one cent
of the tax of their sum. -/
structure TaxIsFair (amount : Money) (rate : TaxRate) : Prop where
  exact : (amount.tax rate).cents.toInt =
    (amount.cents.toInt * rate.bps.toNat + 5000) / 10000
  nonneg : 0 ≤ (amount.tax rate).cents.toInt
  le_amount : (amount.tax rate).cents.toInt ≤ amount.cents.toInt
  mono_amount : ∀ larger : Money, amount.cents.toInt ≤ larger.cents.toInt →
    (amount.tax rate).cents.toInt ≤ (larger.tax rate).cents.toInt
  mono_rate : ∀ higher : TaxRate, higher.validate = .ok () → rate.bps ≤ higher.bps →
    (amount.tax rate).cents.toInt ≤ (amount.tax higher).cents.toInt
  parts : ∀ other : Money, 0 ≤ other.cents.toInt →
    InRange (amount.cents.toInt + other.cents.toInt) →
      |((amount + other).tax rate).cents.toInt -
        ((amount.tax rate).cents.toInt + (other.tax rate).cents.toInt)| ≤ 1

variable {amount other larger : Money} {rate higher : TaxRate}

theorem toInt_wideAmount (amount : Money) :
    (amount.cents.toBitVec.signExtend 128).toInt = amount.cents.toInt :=
  BitVec.toInt_signExtend_of_le (by decide)

theorem toInt_wideRate (rate : TaxRate) :
    (rate.bps.toBitVec.setWidth 128).toInt = rate.bps.toNat := by
  have hlt : rate.bps.toNat < 4294967296 := rate.bps.toNat_lt
  rw [BitVec.toInt_setWidth, UInt32.toNat_toBitVec]
  exact Int.bmod_eq_of_le (by omega) (by omega)

/-- Sixty-three bits and thirty-two leave room for the sign and for half a cent. -/
theorem product_bounds (amount : Money) (rate : TaxRate) :
    -(2 ^ 95) ≤ amount.cents.toInt * rate.bps.toNat ∧
      amount.cents.toInt * rate.bps.toNat ≤ 2 ^ 95 := by
  have hlow : -(2 ^ 63) ≤ amount.cents.toInt := amount.cents.le_toInt
  have hhigh : amount.cents.toInt < 2 ^ 63 := amount.cents.toInt_lt
  have hrate : (rate.bps.toNat : ℤ) ≤ 2 ^ 32 := by exact_mod_cast rate.bps.toNat_lt.le
  have hnonneg : (0 : ℤ) ≤ rate.bps.toNat := Int.natCast_nonneg _
  constructor <;> nlinarith only [hlow, hhigh, hrate, hnonneg]

theorem taxFits (amount : Money) (rate : TaxRate) : amount.TaxFits rate := by
  obtain ⟨hlow, hhigh⟩ := product_bounds amount rate
  have hproduct : (amount.cents.toBitVec.signExtend 128).smulOverflow
      (rate.bps.toBitVec.setWidth 128) = false := by
    unfold BitVec.smulOverflow
    rw [toInt_wideAmount, toInt_wideRate, Bool.or_eq_false_iff, decide_eq_false_iff_not,
      decide_eq_false_iff_not]
    omega
  have hwide : (amount.wideProduct rate).toInt = amount.cents.toInt * rate.bps.toNat := by
    rw [wideProduct, BitVec.toInt_mul_of_not_smulOverflow (by simp [hproduct]),
      toInt_wideAmount, toInt_wideRate]
  have hhalf : (5000#128).toInt = 5000 := by decide
  have hsum : (amount.wideProduct rate).saddOverflow 5000#128 = false := by
    unfold BitVec.saddOverflow
    rw [hwide, hhalf, Bool.or_eq_false_iff, decide_eq_false_iff_not, decide_eq_false_iff_not]
    omega
  have htax : (amount.wideTax rate).toInt =
      (amount.cents.toInt * rate.bps.toNat + 5000).tdiv 10000 := by
    have hwhole : (10000#128).toInt = 10000 := by decide
    rw [wideTax, BitVec.toInt_sdiv_of_ne_or_ne _ _ (.inr (by decide)),
      BitVec.toInt_add_of_not_saddOverflow (by simp [hsum]), hwide, hhalf, hwhole]
  refine ⟨hproduct, hsum, Int64.toInt_inj.mp ?_⟩
  change (Int64.ofInt ((amount.cents.toInt * rate.bps.toNat + 5000).tdiv 10000)).toInt =
    ((amount.wideTax rate).setWidth 64).toInt
  rw [Int64.toInt_ofInt, BitVec.toInt_setWidth, ← htax, BitVec.toInt_eq_toNat_bmod]
  exact Int.bmod_bmod_of_dvd (by decide)

/-! ## Accepted rates -/

theorem scaled_bounds (hamount : 0 ≤ amount.cents.toInt) (hrate : rate.validate = .ok ()) :
    0 ≤ amount.cents.toInt * rate.bps.toNat ∧
      amount.cents.toInt * rate.bps.toNat ≤ amount.cents.toInt * 10000 := by
  have hbps : (rate.bps.toNat : ℤ) ≤ 10000 := by
    exact_mod_cast TaxRate.validate_eq_ok_iff.mp hrate
  exact ⟨Int.mul_nonneg hamount (Int.natCast_nonneg _),
    Int.mul_le_mul_of_nonneg_left hbps hamount⟩

theorem toInt_tax (hamount : 0 ≤ amount.cents.toInt) (hrate : rate.validate = .ok ()) :
    (amount.tax rate).cents.toInt = (amount.cents.toInt * rate.bps.toNat + 5000) / 10000 := by
  obtain ⟨hlow, hhigh⟩ := scaled_bounds hamount hrate
  have hlimit : amount.cents.toInt < 2 ^ 63 := amount.cents.toInt_lt
  change (Int64.ofInt ((amount.cents.toInt * rate.bps.toNat + 5000).tdiv 10000)).toInt = _
  rw [Int.tdiv_eq_ediv_of_nonneg (by omega)]
  exact Int64.toInt_ofInt_of_le (by omega) (by omega)

theorem tax_le_tax_of_amount (hamount : 0 ≤ amount.cents.toInt)
    (hrate : rate.validate = .ok ()) (h : amount.cents.toInt ≤ larger.cents.toInt) :
    (amount.tax rate).cents.toInt ≤ (larger.tax rate).cents.toInt := by
  have hscaled : amount.cents.toInt * rate.bps.toNat ≤ larger.cents.toInt * rate.bps.toNat :=
    Int.mul_le_mul_of_nonneg_right h (Int.natCast_nonneg _)
  rw [toInt_tax hamount hrate, toInt_tax (hamount.trans h) hrate]
  exact Int.ediv_le_ediv (by decide) (Int.add_le_add_right hscaled 5000)

theorem tax_le_tax_of_rate (hamount : 0 ≤ amount.cents.toInt)
    (hrate : rate.validate = .ok ()) (hhigher : higher.validate = .ok ())
    (h : rate.bps ≤ higher.bps) :
    (amount.tax rate).cents.toInt ≤ (amount.tax higher).cents.toInt := by
  have hbps : (rate.bps.toNat : ℤ) ≤ higher.bps.toNat := by
    exact_mod_cast UInt32.le_iff_toNat_le.mp h
  have hscaled : amount.cents.toInt * rate.bps.toNat ≤ amount.cents.toInt * higher.bps.toNat :=
    Int.mul_le_mul_of_nonneg_left hbps hamount
  rw [toInt_tax hamount hrate, toInt_tax hamount hhigher]
  exact Int.ediv_le_ediv (by decide) (Int.add_le_add_right hscaled 5000)

theorem abs_tax_add_sub_le (hamount : 0 ≤ amount.cents.toInt) (hother : 0 ≤ other.cents.toInt)
    (hrate : rate.validate = .ok ()) (h : InRange (amount.cents.toInt + other.cents.toInt)) :
    |((amount + other).tax rate).cents.toInt -
      ((amount.tax rate).cents.toInt + (other.tax rate).cents.toInt)| ≤ 1 := by
  have hsum : (amount + other).cents.toInt = amount.cents.toInt + other.cents.toInt :=
    toInt_add_of_inRange h
  have htotal : 0 ≤ (amount + other).cents.toInt := by omega
  rw [toInt_tax htotal hrate, toInt_tax hamount hrate, toInt_tax hother hrate, hsum,
    Int.add_mul, abs_le]
  omega

/-- Tax never overflows on the way, and at accepted rates it is fair to every
amount that is not below zero. -/
theorem taxFits_and_taxIsFair :
    (∀ (amount : Money) (rate : TaxRate), amount.TaxFits rate) ∧
      ∀ (amount : Money) (rate : TaxRate), 0 ≤ amount.cents.toInt → rate.validate = .ok () →
        amount.TaxIsFair rate := by
  refine ⟨taxFits, ?_⟩
  intro amount rate hamount hrate
  have hexact := toInt_tax hamount hrate
  obtain ⟨hlow, hhigh⟩ := scaled_bounds hamount hrate
  exact {
    exact := hexact
    nonneg := by
      rw [hexact]
      omega
    le_amount := by
      rw [hexact]
      omega
    mono_amount := fun larger => tax_le_tax_of_amount hamount hrate
    mono_rate := fun higher => tax_le_tax_of_rate hamount hrate
    parts := fun other hother => abs_tax_add_sub_le hamount hother hrate }

/-- The largest amount is its own tax at a hundred percent.  At ten percent five
cents are taxed one cent, and so are ten. -/
theorem taxIsFair_largest :
    (0 ≤ (⟨Int64.maxValue⟩ : Money).cents.toInt ∧ TaxRate.limit.validate = .ok () ∧
        ((⟨Int64.maxValue⟩ : Money).tax .limit).cents.toInt = 9223372036854775807) ∧
      0 ≤ (⟨5⟩ : Money).cents.toInt ∧ TaxRate.standard.validate = .ok () ∧
        (⟨5⟩ : Money).TaxIsFair .standard ∧ ((⟨5⟩ : Money).tax .standard).cents = 1 ∧
          ((⟨5⟩ + ⟨5⟩ : Money).tax .standard).cents = 1 := by
  have hlimit : TaxRate.limit.validate = .ok () := by decide
  have hlargest := taxFits_and_taxIsFair.2 ⟨Int64.maxValue⟩ .limit (by decide) hlimit
  refine ⟨⟨by decide, hlimit, ?_⟩, by decide, by decide,
    taxFits_and_taxIsFair.2 ⟨5⟩ .standard (by decide) (by decide), by decide, by decide⟩
  rw [hlargest.exact]
  decide

end Money

end SolarTakeoff
