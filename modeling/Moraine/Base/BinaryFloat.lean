-- SUMMARY: Binary floats as bit patterns: their numeric value, and the pattern that sorts as the value does.
import Mathlib

/-!
# Binary floats

A pattern of `w + 1` bits is a sign above a magnitude, and the magnitude an exponent above `f` fraction bits. The
magnitude is read as a number exactly, in units of half the least subnormal; the infinities are the first numbers past
the finite ones, and everything past them is a NaN. The value grows with the magnitude, so flipping the sign bit of a
positive pattern and every bit of a negative one sorts the patterns by value.
-/

namespace BinaryFloat

variable {w : Nat} (f : Nat)

def magnitude (bits : BitVec (w + 1)) : Nat := bits.toNat % 2 ^ w

/-- The magnitude of the infinities: an exponent of ones over a zero fraction. -/
def infinity (w f : Nat) : Nat := (2 ^ (w - f) - 1) * 2 ^ f

abbrev IsNan (bits : BitVec (w + 1)) : Prop := infinity w f < magnitude bits

/-- The number of a magnitude. Below the first exponent it is subnormal. -/
def scaled (m : Nat) : Nat :=
  if m / 2 ^ f = 0 then 2 * m else (2 ^ f + m % 2 ^ f) * 2 ^ (m / 2 ^ f)

/-- The value a pattern is ordered by. The two zeros have one value, and so have all NaNs, next above the infinity. -/
def value (bits : BitVec (w + 1)) : ℤ :=
  if IsNan f bits then scaled f (infinity w f) + 1
  else if bits.msb then -scaled f (magnitude bits)
  else scaled f (magnitude bits)

/-! ## The number of a magnitude -/

theorem scaled_lt (m : Nat) : scaled f m < 2 ^ f * 2 ^ (m / 2 ^ f + 1) := by
  have hmod : m % 2 ^ f < 2 ^ f := Nat.mod_lt _ (by positivity)
  unfold scaled
  split
  next h =>
    have hm : m < 2 ^ f := (Nat.div_eq_zero_iff_lt (by positivity)).mp h
    rw [h]
    omega
  next =>
    calc (2 ^ f + m % 2 ^ f) * 2 ^ (m / 2 ^ f)
        < (2 ^ f + 2 ^ f) * 2 ^ (m / 2 ^ f) := by gcongr
      _ = 2 ^ f * 2 ^ (m / 2 ^ f + 1) := by ring

theorem le_scaled {m : Nat} (h : 0 < m / 2 ^ f) : 2 ^ f * 2 ^ (m / 2 ^ f) ≤ scaled f m := by
  rw [scaled, if_neg h.ne']
  gcongr
  exact Nat.le_add_right _ _

theorem scaled_strictMono : StrictMono (scaled f) := by
  intro m n hmn
  have hexp : m / 2 ^ f ≤ n / 2 ^ f := Nat.div_le_div_right hmn.le
  rcases hexp.eq_or_lt with heq | hlt
  · -- One exponent: the fractions decide.
    have hm := Nat.div_add_mod m (2 ^ f)
    have hn := Nat.div_add_mod n (2 ^ f)
    rw [← heq] at hn
    have hfrac : m % 2 ^ f < n % 2 ^ f := by omega
    unfold scaled
    rw [← heq]
    split
    next => omega
    next => gcongr
  · calc scaled f m < 2 ^ f * 2 ^ (m / 2 ^ f + 1) := scaled_lt f m
      _ ≤ 2 ^ f * 2 ^ (n / 2 ^ f) := Nat.mul_le_mul_left _ (Nat.pow_le_pow_right (by omega) hlt)
      _ ≤ scaled f n := le_scaled f ((Nat.zero_le _).trans_lt hlt)

@[simp] theorem scaled_zero : scaled f 0 = 0 := by simp [scaled]

theorem scaled_pos {m : Nat} (h : 0 < m) : 0 < scaled f m := by
  simpa using scaled_strictMono f h

theorem scaled_lt_iff {m n : Nat} : scaled f m < scaled f n ↔ m < n := (scaled_strictMono f).lt_iff_lt

/-! ## The pattern that sorts as the value -/

/-- Flips every bit of a negative pattern and the sign bit of any other. -/
def ordered (bits : BitVec (w + 1)) : BitVec (w + 1) :=
  bits ^^^ (BitVec.ofNat (w + 1) (2 ^ w) ||| (0 - bits >>> w))

theorem magnitude_lt (bits : BitVec (w + 1)) : magnitude bits < 2 ^ w := Nat.mod_lt _ (by positivity)

theorem toNat_eq_of_msb {bits : BitVec (w + 1)} (h : bits.msb = true) : bits.toNat = magnitude bits + 2 ^ w := by
  have hge := BitVec.msb_eq_true_iff_two_mul_ge.mp h
  have hlt := bits.isLt
  rw [pow_succ] at hge hlt
  rw [magnitude, Nat.mod_eq_sub_mod (by omega), Nat.mod_eq_of_lt] <;> omega

theorem toNat_eq_of_not_msb {bits : BitVec (w + 1)} (h : bits.msb = false) : bits.toNat = magnitude bits := by
  have hlt := BitVec.msb_eq_false_iff_two_mul_lt.mp h
  rw [pow_succ] at hlt
  rw [magnitude, Nat.mod_eq_of_lt (by omega)]

theorem xor_two_pow_of_lt {m : Nat} (h : m < 2 ^ w) : m ^^^ 2 ^ w = 2 ^ w + m := by
  apply Nat.eq_of_testBit_eq
  intro i
  rw [Nat.testBit_xor, Nat.testBit_two_pow]
  rcases lt_trichotomy i w with hi | rfl | hi
  · simp [Nat.testBit_two_pow_add_gt hi, hi.ne']
  · simp [Nat.testBit_two_pow_add_eq]
  · have hpow : 2 ^ (w + 1) ≤ 2 ^ i := Nat.pow_le_pow_right (by omega) hi
    rw [pow_succ] at hpow
    rw [Nat.testBit_lt_two_pow (by omega : m < 2 ^ i), Nat.testBit_lt_two_pow (by omega : 2 ^ w + m < 2 ^ i)]
    simp [hi.ne]

theorem toNat_ordered_of_msb {bits : BitVec (w + 1)} (h : bits.msb = true) :
    (ordered bits).toNat = 2 ^ w - 1 - magnitude bits := by
  have hbits := toNat_eq_of_msb h
  have hlt := magnitude_lt bits
  have hshift : bits >>> w = 1#(w + 1) := by
    apply BitVec.eq_of_toNat_eq
    rw [BitVec.toNat_ushiftRight, hbits, Nat.shiftRight_eq_div_pow, Nat.add_div_right _ (by positivity),
      Nat.div_eq_of_lt hlt]
    simp
  have hnot : ordered bits = ~~~ bits := by
    rw [ordered, hshift, BitVec.ofNat_eq_ofNat, BitVec.zero_sub, BitVec.neg_one_eq_allOnes, BitVec.or_allOnes,
      BitVec.xor_allOnes]
  rw [hnot, BitVec.toNat_not, hbits, pow_succ]
  omega

theorem toNat_ordered_of_not_msb {bits : BitVec (w + 1)} (h : bits.msb = false) :
    (ordered bits).toNat = 2 ^ w + magnitude bits := by
  have hbits := toNat_eq_of_not_msb h
  have hlt := magnitude_lt bits
  have hshift : bits >>> w = 0#(w + 1) := by
    apply BitVec.eq_of_toNat_eq
    rw [BitVec.toNat_ushiftRight, hbits, Nat.shiftRight_eq_div_pow, Nat.div_eq_of_lt hlt]
    simp
  have hxor : ordered bits = bits ^^^ BitVec.ofNat (w + 1) (2 ^ w) := by
    rw [ordered, hshift]
    simp
  have hpow : 2 ^ w % 2 ^ (w + 1) = 2 ^ w := Nat.mod_eq_of_lt (by rw [pow_succ]; omega)
  rw [hxor, BitVec.toNat_xor, BitVec.toNat_ofNat, hpow, hbits, xor_two_pow_of_lt hlt]

/-- A choice of one pattern for each value: `quiet` for the NaNs, zero for the negative zero, itself for any other. -/
structure Canonical (canonical : BitVec (w + 1) → BitVec (w + 1)) (quiet : BitVec (w + 1)) : Prop where
  nan : ∀ bits, IsNan f bits → canonical bits = quiet
  zero : ∀ bits, bits.msb = true → magnitude bits = 0 → canonical bits = 0
  other : ∀ bits, ¬ IsNan f bits → ¬ (bits.msb = true ∧ magnitude bits = 0) → canonical bits = bits
  quiet_pos : quiet.msb = false
  quiet_nan : IsNan f quiet

section Canonical

variable {f} {canonical : BitVec (w + 1) → BitVec (w + 1)} {quiet : BitVec (w + 1)}

/-- Two tests make the choice: the magnitude against the infinity, and the pattern against the negative zero. -/
theorem Canonical.of_tests {mask inf sign : BitVec (w + 1)} (hmask : mask.toNat = 2 ^ w - 1)
    (hinf : inf.toNat = infinity w f) (hsign : sign.toNat = 2 ^ w) (hpos : quiet.msb = false) (hquiet : IsNan f quiet)
    (h : ∀ bits, canonical bits = if bits &&& mask > inf then quiet else if bits = sign then 0 else bits) :
    Canonical f canonical quiet := by
  have hnan : ∀ bits : BitVec (w + 1), bits &&& mask > inf ↔ IsNan f bits := fun bits => by
    rw [gt_iff_lt, BitVec.lt_def, BitVec.toNat_and, hmask, hinf, Nat.and_two_pow_sub_one_eq_mod]
    rfl
  have hzero : ∀ bits : BitVec (w + 1), bits = sign ↔ bits.msb = true ∧ magnitude bits = 0 := fun bits => by
    constructor
    · rintro rfl
      refine ⟨BitVec.msb_eq_true_iff_two_mul_ge.mpr ?_, ?_⟩
      · rw [hsign, pow_succ]
        omega
      · rw [magnitude, hsign, Nat.mod_self]
    · rintro ⟨hneg, hmag⟩
      apply BitVec.eq_of_toNat_eq
      rw [toNat_eq_of_msb hneg, hmag, hsign, Nat.zero_add]
  have hnumber : ∀ bits : BitVec (w + 1), magnitude bits = 0 → ¬ IsNan f bits := fun bits hmag => by
    rw [IsNan, hmag]
    omega
  refine ⟨fun bits hbits => ?_, fun bits hneg hmag => ?_, fun bits hbits hnz => ?_, hpos, hquiet⟩
  · rw [h, if_pos ((hnan bits).mpr hbits)]
  · rw [h, if_neg (mt (hnan bits).mp (hnumber bits hmag)), if_pos ((hzero bits).mpr ⟨hneg, hmag⟩)]
  · rw [h, if_neg (mt (hnan bits).mp hbits), if_neg (mt (hzero bits).mp hnz)]

/-- Where the canonical pattern sorts, relative to zero. -/
def rank (f : Nat) (quiet bits : BitVec (w + 1)) : ℤ :=
  if IsNan f bits then magnitude quiet
  else if bits.msb then (if magnitude bits = 0 then 0 else -1 - magnitude bits)
  else magnitude bits

theorem toNat_ordered_canonical (h : Canonical f canonical quiet) (bits : BitVec (w + 1)) :
    ((ordered (canonical bits)).toNat : ℤ) = 2 ^ w + rank f quiet bits := by
  have hlt := magnitude_lt bits
  unfold rank
  split_ifs with hnan hneg hzero
  · rw [h.nan bits hnan, toNat_ordered_of_not_msb h.quiet_pos]
    push_cast
    rfl
  · rw [h.zero bits hneg hzero, toNat_ordered_of_not_msb (by simp)]
    simp [magnitude]
  · rw [h.other bits hnan fun hz => hzero hz.2, toNat_ordered_of_msb hneg]
    push_cast [Nat.sub_sub, Nat.cast_sub (by omega : 1 + magnitude bits ≤ 2 ^ w)]
    ring
  · rw [h.other bits hnan fun hz => hneg hz.1, toNat_ordered_of_not_msb (by simpa using hneg)]
    push_cast
    rfl

theorem rank_lt_iff_of_not_nan {a b : BitVec (w + 1)} (ha : ¬ IsNan f a) (hb : ¬ IsNan f b) :
    rank f quiet a < rank f quiet b ↔ value f a < value f b := by
  have hlt := scaled_lt_iff f (m := magnitude a) (n := magnitude b)
  have hgt := scaled_lt_iff f (m := magnitude b) (n := magnitude a)
  have hpa := scaled_pos f (m := magnitude a)
  have hpb := scaled_pos f (m := magnitude b)
  have hza : magnitude a = 0 → scaled f (magnitude a) = 0 := fun h => by rw [h, scaled_zero]
  have hzb : magnitude b = 0 → scaled f (magnitude b) = 0 := fun h => by rw [h, scaled_zero]
  rw [rank, rank, value, value, if_neg ha, if_neg hb, if_neg ha, if_neg hb]
  split_ifs <;> omega

theorem rank_lt_quiet (h : Canonical f canonical quiet) {bits : BitVec (w + 1)} (hbits : ¬ IsNan f bits) :
    rank f quiet bits < magnitude quiet := by
  have hquiet := h.quiet_nan
  rw [rank, if_neg hbits]
  unfold IsNan at hquiet hbits
  split_ifs <;> omega

theorem value_lt_nan {bits : BitVec (w + 1)} (hbits : ¬ IsNan f bits) :
    value f bits < scaled f (infinity w f) + 1 := by
  have hle := (scaled_strictMono f).monotone (not_lt.mp hbits)
  rw [value, if_neg hbits]
  split_ifs <;> omega

/-- Canonical patterns sort as their values. -/
theorem ordered_lt_iff (h : Canonical f canonical quiet) (a b : BitVec (w + 1)) :
    (ordered (canonical a)).toNat < (ordered (canonical b)).toNat ↔ value f a < value f b := by
  have hrank : (ordered (canonical a)).toNat < (ordered (canonical b)).toNat ↔ rank f quiet a < rank f quiet b := by
    have ha := toNat_ordered_canonical h a
    have hb := toNat_ordered_canonical h b
    omega
  have hnan : ∀ c, IsNan f c → rank f quiet c = magnitude quiet ∧ value f c = scaled f (infinity w f) + 1 :=
    fun c hc => ⟨if_pos hc, if_pos hc⟩
  rw [hrank]
  by_cases ha : IsNan f a
  · rw [(hnan a ha).1, (hnan a ha).2]
    by_cases hb : IsNan f b
    · rw [(hnan b hb).1, (hnan b hb).2]
      exact iff_of_false (lt_irrefl _) (lt_irrefl _)
    · exact iff_of_false (rank_lt_quiet h hb).not_gt (value_lt_nan hb).not_gt
  · by_cases hb : IsNan f b
    · rw [(hnan b hb).1, (hnan b hb).2]
      exact iff_of_true (rank_lt_quiet h ha) (value_lt_nan ha)
    · exact rank_lt_iff_of_not_nan ha hb

/-- So they compare as their values. -/
theorem compare_ordered (h : Canonical f canonical quiet) (a b : BitVec (w + 1)) :
    compare (ordered (canonical a)).toNat (ordered (canonical b)).toNat = compare (value f a) (value f b) := by
  rcases lt_trichotomy (value f a) (value f b) with hab | hab | hab
  · rw [compare_lt_iff_lt.mpr hab, compare_lt_iff_lt.mpr ((ordered_lt_iff h a b).mpr hab)]
  · have hle := mt (ordered_lt_iff h a b).mp hab.not_lt
    have hge := mt (ordered_lt_iff h b a).mp hab.not_gt
    rw [compare_eq_iff_eq.mpr hab, compare_eq_iff_eq]
    omega
  · rw [compare_gt_iff_gt.mpr hab, compare_gt_iff_gt.mpr ((ordered_lt_iff h b a).mpr hab)]

end Canonical

end BinaryFloat
