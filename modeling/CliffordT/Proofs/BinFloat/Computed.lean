/-
The numbers that can be computed.

`Computed` has a constructor for every operation that makes a number. Each of them ends in a rounding, or
changes only the sign or the exponent, or returns one of its arguments, so that a computed number keeps to its
precision: `Computed.fits`. The bound `2 ^ prec` itself is reached, by a mantissa that is rounded up to it.
-/
import CliffordT.BinFloat.Decimal
import CliffordT.BinFloat.Elementary
import CliffordT.Proofs.BinFloat.Rounding

namespace CliffordT.BinFloat

/-- The mantissa has no more bits than the precision allows, or is the power of two above them. -/
def FitsPrecision (x : BinFloat) : Prop := |x.mant| ≤ 2 ^ x.prec

instance (x : BinFloat) : Decidable x.FitsPrecision := inferInstanceAs (Decidable (_ ≤ _))

/-! ## Rounding -/

theorem abs_le_two_pow_bitLength (m : Int) : |m| < 2 ^ bitLength m := by
  rw [Int.abs_eq_natAbs]
  exact_mod_cast natAbs_lt_two_pow_bitLength m

/-- **Rounding** keeps to the precision, and the carry to the next power of two is the only excess. -/
theorem fits_ofScaled (m e : Int) (p : Nat) : (ofScaled m e p).FitsPrecision := by
  unfold FitsPrecision
  rw [prec_ofScaled]
  have hlen := abs_le_two_pow_bitLength m
  unfold ofScaled
  split
  · exact le_of_eq_of_le abs_zero (by positivity)
  · dsimp only
    split
    · rename_i hlong
      obtain ⟨s, hs⟩ := Nat.exists_eq_add_of_lt hlong
      have hshift : bitLength m - p = s + 1 := by omega
      have hpow : (2 : Int) ^ bitLength m = 2 ^ p * 2 ^ (s + 1) := by
        rw [hs, add_assoc, pow_add]
      have hpos : (0 : Int) < 2 ^ s := by positivity
      rw [hpow] at hlen
      obtain ⟨hlow, hhigh⟩ := abs_lt.1 hlen
      show |(m + (1 : Int) <<< (bitLength m - p - 1)) >>> (bitLength m - p)| ≤ 2 ^ p
      rw [hshift, Nat.add_sub_cancel, Int.shiftLeft_eq, one_mul, Int.shiftRight_eq_div_pow, abs_le]
      push_cast
      constructor
      · refine Int.le_ediv_of_mul_le (by positivity) ?_
        rw [neg_mul]
        omega
      · refine Int.lt_add_one_iff.1 (Int.ediv_lt_of_lt_mul (by positivity) ?_)
        rw [add_mul, one_mul]
        omega
    · rename_i hshort
      exact hlen.le.trans (pow_le_pow_right₀ (by norm_num) (not_lt.1 hshort))

theorem fits_zero (p : Nat) : (zero p).FitsPrecision := le_of_eq_of_le abs_zero (by positivity)

/-- A power of two has a mantissa of one bit, at any precision. -/
theorem fits_twoPow (k : Int) (p : Nat) : (twoPow k p).FitsPrecision :=
  le_of_eq_of_le abs_one (one_le_pow₀ (by norm_num))

theorem fits_one (p : Nat) : (one p).FitsPrecision := fits_twoPow 0 p

section

variable {x y z : BinFloat}

/-! ## Operations that do not round -/

theorem FitsPrecision.neg (h : x.FitsPrecision) : (-x).FitsPrecision := by
  show |(-x.mant)| ≤ 2 ^ x.prec
  rwa [abs_neg]

theorem FitsPrecision.abs (h : x.FitsPrecision) : x.abs.FitsPrecision := by
  show |((x.mant.natAbs : Nat) : Int)| ≤ 2 ^ x.prec
  rwa [Int.natCast_natAbs, abs_abs]

theorem FitsPrecision.scaleTwo (h : x.FitsPrecision) (k : Int) : (x.scaleTwo k).FitsPrecision := by
  unfold BinFloat.scaleTwo
  split
  · exact h
  · exact h

theorem FitsPrecision.maximum (hx : x.FitsPrecision) (hy : y.FitsPrecision) : (x.maximum y).FitsPrecision := by
  unfold BinFloat.maximum
  split
  · exact hx
  · exact hy

theorem FitsPrecision.minimum (hx : x.FitsPrecision) (hy : y.FitsPrecision) : (x.minimum y).FitsPrecision := by
  unfold BinFloat.minimum
  split
  · exact hy
  · exact hx

/-! ## Operations that round -/

/-- Every branch of a sum ends in a rounding. -/
theorem fits_add (x y : BinFloat) : (x + y).FitsPrecision := by
  show (add x y).FitsPrecision
  unfold add
  dsimp only
  repeat' split
  all_goals exact fits_ofScaled _ _ _

theorem fits_mul (x y : BinFloat) : (x * y).FitsPrecision := fits_ofScaled _ _ _

theorem fits_of_div? (h : x.div? y = some z) : z.FitsPrecision := by
  unfold div? at h
  dsimp only at h
  split at h
  · cases h
  · split at h
    · cases h
      exact fits_zero _
    · cases h
      exact fits_ofScaled _ _ _

theorem fits_div (x y : BinFloat) : (x / y).FitsPrecision := by
  show ((x.div? y).getD _).FitsPrecision
  cases h : x.div? y with
  | none => exact fits_zero _
  | some z => exact fits_of_div? h

theorem fits_sqrt (x : BinFloat) : x.sqrt.FitsPrecision := by
  unfold sqrt
  split
  · exact fits_ofScaled _ _ _
  · exact fits_zero _

/-- Repeated squaring ends with a product, or with the one it starts from. -/
theorem FitsPrecision.mulPow {acc : BinFloat} (h : acc.FitsPrecision) (base : BinFloat) (n : Nat) :
    (mulPow acc base n).FitsPrecision := by
  fun_induction BinFloat.mulPow acc base n with
  | case1 acc base => exact h
  | case2 acc base n _ ih =>
    refine ih ?_
    split
    · exact fits_mul _ _
    · exact h

theorem fits_of_zpow? {k : Int} (h : x.zpow? k = some z) : z.FitsPrecision := by
  unfold zpow? at h
  split at h
  · exact fits_of_div? h
  · cases h
    exact (fits_one _).mulPow _ _

theorem fits_ofDouble (d : Float) (p : Nat) : (ofDouble d p).FitsPrecision := by
  unfold ofDouble
  dsimp only
  split
  · exact fits_zero _
  · exact fits_ofScaled _ _ _

theorem fits_of_parseDecimal? {s : String} {p : Nat} (h : parseDecimal? s p = some z) : z.FitsPrecision := by
  obtain ⟨l, -, rfl⟩ := Option.map_eq_some_iff.1 h
  unfold DecimalLiteral.value
  split
  · exact fits_ofScaled _ _ _
  · exact fits_div _ _

theorem fits_of_ln? (h : x.ln? = some z) : z.FitsPrecision := by
  unfold ln? at h
  split at h
  · cases h
    exact fits_ofScaled _ _ _
  · cases h

theorem fits_atan2 (y x : BinFloat) : (atan2 y x).FitsPrecision := by
  unfold atan2
  dsimp only
  split
  · exact fits_zero _
  · split
    · split
      · exact fits_ofScaled _ _ _
      · split
        · exact fits_add _ _
        · exact fits_add _ _
    · split
      · exact fits_add _ _
      · exact fits_add _ _

/-- Sine and cosine are rounded last. -/
theorem exists_of_sinCos {x : BinFloat} {p : BinFloat × BinFloat} (h : x.sinCos = .ok p) :
    ∃ s c : BinFloat, p = (s.withPrec x.prec, c.withPrec x.prec) := by
  unfold sinCos at h
  dsimp only at h
  split at h
  · cases h
  split at h
  · cases h
  · cases h
    exact ⟨_, _, rfl⟩

theorem prec_of_sinCos {x s c : BinFloat} (h : x.sinCos = .ok (s, c)) : s.prec = x.prec ∧ c.prec = x.prec := by
  obtain ⟨s', c', heq⟩ := exists_of_sinCos h
  cases heq
  exact ⟨prec_withPrec _ _, prec_withPrec _ _⟩

theorem fits_of_sin {x z : BinFloat} (h : x.sin = .ok z) : z.FitsPrecision := by
  unfold sin at h
  cases hp : x.sinCos with
  | error e =>
    rw [hp] at h
    cases h
  | ok p =>
    obtain ⟨s, c, rfl⟩ := exists_of_sinCos hp
    rw [hp] at h
    cases h
    exact fits_ofScaled _ _ _

theorem fits_of_cos {x z : BinFloat} (h : x.cos = .ok z) : z.FitsPrecision := by
  unfold cos at h
  cases hp : x.sinCos with
  | error e =>
    rw [hp] at h
    cases h
  | ok p =>
    obtain ⟨s, c, rfl⟩ := exists_of_sinCos hp
    rw [hp] at h
    cases h
    exact fits_ofScaled _ _ _

end

/-! ## Computed numbers -/

/-- The numbers that come from the operations: constants and conversions, signs and powers of two, the four
operations, roots, powers and elementary functions, and the extrema. -/
inductive Computed : BinFloat → Prop
  | zero (p : Nat) : Computed (zero p)
  | one (p : Nat) : Computed (one p)
  | twoPow (k : Int) (p : Nat) : Computed (twoPow k p)
  | ofInt (n : Int) (p : Nat) : Computed (ofInt n p)
  | ofRatio {num den : Int} {p : Nat} {z : BinFloat} (h : ofRatio? num den p = some z) : Computed z
  | ofDouble (d : Float) (p : Nat) : Computed (ofDouble d p)
  | parseDecimal {s : String} {p : Nat} {z : BinFloat} (h : parseDecimal? s p = some z) : Computed z
  | pi (p : Nat) : Computed (pi p)
  | withPrec {x : BinFloat} (hx : Computed x) (p : Nat) : Computed (x.withPrec p)
  | neg {x : BinFloat} (hx : Computed x) : Computed (-x)
  | abs {x : BinFloat} (hx : Computed x) : Computed x.abs
  | scaleTwo {x : BinFloat} (hx : Computed x) (k : Int) : Computed (x.scaleTwo k)
  | add {x y : BinFloat} (hx : Computed x) (hy : Computed y) : Computed (x + y)
  | sub {x y : BinFloat} (hx : Computed x) (hy : Computed y) : Computed (x - y)
  | mul {x y : BinFloat} (hx : Computed x) (hy : Computed y) : Computed (x * y)
  | div {x y z : BinFloat} (hx : Computed x) (hy : Computed y) (h : x.div? y = some z) : Computed z
  | sqrt {x : BinFloat} (hx : Computed x) : Computed x.sqrt
  | zpow {x z : BinFloat} {k : Int} (hx : Computed x) (h : x.zpow? k = some z) : Computed z
  | ln {x z : BinFloat} (hx : Computed x) (h : x.ln? = some z) : Computed z
  | sin {x z : BinFloat} (hx : Computed x) (h : x.sin = .ok z) : Computed z
  | cos {x z : BinFloat} (hx : Computed x) (h : x.cos = .ok z) : Computed z
  | atan {x : BinFloat} (hx : Computed x) : Computed x.atan
  | atan2 {x y : BinFloat} (hy : Computed y) (hx : Computed x) : Computed (atan2 y x)
  | maximum {x y : BinFloat} (hx : Computed x) (hy : Computed y) : Computed (x.maximum y)
  | minimum {x y : BinFloat} (hx : Computed x) (hy : Computed y) : Computed (x.minimum y)

/-- **A computed number keeps to its precision**, by induction on how it was computed. -/
theorem Computed.fits {x : BinFloat} (h : Computed x) : x.FitsPrecision := by
  induction h with
  | zero p => exact fits_zero p
  | one p => exact fits_one p
  | twoPow k p => exact fits_twoPow k p
  | ofInt n p => exact fits_ofScaled n 0 p
  | ofRatio h => exact fits_of_div? h
  | ofDouble d p => exact fits_ofDouble d p
  | parseDecimal h => exact fits_of_parseDecimal? h
  | pi p => exact fits_ofScaled _ _ p
  | withPrec _ p => exact fits_ofScaled _ _ p
  | neg _ ih => exact ih.neg
  | abs _ ih => exact ih.abs
  | scaleTwo _ k ih => exact ih.scaleTwo k
  | add _ _ _ _ => exact fits_add _ _
  | sub _ _ _ _ => exact fits_add _ _
  | mul _ _ _ _ => exact fits_mul _ _
  | div _ _ h _ _ => exact fits_of_div? h
  | sqrt _ _ => exact fits_sqrt _
  | zpow _ h _ => exact fits_of_zpow? h
  | ln _ h _ => exact fits_of_ln? h
  | sin _ h _ => exact fits_of_sin h
  | cos _ h _ => exact fits_of_cos h
  | atan _ _ => exact fits_ofScaled _ _ _
  | atan2 _ _ _ _ => exact fits_atan2 _ _
  | maximum _ _ ihx ihy => exact ihx.maximum ihy
  | minimum _ _ ihx ihy => exact ihx.minimum ihy

end CliffordT.BinFloat
