/-
Arithmetic with exponents of 64 bits is right wherever it gives a result.

Sums, products, comparisons, integer parts, quotients and roots are those of exponents of any size, which are exact
or correctly rounded. What is left is where they end early. They do so at the ends of the range only: numbers whose
bits lie below the position `b`, up and down, are added, multiplied, divided and compared if `2 b`, and the precision
besides, has 64 bits. Near the ends a sum looks at the position above the leading bit of either summand with the
slack added, also where the sum is one of them, and in one order of the summands it can end where it does not in the
other.
-/
import CliffordT.Proofs.BinFloat.Compare
import CliffordT.Proofs.BinFloat.CorrectRounding
import CliffordT.Proofs.BinFloat.GuardBits
import CliffordT.Proofs.BinFloat.Spans

namespace CliffordT.Checked

open BinFloat

variable {x y : BinFloat}

/-! ## Sums and products -/

/-- The computation gives the number `v`, rounded to `p` bits, unless an exponent does not fit. -/
def Rounds (m : Except Fault BinFloat) (p : ℕ) (v : ℝ) : Prop :=
  m = .error .overflow ∨ ∃ z, m = .ok z ∧ RoundedTo p v z

theorem Agrees.rounds {m : Except Fault BinFloat} {p : ℕ} {v : ℝ} {z : BinFloat} (h : Agrees m z)
    (hz : RoundedTo p v z) : Rounds m p v := h.symm.imp_right fun hm => ⟨z, hm, hz⟩

theorem mul_comm (x y : BinFloat) : mul x y = mul y x := by
  unfold mul
  rw [Int.mul_comm x.mant, Int.add_comm x.exp, Nat.max_comm x.prec]

/-- **Sums, differences and products are correctly rounded**, wherever they are given. For computed numbers, one of one
bit or more at least: they keep to their precisions; the result is the exact one rounded to the larger precision, to
the nearest number and up from the middle between two, and there is one unless an exponent does not fit, as for all
numbers whose bits lie in the inner half of the range; dropping a small summand gives the same number as
aligning it; exchanging the operands makes no difference to a sum that is given either way, and none to a product;
and at one precision larger exact results are rounded to larger ones. -/
theorem arithmetic_correctly_rounded (hx : Computed x) (hy : Computed y) (hp : 1 ≤ max x.prec y.prec) :
    (x.FitsPrecision ∧ y.FitsPrecision) ∧
    (Rounds (add x y) (max x.prec y.prec) (x.value + y.value) ∧
      Rounds (sub x y) (max x.prec y.prec) (x.value - y.value) ∧
      Rounds (mul x y) (max x.prec y.prec) (x.value * y.value)) ∧
    (∀ b, x.Spans b → y.Spans b → 2 * b + max x.prec y.prec + 2 < 2 ^ 63 →
      (∃ z, add x y = .ok z) ∧ (∃ z, sub x y = .ok z) ∧ ∃ z, mul x y = .ok z) ∧
    ((∀ z, add x y = .ok z → z.value = (addAligned x y).value) ∧
      ∀ z, sub x y = .ok z → z.value = (addAligned x (-y)).value) ∧
    ((∀ z w, add x y = .ok z → add y x = .ok w → z = w) ∧ mul x y = mul y x) ∧
    ∀ x' y' z z' : BinFloat, Computed x' → Computed y' → max x'.prec y'.prec = max x.prec y.prec →
      (add x y = .ok z → add x' y' = .ok z' → x.value + y.value ≤ x'.value + y'.value → z ≤ z') ∧
      (sub x y = .ok z → sub x' y' = .ok z' → x.value - y.value ≤ x'.value - y'.value → z ≤ z') ∧
      (mul x y = .ok z → mul x' y' = .ok z' → x.value * y.value ≤ x'.value * y'.value → z ≤ z') := by
  obtain ⟨⟨hadd, hsub, hmul⟩, hdropped, hdropped'⟩ := hx.rounded hy hp
  refine ⟨⟨hx.fits, hy.fits⟩, ⟨(agrees_add x y).rounds hadd, (agrees_sub x y).rounds hsub,
    (agrees_mul x y).rounds hmul⟩, fun b hxb hyb hb => ⟨⟨_, add_eq_ok hxb hyb hb⟩, ⟨_, sub_eq_ok hxb hyb hb⟩,
    ⟨_, mul_eq_ok hxb hyb (by omega)⟩⟩, ⟨fun z hz => ?_, fun z hz => ?_⟩, ⟨fun z w hz hw => ?_, mul_comm x y⟩,
    fun x' y' z z' hx' hy' hmax => ?_⟩
  · rw [(agrees_add x y).eq_of_ok hz, hdropped]
  · rw [(agrees_sub x y).eq_of_ok hz, hdropped']
  · rw [(agrees_add x y).eq_of_ok hz, (agrees_add y x).eq_of_ok hw, addition_comm]
  · obtain ⟨⟨hadd', hsub', hmul'⟩, -⟩ := hx'.rounded hy' (hmax ▸ hp)
    rw [hmax] at hadd' hsub' hmul'
    refine ⟨fun hz hz' => ?_, fun hz hz' => ?_, fun hz hz' => ?_⟩
    · rw [(agrees_add x y).eq_of_ok hz, (agrees_add x' y').eq_of_ok hz']
      exact hadd.monotone hadd'
    · rw [(agrees_sub x y).eq_of_ok hz, (agrees_sub x' y').eq_of_ok hz']
      exact hsub.monotone hsub'
    · rw [(agrees_mul x y).eq_of_ok hz, (agrees_mul x' y').eq_of_ok hz']
      exact hmul.monotone hmul'

/-- One, at eight bits, less `2⁻²⁰`: the small number is dropped, next to a power of two and on the side where
the numbers are closer together. -/
theorem arithmetic_correctly_rounded_below_one :
    RoundedTo 8 (1 + -2 ^ (-20 : ℤ)) (twoPow 0 8) ∧
      (twoPow 0 8).value = (addAligned (twoPow 0 8) (-twoPow (-20) 3)).value ∧
      ∃ z, add (twoPow 0 8) (-twoPow (-20) 3) = .ok z := by
  obtain ⟨-, ⟨hadd, -⟩, hreturns, ⟨hdropped, -⟩, -⟩ :=
    arithmetic_correctly_rounded (.twoPow 0 8) (.neg (.twoPow (-20) 3)) (by decide)
  have hz : add (twoPow 0 8) (-twoPow (-20) 3) = .ok (twoPow 0 8) := rfl
  refine ⟨?_, hdropped _ hz, (hreturns 20 ⟨by decide, by decide⟩ ⟨by decide, by decide⟩ (by decide)).1⟩
  rcases hadd with h | ⟨z, h, hround⟩
  · rw [hz] at h
    cases h
  · rw [hz] at h
    cases h
    rwa [value_neg, value_twoPow, value_twoPow, zpow_zero] at hround

/-- **A sum can end early** for summands of which one is far below the other, and in one order only: the position
above the leading bit of the larger one has 64 bits, and with the slack added it has not. -/
theorem add_ends_early :
    Computed (twoPow 0 53) ∧ Computed (twoPow (2 ^ 63 - 2) 53) ∧ InInt64 (2 ^ 63 - 2) ∧
      add (twoPow 0 53) (twoPow (2 ^ 63 - 2) 53) = .error .overflow ∧
      add (twoPow (2 ^ 63 - 2) 53) (twoPow 0 53) = .ok (twoPow (2 ^ 63 - 2) 53) :=
  ⟨.twoPow _ _, .twoPow _ _, by decide, rfl, rfl⟩

/-! ## Comparison and integer parts -/

theorem integerPart_eq_ok_iff (part : BinFloat → Int) (hx : InInt64 x.exp) :
    integerPart part x = .ok (part x) ↔ x.exp ≠ -2 ^ 63 := by
  unfold integerPart
  split
  · rename_i h
    exact iff_of_true rfl (by omega)
  · rename_i h
    constructor
    · rintro hok heq
      rw [int64_eq_overflow (by rw [heq]; decide)] at hok
      cases hok
    · intro hne
      obtain ⟨hlow, hhigh⟩ := inInt64_iff.1 hx
      rw [int64_eq_ok (inInt64_iff.2 ⟨by omega, by omega⟩)]
      rfl

/-- **Comparison and integer parts are exact** wherever they are given, whatever mantissas and exponents stand for the
numbers. The comparison is that of the values, a total order in which equal means of equal value. The integer
parts are the greatest integer that is at most the number, the least one that is at least the number, the nearest one
with a half going up, and the one towards zero. Numbers whose bits lie in the inner half of the range are
compared, and every number but those with the least exponent has its integer parts. -/
theorem order_and_integer_parts_exact :
    (∀ x y : BinFloat, Agrees (cmp x y) (compare x.value y.value) ∧
      ∀ b, x.Spans b → y.Spans b → 2 * b < 2 ^ 63 → ∃ o, cmp x y = .ok o) ∧
    ∀ x : BinFloat,
      (∃ f, Agrees (floor x) f ∧ IsGreatest {n : ℤ | (n : ℝ) ≤ x.value} f) ∧
      (∃ c, Agrees (ceil x) c ∧ IsLeast {n : ℤ | x.value ≤ (n : ℝ)} c) ∧
      Agrees (round x) ⌊x.value + 1 / 2⌋ ∧
      Agrees (trunc x) (if 0 ≤ x.value then ⌊x.value⌋ else ⌈x.value⌉) ∧
      (InInt64 x.exp → x.exp ≠ -2 ^ 63 →
        (∃ n, floor x = .ok n) ∧ (∃ n, ceil x = .ok n) ∧ (∃ n, round x = .ok n) ∧ ∃ n, trunc x = .ok n) := by
  refine ⟨fun x y => ⟨?_, fun b hx hy hb => ⟨_, cmp_eq_ok hx hy hb⟩⟩, fun x => ?_⟩
  · rw [← cmp_eq_compare]
    exact agrees_cmp x y
  · obtain ⟨hfloor, hceil, hround, htrunc⟩ := integer_parts x
    have hgiven (part : BinFloat → Int) (hx : InInt64 x.exp) (hne : x.exp ≠ -2 ^ 63) :
        ∃ n, integerPart part x = .ok n := ⟨_, (integerPart_eq_ok_iff part hx).2 hne⟩
    refine ⟨⟨_, agrees_integerPart _ x, hfloor⟩, ⟨_, agrees_integerPart _ x, hceil⟩, ?_, ?_,
      fun hx hne => ⟨hgiven _ hx hne, hgiven _ hx hne, hgiven _ hx hne, hgiven _ hx hne⟩⟩
    · rw [← hround]
      exact agrees_integerPart _ x
    · rw [← htrunc]
      exact agrees_integerPart _ x

/-- Three ways to write six, and the integers next to minus two and a half. -/
theorem order_and_integer_parts_exact_halves :
    (⟨3, 1, 2⟩ : BinFloat).Spans 5 ∧ cmp ⟨3, 1, 2⟩ ⟨24, -2, 1⟩ = .ok .eq ∧
      (⟨-5, -1, 8⟩ : BinFloat).exp ≠ -2 ^ 63 ∧ floor ⟨-5, -1, 8⟩ = .ok (-3) ∧ trunc ⟨-5, -1, 8⟩ = .ok (-2) := by
  obtain ⟨hcmp, hparts⟩ := order_and_integer_parts_exact
  have hthree : (⟨3, 1, 2⟩ : BinFloat).Spans 5 := ⟨by decide, by decide⟩
  obtain ⟨o, ho⟩ := (hcmp ⟨3, 1, 2⟩ ⟨24, -2, 1⟩).2 5 hthree ⟨by decide, by decide⟩ (by decide)
  have hequal := (hcmp ⟨3, 1, 2⟩ ⟨24, -2, 1⟩).1.eq_of_ok ho
  rw [compare_eq_iff_eq.2 (by norm_num [value])] at hequal
  obtain ⟨-, -, -, htrunc, hgiven⟩ := hparts ⟨-5, -1, 8⟩
  obtain ⟨⟨n, hn⟩, -, -, ⟨m, hm⟩⟩ := hgiven (by decide) (by decide)
  have hn' : n = -3 := (Except.ok.inj hn).symm.trans (by decide)
  have hm' : m = -2 := (Except.ok.inj hm).symm.trans (by decide)
  exact ⟨hthree, hequal ▸ ho, by decide, hn' ▸ hn, hm' ▸ hm⟩

/-- **A comparison can end early**: the position above the leading bit of the largest power of two does not fit. -/
theorem cmp_ends_early :
    Computed (twoPow (2 ^ 63 - 1) 53) ∧ Computed (twoPow 0 53) ∧ InInt64 (2 ^ 63 - 1) ∧
      compare (twoPow (2 ^ 63 - 1) 53).value (twoPow 0 53).value = .gt ∧
      cmp (twoPow (2 ^ 63 - 1) 53) (twoPow 0 53) = .error .overflow := by
  refine ⟨.twoPow _ _, .twoPow _ _, by decide, ?_, rfl⟩
  rw [← cmp_eq_compare]
  rfl

/-! ## Quotients and roots -/

/-- **Quotients and square roots are accurate** wherever they are given. The quotient by a number other than zero has
the larger precision `P` and is within `2 ^ (1 - P)` of the exact one; it has the sign of the exact one, so that it is
zero for a dividend of zero only; and if it is positive, it is the exact one rounded to the nearest number. The square
root of a positive number is the exact one rounded to the nearest number, and that of any other number is zero. They
are given for numbers whose bits lie in the inner half of the range, unless the precisions take the rest of it; there is
no quotient by zero. -/
theorem quotient_and_root_accurate (hx : 1 ≤ x.prec) :
    (∀ y : BinFloat, y.value ≠ 0 →
      (∃ q, Agrees (div? x y) (some q) ∧ q.prec = max x.prec y.prec ∧
        |q.value - x.value / y.value| ≤ 2 ^ (1 - (max x.prec y.prec : ℕ) : ℤ) * |x.value / y.value| ∧
        SignType.sign q.value = SignType.sign (x.value / y.value) ∧
        (q.value = 0 → x.value = 0) ∧
        (0 < x.value / y.value → RoundedTo (max x.prec y.prec) (x.value / y.value) q)) ∧
      ∀ b, x.Spans b → y.Spans b → 2 * b + max x.prec y.prec + 2 < 2 ^ 63 → ∃ q, div? x y = .ok (some q)) ∧
    (∀ y : BinFloat, y.value = 0 → div? x y = .ok none) ∧
    (0 < x.value → Rounds (sqrt x) x.prec (√x.value)) ∧
    (∀ b, x.Spans b → b + 2 * x.prec + 4 < 2 ^ 63 → ∃ r, sqrt x = .ok r) ∧
    (x.value ≤ 0 → sqrt x = .ok (zero x.prec)) := by
  refine ⟨fun y hy => ⟨⟨x / y, ?_, prec_div x y, quotient_accurate (hx.trans (le_max_left _ _)) hy⟩,
    fun b hxb hyb hb => ⟨x / y, ?_⟩⟩, fun y hy => ?_, fun hpos => ?_, fun b hxb hb => ⟨_, sqrt_eq_ok hxb hb⟩,
    fun hle => ?_⟩
  · rw [← div?_eq_some hy]
    exact agrees_div? x y
  · rw [← div?_eq_some hy]
    exact div?_eq_ok hxb hyb (by omega)
  · unfold div?
    exact if_pos (isZero_iff.2 hy)
  · exact (agrees_sqrt x).rounds ⟨prec_sqrt x, fits_sqrt x, isNearest_sqrt hx hpos⟩
  · unfold sqrt
    exact if_neg (by rw [isPositive_iff]; exact not_lt.2 hle)

/-- One third at two bits, and the square root of two at five: the digits that are cut off make no difference. -/
theorem quotient_and_root_accurate_third :
    1 ≤ (one 2).prec ∧ (ofInt 3 2).value ≠ 0 ∧ RoundedTo 2 (1 / 3) ⟨3, -3, 2⟩ ∧
      div? (one 2) (ofInt 3 2) = .ok (some ⟨3, -3, 2⟩) ∧ Rounds (sqrt (ofInt 2 5)) 5 (√2) := by
  have h3 : (ofInt 3 2).value = 3 := value_ofInt_of_fits (by decide)
  have h2 : (ofInt 2 5).value = 2 := value_ofInt_of_fits (by decide)
  have h3' : (ofInt 3 2).value ≠ 0 := by
    rw [h3]
    norm_num
  have hpos : 0 < (one 2).value / (ofInt 3 2).value := by
    rw [h3, value_one]
    norm_num
  obtain ⟨⟨q, hq, -, -, -, -, hround⟩, hgiven⟩ := (quotient_and_root_accurate (x := one 2) (by decide)).1 _ h3'
  obtain ⟨r, hr⟩ := hgiven 2 ⟨by decide, by decide⟩ ⟨by decide, by decide⟩ (by decide)
  have hvalue : div? (one 2) (ofInt 3 2) = .ok (some ⟨3, -3, 2⟩) := rfl
  cases hq.eq_of_ok hvalue
  have hroot := (quotient_and_root_accurate (x := ofInt 2 5) (by decide)).2.2.1 (by rw [h2]; norm_num)
  rw [h2] at hroot
  have hthird := hround hpos
  rw [value_one, h3] at hthird
  exact ⟨by decide, h3', hthird, hvalue, hroot⟩

/-- **A root can end early**: the shift takes the exponent of a small number out of its range before it is halved. -/
theorem sqrt_ends_early :
    Computed (twoPow (-2 ^ 63 + 8) 53) ∧ InInt64 (-2 ^ 63 + 8) ∧ InInt64 ((-2 ^ 63 + 8) / 2) ∧
      0 < (twoPow (-2 ^ 63 + 8) 53).value ∧ sqrt (twoPow (-2 ^ 63 + 8) 53) = .error .overflow := by
  refine ⟨.twoPow _ _, by decide, by decide, ?_, rfl⟩
  rw [value_twoPow]
  exact two_zpow_pos _

end CliffordT.Checked
