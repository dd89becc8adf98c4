/-
Where checked operations give a result.

`x.Spans b` says that the bits of `x` lie between the positions `-b` and `b`. Each operation widens that range by
what it adds to an exponent: two bits for a sum, the sum of the ranges for a product, the precision besides for a
quotient or a root. The exponents that are looked at on the way lie in it too, up to the precision, so that an
operation on numbers of moderate size does not end early.
-/
import CliffordT.Proofs.BinFloat.Checked
import CliffordT.Proofs.BinFloat.Computed

namespace CliffordT

/-! ## Lengths of mantissas -/

theorem bitLength_le {n : Int} {k : Nat} (h : n.natAbs < 2 ^ k) : bitLength n ≤ k := by
  by_cases h0 : n = 0
  · subst h0
    exact Nat.zero_le k
  · have hlt := (Nat.pow_lt_pow_iff_right (by norm_num)).1 ((two_pow_le_natAbs h0).trans_lt h)
    omega

@[simp] theorem bitLength_neg (n : Int) : bitLength (-n) = bitLength n := by
  simp only [bitLength, Int.natAbs_neg, neg_eq_zero]

theorem bitLength_add_le (a b : Int) : bitLength (a + b) ≤ max (bitLength a) (bitLength b) + 1 := by
  have ha := (natAbs_lt_two_pow_bitLength a).trans_le
    (Nat.pow_le_pow_right two_pos (le_max_left _ (bitLength b)))
  have hb := (natAbs_lt_two_pow_bitLength b).trans_le
    (Nat.pow_le_pow_right two_pos (le_max_right (bitLength a) _))
  refine bitLength_le ((Int.natAbs_add_le a b).trans_lt ?_)
  rw [pow_succ]
  omega

theorem bitLength_mul_le (a b : Int) : bitLength (a * b) ≤ bitLength a + bitLength b := by
  refine bitLength_le ?_
  rw [Int.natAbs_mul, pow_add]
  exact Nat.mul_lt_mul'' (natAbs_lt_two_pow_bitLength a) (natAbs_lt_two_pow_bitLength b)

theorem bitLength_shiftLeft_le (a : Int) (k : Nat) : bitLength (a <<< k) ≤ bitLength a + k := by
  refine bitLength_le ?_
  rw [Int.shiftLeft_eq, Int.natAbs_mul, Int.natAbs_pow, pow_add]
  exact Nat.mul_lt_mul_of_pos_right (natAbs_lt_two_pow_bitLength a) (by positivity)

/-- A quotient is shorter than the dividend by what the divisor has, but for one bit. -/
theorem bitLength_tdiv_le (a : Int) {b : Int} (hb : b ≠ 0) :
    bitLength (a.tdiv b) ≤ bitLength a + 1 - bitLength b := by
  refine bitLength_le ?_
  have hlen := bitLength_pos hb
  rw [Int.natAbs_tdiv]
  refine (Nat.div_lt_iff_lt_mul (Int.natAbs_pos.2 hb)).2 ?_
  calc a.natAbs < 2 ^ bitLength a := natAbs_lt_two_pow_bitLength a
    _ ≤ 2 ^ (bitLength a + 1 - bitLength b + (bitLength b - 1)) := Nat.pow_le_pow_right two_pos (by omega)
    _ = 2 ^ (bitLength a + 1 - bitLength b) * 2 ^ (bitLength b - 1) := pow_add _ _ _
    _ ≤ 2 ^ (bitLength a + 1 - bitLength b) * b.natAbs := Nat.mul_le_mul_left _ (two_pow_le_natAbs hb)

/-- A square root has half of the length. -/
theorem two_mul_bitLength_natSqrt_le (n : Nat) : 2 * bitLength (Nat.sqrt n : Int) ≤ bitLength (n : Int) + 1 := by
  by_cases h0 : (Nat.sqrt n : Int) = 0
  · rw [h0]
    exact Nat.zero_le _
  have hlow := two_pow_le_natAbs h0
  have hlen := bitLength_pos h0
  have hhigh := natAbs_lt_two_pow_bitLength (n : Int)
  rw [Int.natAbs_natCast] at hlow hhigh
  have hsq : 2 ^ ((bitLength (Nat.sqrt n : Int) - 1) * 2) < 2 ^ bitLength (n : Int) := by
    rw [pow_mul]
    exact (Nat.pow_le_pow_left hlow 2).trans_lt ((Nat.sqrt_le' n).trans_lt hhigh)
  have hlt := (Nat.pow_lt_pow_iff_right (by norm_num)).1 hsq
  omega

namespace BinFloat

/-! ## Ranges of bits -/

/-- The bits of the number lie between the positions `-b` and `b`. -/
structure Spans (x : BinFloat) (b : Int) : Prop where
  le_exp : -b ≤ x.exp
  top_le : x.top ≤ b

section

variable {x y : BinFloat} {a b c : Int} {p : Nat}

theorem exp_le_top (x : BinFloat) : x.exp ≤ x.top := Int.le_add_of_nonneg_right (Int.natCast_nonneg _)

namespace Spans

theorem exp_le (h : x.Spans b) : x.exp ≤ b := x.exp_le_top.trans h.top_le

theorem nonneg (h : x.Spans b) : 0 ≤ b := by
  have := h.le_exp
  have := h.exp_le
  omega

theorem mono (h : x.Spans b) (hbc : b ≤ c) : x.Spans c :=
  ⟨(neg_le_neg hbc).trans h.le_exp, h.top_le.trans hbc⟩

theorem neg (h : x.Spans b) : (-x).Spans b := by
  refine ⟨h.le_exp, ?_⟩
  show x.exp + bitLength (-x.mant) ≤ b
  rw [bitLength_neg]
  exact h.top_le

theorem abs (h : x.Spans b) : x.abs.Spans b := by
  refine ⟨h.le_exp, ?_⟩
  have hlen : bitLength (x.mant.natAbs : Int) ≤ bitLength x.mant :=
    bitLength_le ((Int.natAbs_natCast _).trans_lt (natAbs_lt_two_pow_bitLength _))
  have htop := h.top_le
  unfold top at htop ⊢
  show x.exp + bitLength (x.mant.natAbs : Int) ≤ b
  omega

theorem scaleTwo (h : x.Spans b) (k : Int) : (x.scaleTwo k).Spans (b + |k|) := by
  have := h.le_exp
  have htop := h.top_le
  have hk := neg_abs_le k
  have hk' := le_abs_self k
  unfold BinFloat.scaleTwo
  split
  · exact h.mono (by omega)
  · unfold top at htop
    exact ⟨by dsimp only; omega, by unfold top; dsimp only; omega⟩

end Spans

theorem spans_one (p : Nat) (hb : 1 ≤ b) : (one p).Spans b := by
  have htop : (one p).top = 1 := rfl
  exact ⟨by show -b ≤ 0; omega, htop ▸ hb⟩

theorem top_le_of_abs_value_lt {k : ℤ} (hx : x.value ≠ 0) (h : |x.value| < 2 ^ k) : x.top ≤ k := by
  have hlow := (two_zpow_top_le (mt value_eq_zero_iff.2 hx)).trans_lt h
  have hlt := (zpow_lt_zpow_iff_right₀ (by norm_num)).1 hlow
  omega

/-- The exponent of a rounded number lies between that of the mantissa and the position above its leading bit. -/
theorem exp_ofScaled_le (m e : Int) (p : Nat) :
    (ofScaled m e p).exp ≤ max 0 (e + bitLength m) ∧ min 0 e ≤ (ofScaled m e p).exp := by
  unfold ofScaled
  split
  · exact ⟨le_max_left _ _, min_le_left _ _⟩
  · dsimp only
    split
    · dsimp only
      omega
    · dsimp only
      omega

/-- A rounding adds a bit at most. -/
theorem top_ofScaled_le (m e : Int) (p : Nat) : (ofScaled m e p).top ≤ max 0 (e + bitLength m + 1) := by
  have hfits : bitLength (ofScaled m e p).mant ≤ p + 1 := by
    have hle : |(ofScaled m e p).mant| ≤ 2 ^ p := by
      have h := fits_ofScaled m e p
      unfold FitsPrecision at h
      rwa [prec_ofScaled] at h
    rw [Int.abs_eq_natAbs] at hle
    refine bitLength_le (lt_of_le_of_lt (b := 2 ^ p) (by exact_mod_cast hle) ?_)
    exact Nat.pow_lt_pow_right (by norm_num) p.lt_succ_self
  unfold top
  unfold ofScaled at hfits ⊢
  split
  · exact le_max_left _ _
  · dsimp only at hfits ⊢
    split
    · rename_i hm hlong
      rw [if_neg hm, if_pos hlong] at hfits
      dsimp only at hfits ⊢
      omega
    · dsimp only
      omega

theorem spans_ofScaled {m e : Int} (he : -b ≤ e) (htop : e + bitLength m + 1 ≤ b) : (ofScaled m e p).Spans b := by
  have hexp := (exp_ofScaled_le m e p).2
  have hround := top_ofScaled_le m e p
  constructor
  · omega
  · omega

theorem Spans.withPrec (h : x.Spans b) (p : Nat) : (x.withPrec p).Spans (b + 1) := by
  have hexp := h.le_exp
  have htop := h.top_le
  unfold top at htop
  exact spans_ofScaled (by omega) (by omega)

/-- Mantissas at one exponent reach as far up as before. -/
theorem aligned_le (x y : BinFloat) :
    (aligned x y).2.2 + bitLength (aligned x y).1 ≤ x.top ∧
      (aligned x y).2.2 + bitLength (aligned x y).2.1 ≤ y.top := by
  have hx := bitLength_shiftLeft_le x.mant (x.exp - min x.exp y.exp).toNat
  have hy := bitLength_shiftLeft_le y.mant (y.exp - min x.exp y.exp).toNat
  unfold aligned top
  dsimp only
  omega

theorem Spans.add (hx : x.Spans b) (hy : y.Spans b) : (x + y).Spans (b + 2) := by
  show (BinFloat.add x y).Spans (b + 2)
  unfold BinFloat.add
  dsimp only
  have hmono {z : BinFloat} (hz : z.Spans (b + 1)) : z.Spans (b + 2) := hz.mono (by omega)
  split
  · exact hmono (hx.withPrec _)
  · split
    · exact hmono (hy.withPrec _)
    · split
      · exact hmono (hx.withPrec _)
      · split
        · exact hmono (hy.withPrec _)
        · obtain ⟨ha, hb⟩ := aligned_le x y
          have hexp : (aligned x y).2.2 = min x.exp y.exp := rfl
          have := hx.le_exp
          have := hy.le_exp
          have := hx.top_le
          have := hy.top_le
          generalize aligned x y = t at ha hb hexp ⊢
          have hlen := bitLength_add_le t.1 t.2.1
          show (ofScaled (t.1 + t.2.1) t.2.2 _).Spans (b + 2)
          exact spans_ofScaled (by omega) (by omega)

theorem Spans.sub (hx : x.Spans b) (hy : y.Spans b) : (x - y).Spans (b + 2) := hx.add hy.neg

theorem Spans.mul (hx : x.Spans a) (hy : y.Spans b) : (x * y).Spans (a + b + 1) := by
  have hlen := bitLength_mul_le x.mant y.mant
  have := hx.le_exp
  have := hy.le_exp
  have hxtop := hx.top_le
  have hytop := hy.top_le
  unfold top at hxtop hytop
  exact spans_ofScaled (by omega) (by omega)

/-- The length of the developed quotient, and where it ends. -/
theorem quotient_le (hx : x.Spans a) (hy : y.Spans b) (hy0 : y.mant ≠ 0) {s : Nat}
    (hs : s = max x.prec y.prec + 2 + bitLength y.mant - bitLength x.mant) :
    -(a + b + max x.prec y.prec + 2) ≤ x.exp - y.exp - s ∧
      x.exp - y.exp - s + bitLength ((x.mant <<< s).tdiv y.mant) ≤ a + b + 1 := by
  have hlen := bitLength_tdiv_le (x.mant <<< s) hy0
  have hshift := bitLength_shiftLeft_le x.mant s
  have hpos := bitLength_pos hy0
  have := hx.le_exp
  have := hy.le_exp
  have hxtop := hx.top_le
  have hytop := hy.top_le
  unfold top at hxtop hytop
  constructor
  · omega
  · omega

theorem Spans.div (hx : x.Spans a) (hy : y.Spans b) (hy0 : y.value ≠ 0) :
    (x / y).Spans (a + b + max x.prec y.prec + 2) := by
  have := hx.nonneg
  have := hy.nonneg
  by_cases hx0 : x.value = 0
  · show ((div? x y).getD _).Spans _
    unfold div?
    dsimp only
    rw [if_neg (mt isZero_iff.1 hy0), if_pos (isZero_iff.2 hx0)]
    exact ⟨by show -_ ≤ (0 : Int); omega, by show (0 : Int) + bitLength 0 ≤ _; simp [bitLength]; omega⟩
  · rw [div_eq hx0 hy0]
    obtain ⟨hlow, hhigh⟩ := quotient_le hx hy (mt value_eq_zero_iff.2 hy0) rfl
    exact spans_ofScaled (by push_cast at hlow ⊢; omega) (by omega)

/-- The length of the developed root, and where it ends. -/
theorem root_le (hx : x.Spans a) {s : Nat} (hs : s ≤ 2 * x.prec + 4) :
    -(a + x.prec + 2) ≤ (x.exp - s) / 2 ∧
      (x.exp - s) / 2 + bitLength (Nat.sqrt (x.mant.toNat <<< s) : Int) ≤ a + 1 := by
  have hshift : bitLength ((x.mant.toNat <<< s : Nat) : Int) ≤ bitLength x.mant + s := by
    refine bitLength_le ?_
    rw [Int.natAbs_natCast, Nat.shiftLeft_eq, pow_add]
    have hmant := natAbs_lt_two_pow_bitLength x.mant
    exact Nat.mul_lt_mul_of_pos_right (by omega) (by positivity)
  have hroot := two_mul_bitLength_natSqrt_le (x.mant.toNat <<< s)
  have := hx.nonneg
  have := hx.le_exp
  have htop := hx.top_le
  unfold top at htop
  constructor
  · omega
  · omega

theorem Spans.sqrt (hx : x.Spans a) : x.sqrt.Spans (a + x.prec + 2) := by
  have := hx.nonneg
  unfold BinFloat.sqrt
  split
  · rename_i hpos
    have hmant := bitLength_pos (of_decide_eq_true hpos).ne'
    dsimp only
    split
    · obtain ⟨hlow, hhigh⟩ := root_le hx (s := 2 * x.prec + 4 - bitLength x.mant) (by omega)
      exact spans_ofScaled (by omega) (by omega)
    · obtain ⟨hlow, hhigh⟩ := root_le hx (s := 2 * x.prec + 4 - bitLength x.mant + 1) (by omega)
      exact spans_ofScaled (by omega) (by omega)
  · exact ⟨by show -_ ≤ (0 : Int); omega, by show (0 : Int) + bitLength 0 ≤ _; simp [bitLength]; omega⟩

end

end BinFloat

/-! ## Checked operations -/

namespace Checked

open BinFloat

section

variable {x y : BinFloat} {a b : Int}

theorem ofScaled_eq_ok {m e : Int} {p : Nat} (he : -2 ^ 63 ≤ e) (htop : e + bitLength m < 2 ^ 63) :
    ofScaled m e p = .ok (.ofScaled m e p) := by
  have hexp := exp_ofScaled_le m e p
  have hfit : InInt64 (BinFloat.ofScaled m e p).exp := inInt64_iff.2 ⟨by omega, by omega⟩
  unfold ofScaled
  dsimp only
  rw [int64_eq_ok hfit]
  rfl

theorem withPrec_eq_ok (h : x.Spans b) (hb : b < 2 ^ 63) (p : Nat) : withPrec x p = .ok (x.withPrec p) := by
  have := h.le_exp
  have htop := h.top_le
  unfold BinFloat.top at htop
  exact ofScaled_eq_ok (by omega) (by omega)

theorem scaleTwo_eq_ok {k : Int} (h : InInt64 (x.exp + k)) : scaleTwo x k = .ok (x.scaleTwo k) := by
  unfold scaleTwo BinFloat.scaleTwo
  rw [int64_eq_ok h]
  split
  · rfl
  · rfl

theorem top_eq_ok (h : x.Spans b) (hb : b < 2 ^ 63) : top x = .ok x.top := by
  have := h.le_exp
  have := h.top_le
  have := x.exp_le_top
  exact int64_eq_ok (inInt64_iff.2 ⟨by omega, by omega⟩)

theorem aligned_eq_ok (hx : x.Spans b) (hy : y.Spans b) (hb : 2 * b < 2 ^ 63) :
    aligned x y = .ok (x.aligned y) := by
  have := hx.le_exp
  have := hx.exp_le
  have := hy.le_exp
  have := hy.exp_le
  unfold aligned
  dsimp only
  rw [int64_eq_ok (inInt64_iff.2 ⟨by omega, by omega⟩), ok_bind, int64_eq_ok (inInt64_iff.2 ⟨by omega, by omega⟩)]
  rfl

theorem cmp_eq_ok (hx : x.Spans b) (hy : y.Spans b) (hb : 2 * b < 2 ^ 63) : cmp x y = .ok (x.cmp y) := by
  have := hx.nonneg
  refine (agrees_cmp x y).eq_ok ?_
  unfold cmp
  split
  · exact ⟨_, rfl⟩
  · split
    · exact ⟨_, rfl⟩
    · rw [top_eq_ok hx (by omega), ok_bind, top_eq_ok hy (by omega), ok_bind]
      cases compare x.top y.top with
      | lt => exact ⟨_, rfl⟩
      | eq => exact ⟨_, by rw [aligned_eq_ok hx hy hb]; rfl⟩
      | gt => exact ⟨_, rfl⟩

theorem add_eq_ok (hx : x.Spans b) (hy : y.Spans b) (hb : 2 * b + max x.prec y.prec + 2 < 2 ^ 63) :
    add x y = .ok (x + y) := by
  have := hx.nonneg
  have := hx.le_exp
  have := hx.top_le
  have := hy.le_exp
  have := hy.top_le
  have := x.exp_le_top
  have := y.exp_le_top
  refine (agrees_add x y).eq_ok ?_
  have hwith {z : BinFloat} (hz : z.Spans b) : ∃ w, withPrec z (max x.prec y.prec) = .ok w :=
    ⟨_, withPrec_eq_ok hz (by omega) _⟩
  unfold add
  dsimp only
  split
  · exact hwith hx
  · split
    · exact hwith hy
    · rw [top_eq_ok hx (by omega), ok_bind, top_eq_ok hy (by omega), ok_bind,
        int64_eq_ok (inInt64_iff.2 ⟨by omega, by omega⟩), ok_bind]
      split
      · exact hwith hx
      · rw [int64_eq_ok (inInt64_iff.2 ⟨by omega, by omega⟩), ok_bind]
        split
        · exact hwith hy
        · rw [aligned_eq_ok hx hy (by omega), ok_bind]
          obtain ⟨ha, hb⟩ := aligned_le x y
          have hexp : (x.aligned y).2.2 = min x.exp y.exp := rfl
          generalize x.aligned y = t at ha hb hexp ⊢
          have hlen := bitLength_add_le t.1 t.2.1
          exact ⟨_, ofScaled_eq_ok (m := t.1 + t.2.1) (e := t.2.2) (by omega) (by omega)⟩

theorem sub_eq_ok (hx : x.Spans b) (hy : y.Spans b) (hb : 2 * b + max x.prec y.prec + 2 < 2 ^ 63) :
    sub x y = .ok (x - y) := add_eq_ok hx hy.neg hb

theorem mul_eq_ok (hx : x.Spans a) (hy : y.Spans b) (hab : a + b < 2 ^ 63) : mul x y = .ok (x * y) := by
  have := hx.le_exp
  have := hx.exp_le
  have hxtop := hx.top_le
  have := hy.le_exp
  have := hy.exp_le
  have hytop := hy.top_le
  have hlen := bitLength_mul_le x.mant y.mant
  unfold BinFloat.top at hxtop hytop
  unfold mul
  rw [int64_eq_ok (inInt64_iff.2 ⟨by omega, by omega⟩), ok_bind]
  exact ofScaled_eq_ok (by omega) (by omega)

theorem div?_eq_ok (hx : x.Spans a) (hy : y.Spans b) (hab : a + b + max x.prec y.prec + 2 < 2 ^ 63) :
    div? x y = .ok (x.div? y) := by
  have := hx.le_exp
  have := hx.exp_le
  have := hy.le_exp
  have := hy.exp_le
  refine (agrees_div? x y).eq_ok ?_
  unfold div?
  dsimp only
  split
  · exact ⟨_, rfl⟩
  · rename_i hy0
    split
    · exact ⟨_, rfl⟩
    · obtain ⟨hlow, hhigh⟩ := quotient_le hx hy (mt (isZero_iff.2 ∘ value_eq_zero_iff.2) hy0) rfl
      rw [int64_eq_ok (inInt64_iff.2 ⟨by omega, by omega⟩), ok_bind,
        int64_eq_ok (inInt64_iff.2 ⟨by omega, by omega⟩), ok_bind, ofScaled_eq_ok (by omega) (by omega)]
      exact ⟨_, rfl⟩

theorem div_eq_ok (hx : x.Spans a) (hy : y.Spans b) (hy0 : y.value ≠ 0)
    (hab : a + b + max x.prec y.prec + 2 < 2 ^ 63) : div x y = .ok (x / y) := by
  unfold div
  rw [div?_eq_ok hx hy hab, div?_eq_some hy0]
  rfl

theorem sqrt_eq_ok (hx : x.Spans a) (ha : a + 2 * x.prec + 4 < 2 ^ 63) : sqrt x = .ok x.sqrt := by
  have := hx.le_exp
  have := hx.exp_le
  refine (agrees_sqrt x).eq_ok ?_
  unfold sqrt
  split
  · rename_i hpos
    have hmant := bitLength_pos (of_decide_eq_true hpos).ne'
    have hstep (s : Nat) (hs : s ≤ 2 * x.prec + 4) : ∃ w, (do
        let e ← int64 (x.exp - s)
        ofScaled (Nat.sqrt (x.mant.toNat <<< s)) (e / 2) x.prec) = .ok w := by
      obtain ⟨hlow, hhigh⟩ := root_le hx hs
      rw [int64_eq_ok (inInt64_iff.2 ⟨by omega, by omega⟩), ok_bind]
      exact ⟨_, ofScaled_eq_ok (by omega) (by omega)⟩
    dsimp only
    rw [int64_eq_ok (inInt64_iff.2 ⟨by omega, by omega⟩), ok_bind]
    split
    · exact hstep _ (by omega)
    · exact hstep _ (by omega)
  · exact ⟨_, rfl⟩

end

end Checked

end CliffordT
