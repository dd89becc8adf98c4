/-
The bounding box of a computed ellipse.

A coordinate of a point is off the center by its norm times the half width at most. The computed half width
has the errors of the form and those of the determinant. What comes out is a bound in proportion to the ends
of the box: the points of the exact ellipse are in the box, up to a small part of how far out it reaches.
There is a box as long as the computed determinant is not zero, and scaling the ellipse does not make it so.
-/
import CliffordT.Proofs.Plane.Interval
import CliffordT.Proofs.Plane.Rescale

namespace CliffordT

open BinFloat

namespace BinFloat

theorem abs_abs_eq (s : BinFloat) : s.abs.abs = s.abs := by
  unfold BinFloat.abs
  simp

theorem abs_mul_abs_eq (s : BinFloat) : s.abs * s.abs = s * s := by
  show ofScaled _ _ _ = ofScaled _ _ _
  congr 1
  exact Int.natAbs_mul_self

end BinFloat

namespace Form

/-- A coordinate, against the norm. -/
theorem IsPos.abs_fst_le {F : Form} (h : F.IsPos) (x y : ℝ) : |x| ≤ √(F.q / F.det) * F.norm x y := by
  have hd := h.det_pos
  have hq := h.q_pos
  refine abs_le_of_sq_le_sq ?_ (mul_nonneg (Real.sqrt_nonneg _) (F.norm_nonneg x y))
  have hsq : 0 ≤ (F.b * x + F.q * y) ^ 2 := sq_nonneg _
  have hsplit : F.q * F.eval x y = F.det * x ^ 2 + (F.b * x + F.q * y) ^ 2 := by
    simp only [eval, det]
    ring
  rw [mul_pow, Real.sq_sqrt (by positivity), h.norm_sq, div_mul_eq_mul_div, le_div_iff₀ hd]
  linarith

theorem IsPos.abs_snd_le {F : Form} (h : F.IsPos) (x y : ℝ) : |y| ≤ √(F.p / F.det) * F.norm x y := by
  have hswap : (Form.mk F.q F.b F.p).IsPos := ⟨h.q_pos, h.p_pos, by
    have := h.det_pos
    simp only [det] at this ⊢
    linarith⟩
  have hdet : (Form.mk F.q F.b F.p).det = F.det := by
    simp only [det]
    ring
  have hnorm : (Form.mk F.q F.b F.p).norm y x = F.norm x y := by
    unfold norm
    congr 1
    simp only [eval]
    ring
  have hle := hswap.abs_fst_le y x
  rwa [hdet, hnorm] at hle

end Form

namespace Interval

variable {x h : BinFloat} {p : ℕ} {M ξ y g : ℝ}

/-- The interval about `x` with the half width `h`: it is meant for the numbers within `g` of `x`. -/
theorem near_spanning (hp : 20 ≤ p) (hprec : p ≤ h.prec) (hlo : |(spanning (x - h) (x + h)).lo.value| ≤ M)
    (hhi : |(spanning (x - h) (x + h)).hi.value| ≤ M) (hξ : 0 ≤ ξ) (hg : g ≤ (1 + ξ) * h.value)
    (hy : |y - x.value| ≤ g) :
    (spanning (x - h) (x + h)).Near p M ((2 * ξ + 3 * roundoff p) * M) y := by
  have hu := roundoff_pos p
  have hu1 := roundoff_le_of_le hp
  have hM : 0 ≤ M := (abs_nonneg _).trans hlo
  have hends := spanning_ends (x - h) (x + h) (P := fun z => p ≤ z.prec)
    (by
      rw [prec_sub]
      exact hprec.trans (le_max_right _ _))
    (by
      rw [prec_add]
      exact hprec.trans (le_max_right _ _))
  have hmin := value_lo_spanning (x - h) (x + h)
  have hmax := value_hi_spanning (x - h) (x + h)
  have hboth := abs_le_of_abs_spanning_le (x - h) (x + h) hlo hhi
  have hsub := value_sub_within (x := x) (y := h) (p := p) (hprec.trans (le_max_right _ _))
  have hadd := value_add_within (x := x) (y := h) (p := p) (hprec.trans (le_max_right _ _))
  have hexact {v w : ℝ} (hw : Within (2 * roundoff p) v w) (hv : |v| ≤ M) :
      |w| ≤ 101 / 100 * M ∧ |v - w| ≤ 202 / 100 * roundoff p * M := by
    have hle := hw.le_abs
    have hsize : |w| ≤ 101 / 100 * M := by
      have : 1999 / 2000 * |w| ≤ (1 - 2 * roundoff p) * |w| :=
        mul_le_mul_of_nonneg_right (by linarith) (abs_nonneg w)
      linarith
    refine ⟨hsize, hw.sub_le.trans ?_⟩
    have := mul_le_mul_of_nonneg_left hsize (by linarith : 0 ≤ 2 * roundoff p)
    linarith
  obtain ⟨hsub1, hsub2⟩ := hexact hsub hboth.1
  obtain ⟨hadd1, hadd2⟩ := hexact hadd hboth.2
  have hhalf : h.value ≤ 101 / 100 * M := by
    linarith [(abs_le.1 hsub1).1, (abs_le.1 hadd1).2]
  have hξM : ξ * h.value ≤ ξ * (101 / 100 * M) := mul_le_mul_of_nonneg_left hhalf hξ
  have hξM0 : 0 ≤ ξ * M := mul_nonneg hξ hM
  have huM0 : 0 ≤ roundoff p * M := mul_nonneg hu.le hM
  obtain ⟨hy1, hy2⟩ := abs_le.1 hy
  refine ⟨hends.1, hends.2, hlo, hhi, ?_, ?_, ?_⟩
  · rw [hmin, hmax]
    exact min_le_max
  · rw [hmin]
    refine (min_le_left _ _).trans ?_
    linarith [(abs_le.1 hsub2).2]
  · rw [hmax]
    refine le_trans ?_ (add_le_add_left (le_max_right _ _) _)
    linarith [(abs_le.1 hadd2).1]

end Interval

/-- The rectangle is one for the points of the ellipse, up to a part `ξ` of how far out it reaches. -/
def Rectangle.Encloses (p : ℕ) (ξ : ℝ) (r : Rectangle) (X : ExactEllipse) : Prop :=
  ∀ v M, X.Contains v →
    (|r.x.lo.value| ≤ M → |r.x.hi.value| ≤ M → r.x.Near p M (ξ * M) (v 0)) ∧
    (|r.y.lo.value| ≤ M → |r.y.hi.value| ≤ M → r.y.Near p M (ξ * M) (v 1))

/-! ## Faults -/

/-- A sequence fails with its first part, or with what follows. -/
theorem error_of_bind {α β : Type} {x : Except Fault α} {f : α → Except Fault β} {e : Fault}
    (h : (x >>= f) = .error e) : x = .error e ∨ ∃ a, x = .ok a ∧ f a = .error e := by
  cases x with
  | error e' =>
    cases h
    exact .inl rfl
  | ok a => exact .inr ⟨a, rfl, h⟩

namespace Ellipse

section BoundingBox

variable {c : Constants} {E : Ellipse} {X : ExactEllipse} {η α K θ ξ : ℝ}

/-- The points of the exact ellipse, seen from the computed center. -/
theorem Outlines.abs_sub_center_le {p : ℕ} (h : E.Outlines p η α K θ X) {v : Fin 2 → ℝ}
    (hv : X.Contains v) : |v 0 - E.center.x.value| ≤ √(X.form.q / X.form.det) * (1 + θ) ∧
      |v 1 - E.center.y.value| ≤ √(X.form.p / X.form.det) * (1 + θ) := by
  have hone : X.form.norm (v 0 - X.center 0) (v 1 - X.center 1) ≤ 1 := Real.sqrt_le_one.2 hv
  have hfar {r s t u : ℝ} (hst : |s - t| ≤ r * 1) (htu : |u - t| ≤ r * θ) : |s - u| ≤ r * (1 + θ) := by
    have htri := abs_sub_le s t u
    rw [abs_sub_comm t u] at htri
    linarith
  have hroot := Real.sqrt_nonneg (X.form.q / X.form.det)
  have hroot' := Real.sqrt_nonneg (X.form.p / X.form.det)
  exact ⟨hfar ((h.isPos.abs_fst_le _ _).trans (mul_le_mul_of_nonneg_left hone hroot))
      ((h.isPos.abs_fst_le _ _).trans (mul_le_mul_of_nonneg_left h.centered hroot)),
    hfar ((h.isPos.abs_snd_le _ _).trans (mul_le_mul_of_nonneg_left hone hroot'))
      ((h.isPos.abs_snd_le _ _).trans (mul_le_mul_of_nonneg_left h.centered hroot'))⟩

/-- **The bounding box of a computed ellipse** is one for the exact ellipse, up to a part `ξ` of how far out
it reaches. -/
theorem Outlines.exists_boundingBox (hp : 64 ≤ c.prec) (h : E.Outlines c.prec η α K θ X) (hα1 : α ≤ 1)
    (hsmall : 13 * η + 4 * α ^ 2 + 160 * roundoff c.prec * K ≤ 1 / 4)
    (hξ : 52 * η + 16 * α ^ 2 + 640 * roundoff c.prec * K + 35 * roundoff c.prec + 4 * θ ≤ ξ) :
    ∃ r, E.boundingBox = .ok r ∧ r.Encloses c.prec ξ X := by
  have hu := roundoff_pos c.prec
  have hu1 : roundoff c.prec ≤ 1 / 2 ^ 64 := (roundoff_anti hp).trans (roundoff_eq 64).le
  have hF := h.isPos
  have hD := hF.det_pos
  have hη0 := h.near.nonneg hF
  have hα2 : 0 ≤ α ^ 2 := sq_nonneg α
  have hK : 0 ≤ roundoff c.prec * K := by
    refine mul_nonneg hu.le (nonneg_of_mul_nonneg_left ?_ hD)
    exact (sq_nonneg _).trans h.size_le
  have hθ : 0 ≤ θ := (Form.norm_nonneg _ _ _).trans h.centered
  have hdet := determinant_within (by omega) hF h.prec h.near (by linarith) hα1 h.size_le
  have hprec := le_prec_determinant h.prec
  obtain ⟨e, he⟩ : ∃ e, e = 13 * η + 4 * α ^ 2 + 160 * roundoff c.prec * K + 8 * roundoff c.prec := ⟨_, rfl⟩
  have hhalf {x : BinFloat} {v : ℝ} (hv : 0 < v) (hx : Within η x.value v) :
      x.div? E.determinant = some (x / E.determinant) ∧
        c.prec ≤ (x / E.determinant).sqrt.prec ∧
        √(v / X.form.det) * (1 + θ) ≤ (1 + 2 * (e + θ)) * (x / E.determinant).sqrt.value := by
    obtain ⟨hne, hquot⟩ := value_div_of_within (hprec.trans (le_max_right x.prec _)) hD.ne'
      (by linarith) (by linarith) (by linarith) hx hdet
    have hprecquot : c.prec ≤ (x / E.determinant).prec := by
      rw [prec_div]
      exact hprec.trans (le_max_right _ _)
    have hroot := (value_sqrt_of_within hprecquot (div_pos hv hD) (by linarith) hquot).mono
      (f := e) (by linarith)
    refine ⟨div?_eq_some hne, by rwa [prec_sqrt], ?_⟩
    have hw := Real.sqrt_nonneg (v / X.form.det)
    have hlow := (abs_le.1 hroot.sub_le).1
    rw [abs_of_nonneg hw] at hlow
    have hpart : 1 + θ ≤ (1 + 2 * (e + θ)) * (1 - e) := by
      have hee : (e + θ) * (2 * e) ≤ (e + θ) * 1 := mul_le_mul_of_nonneg_left (by linarith) (by linarith)
      linarith
    have hmul := mul_le_mul_of_nonneg_left hpart hw
    have hscale := mul_le_mul_of_nonneg_left hlow (by linarith : 0 ≤ 1 + 2 * (e + θ))
    linarith
  obtain ⟨hdivx, hprecx, hx⟩ := hhalf hF.q_pos (h.near.m11_within hF)
  obtain ⟨hdivy, hprecy, hy⟩ := hhalf hF.p_pos (h.near.m00_within hF)
  refine ⟨_, by rw [boundingBox, hdivx, hdivy]; rfl, fun v M hv => ?_⟩
  obtain ⟨hx', hy'⟩ := h.abs_sub_center_le hv
  have hwiden {i : Interval} {y : ℝ} (hlo : |i.lo.value| ≤ M)
      (hi : i.Near c.prec M ((2 * (2 * (e + θ)) + 3 * roundoff c.prec) * M) y) :
      i.Near c.prec M (ξ * M) y := by
    refine hi.mono le_rfl (mul_le_mul_of_nonneg_right ?_ ((abs_nonneg _).trans hlo))
    linarith
  exact ⟨fun hlo hhi => hwiden hlo
      (Interval.near_spanning (by omega) hprecx hlo hhi (by linarith) hx hx'),
    fun hlo hhi => hwiden hlo
      (Interval.near_spanning (by omega) hprecy hlo hhi (by linarith) hy hy')⟩

/-! ## When there is a bounding box -/

/-- All that can go wrong is a determinant of zero. -/
theorem boundingBox_of_determinant (h : E.determinant.value ≠ 0) : ∃ r, E.boundingBox = .ok r := by
  unfold boundingBox
  dsimp only
  rw [div?_eq_some h, div?_eq_some h]
  exact ⟨_, rfl⟩

/-- The sign of the scale shows in the center only. -/
theorem rescale_abs {s : BinFloat} {E' : Ellipse} (h : E.rescale s.abs c = .ok E') :
    E.rescale s c = .ok { E' with center := E.center.scale s } := by
  unfold rescale at h ⊢
  rw [abs_mul_abs_eq, abs_abs_eq] at h
  cases hq : quotient (c.one.div? (s * s)) with
  | error e =>
    rw [hq] at h
    cases h
  | ok r =>
    rw [hq] at h
    cases h
    rfl

/-- **An ellipse with an outline can be scaled**, by a number of either sign, and has a bounding box then. -/
theorem Outlines.exists_rescaled_boundingBox {s : BinFloat} (hp : 64 ≤ c.prec) (hsp : c.prec ≤ s.prec)
    (hs : s.value ≠ 0) (h : E.Outlines c.prec η α K θ X) (hα : 0 ≤ α)
    (hsmall : 3 * η + α + 3000 * roundoff c.prec * K ≤ 1 / 4) :
    ∃ E' r, E.rescale s c = .ok E' ∧ E'.boundingBox = .ok r := by
  have hu := roundoff_pos c.prec
  have hF := h.isPos
  have hD := hF.det_pos
  have hroot := Real.sqrt_nonneg X.form.det
  have hη0 := h.near.nonneg hF
  have hK1 := hF.one_le_of_size_sq_le h.size_le
  have huK : 0 ≤ roundoff c.prec * K := mul_nonneg hu.le (by linarith)
  have hsizeroot : X.form.size ≤ K * √X.form.det := by
    refine (abs_le_of_sq_le_sq' ?_ (by positivity)).2
    rw [mul_pow, Real.sq_sqrt hD.le]
    refine h.size_le.trans (mul_le_mul_of_nonneg_right ?_ hD.le)
    exact le_self_pow₀ hK1 (by norm_num)
  have hratio : X.form.size ^ 2 / X.form.det ≤ K := (div_le_iff₀ hD).2 h.size_le
  have habs : 0 < s.abs.value := by
    rw [value_abs]
    exact abs_pos.2 hs
  obtain ⟨E', hE', -, hprec', hnear'⟩ := exists_rescale (s := s.abs) hp hsp habs
    (.refl (by linarith) s.abs.value) hF h.prec h.near (by linarith)
    ((mul_le_of_le_one_left hroot (by linarith)).trans hF.sqrt_det_le_size)
  obtain ⟨ρ, hρ⟩ : ∃ ρ, ρ = s.abs.value⁻¹ ^ 2 := ⟨_, rfl⟩
  rw [← hρ] at hnear'
  have hρ0 : 0 < ρ := by
    rw [hρ]
    positivity
  have hscaled := hF.smul hρ0
  -- the errors against the scaled form
  have hnear : E'.form.Near (η + 640 * roundoff c.prec * K)
      ((α + 320 * roundoff c.prec * K) * √(ρ • X.form).det) (ρ • X.form) := by
    refine hnear'.mono hscaled ?_ ?_
    · have := mul_le_mul_of_nonneg_left hratio (by linarith : 0 ≤ 640 * roundoff c.prec)
      linarith
    · rw [Form.sqrt_det_smul hρ0]
      have := mul_le_mul_of_nonneg_left hsizeroot (by linarith : 0 ≤ 320 * roundoff c.prec)
      have := mul_le_mul_of_nonneg_left this hρ0.le
      linarith
  have hsize := Form.size_sq_smul_le hρ0 h.size_le
  have hα' : 0 ≤ α + 320 * roundoff c.prec * K := by linarith
  have hα1 : α + 320 * roundoff c.prec * K ≤ 1 := by linarith
  have hdet := determinant_within (by omega) hscaled hprec' hnear (by linarith) hα1 hsize
  have hsq : (α + 320 * roundoff c.prec * K) ^ 2 ≤ α + 320 * roundoff c.prec * K := by
    rw [sq]
    exact mul_le_of_le_one_left hα' hα1
  have hpos := pos_of_within hscaled.det_pos (by linarith) hdet
  have hdet' : ({ E' with center := E.center.scale s } : Ellipse).determinant.value ≠ 0 := hpos.ne'
  obtain ⟨r, hr⟩ := boundingBox_of_determinant hdet'
  exact ⟨_, r, rescale_abs hE', hr⟩

end BoundingBox

end Ellipse

end CliffordT
