/-
Intervals stay ordered, and what is in them stays in them.

Moving and widening an interval puts it together from two rounded ends without a look at their order; multiplying
and dividing look at it. That the ends come out in order either way is monotonicity of the rounded operations,
and so is that a number between the ends goes where they go. `Operation` is one such step on intervals, with what it
makes of a number; a chain of steps is run from the left, and `run_ordered` is the induction along it. The steps
are those with exponents of 64 bits: each gives the interval that exponents of any size give, or ends the chain.
For ends and operands of moderate size no chain of moderate length is ended, which is the induction `run_eq_ok`.

The ends have room for one bit. A one of precision zero is rounded to two.
-/
import CliffordT.Plane.Checked
import CliffordT.Proofs.BinFloat.Monotone
import CliffordT.Proofs.BinFloat.Spans
import CliffordT.Proofs.Plane.Interval

namespace CliffordT

open BinFloat
open Checked (Agrees)

namespace Interval

/-- The ends are in order, with one precision, which is not zero, and have no more bits than it says. -/
structure IsOrdered (i : Interval) : Prop where
  le : i.lo ≤ i.hi
  prec : i.lo.prec = i.hi.prec
  prec_pos : 1 ≤ i.lo.prec
  lo : i.lo.FitsPrecision
  hi : i.hi.FitsPrecision

structure Member (i : Interval) (x : BinFloat) : Prop where
  prec : x.prec = i.lo.prec
  fits : x.FitsPrecision
  lo_le : i.lo ≤ x
  le_hi : x ≤ i.hi

/-- A step on an interval, with its operand. -/
inductive Operation
  | add (s : BinFloat)
  | sub (s : BinFloat)
  | mul (s : BinFloat)
  | div (s : BinFloat)
  | fatten (s : BinFloat)

namespace Operation

def operand : Operation → BinFloat
  | add s => s
  | sub s => s
  | mul s => s
  | div s => s
  | fatten s => s

/-- The operand may have any precision; a divisor is not zero, and an interval is not widened by a negative
number. -/
def Admissible : Operation → Prop
  | add s => s.FitsPrecision
  | sub s => s.FitsPrecision
  | mul s => s.FitsPrecision
  | div s => s.FitsPrecision ∧ s.value ≠ 0
  | fatten s => s.FitsPrecision ∧ 0 ≤ s.value

def act : Operation → Interval → Except Fault Interval
  | add s, i => Checked.Interval.add i s
  | sub s, i => Checked.Interval.sub i s
  | mul s, i => Checked.Interval.mul i s
  | div s, i => Checked.Interval.div i s
  | fatten s, i => Checked.Interval.fatten i s

def move : Operation → BinFloat → Except Fault BinFloat
  | add s, x => Checked.add x s
  | sub s, x => Checked.sub x s
  | mul s, x => Checked.mul x s
  | div s, x => Checked.div x s
  | fatten _, x => .ok x

/-- The same, with the room for digits that the interval has after the step. -/
def follow (op : Operation) (x : BinFloat) : Except Fault BinFloat := do
  Checked.withPrec (← op.move x) (max x.prec op.operand.prec)

end Operation

def run (ops : List Operation) (i : Interval) : Except Fault Interval := ops.foldlM (fun j op => op.act j) i

def follow (ops : List Operation) (x : BinFloat) : Except Fault BinFloat := ops.foldlM (fun y op => op.follow y) x

section

variable {i : Interval} {s x : BinFloat}

theorem IsOrdered.value_le (h : i.IsOrdered) : i.lo.value ≤ i.hi.value := le_iff_value.1 h.le

theorem Member.bounds (h : i.Member x) : i.lo.value ≤ x.value ∧ x.value ≤ i.hi.value :=
  ⟨le_iff_value.1 h.lo_le, le_iff_value.1 h.le_hi⟩

/-- The ends are members themselves. -/
theorem IsOrdered.member_ends (h : i.IsOrdered) : i.Member i.lo ∧ i.Member i.hi :=
  ⟨⟨rfl, h.lo, le_iff_value.2 le_rfl, h.le⟩, ⟨h.prec.symm, h.hi, h.le, le_iff_value.2 le_rfl⟩⟩

/-- What a step has to do: the new ends are in order and have precision `q`, and a number that was between the old
ones is moved between the new ones. -/
structure Carries (i k : Interval) (q : ℕ) (move : BinFloat → BinFloat) : Prop where
  ordered : k.IsOrdered
  prec : k.lo.prec = q
  prec_le : ∀ x, i.Member x → (move x).prec ≤ q
  fits : ∀ x, i.Member x → (move x).FitsPrecision
  between : ∀ x, i.Member x → k.lo ≤ move x ∧ move x ≤ k.hi

/-- With the room of the new interval, the number is a member of it. -/
theorem Carries.member {k : Interval} {q : ℕ} {f : BinFloat → BinFloat} (h : Carries i k q f) (hx : i.Member x) :
    k.Member ((f x).withPrec q) := by
  have hvalue := (h.fits x hx).value_withPrec (h.prec ▸ h.ordered.prec_pos) (h.prec_le x hx)
  obtain ⟨hlo, hhi⟩ := h.between x hx
  rw [le_iff_value, ← hvalue] at hlo hhi
  exact ⟨(prec_withPrec _ _).trans h.prec.symm, fits_ofScaled _ _ _, le_iff_value.2 hlo, le_iff_value.2 hhi⟩

/-- A step that moves both ends as it moves any number, in their order. -/
theorem carries_of_mono {f : BinFloat → BinFloat} {q : ℕ} (h : i.IsOrdered) (hq : i.lo.prec ≤ q)
    (hprec : ∀ x, x.prec = i.lo.prec → (f x).prec = q) (hfits : ∀ x, (f x).FitsPrecision)
    (hmono : ∀ x y, i.Member x → i.Member y → x.value ≤ y.value → (f x).value ≤ (f y).value) :
    Carries i ⟨f i.lo, f i.hi⟩ q f := by
  obtain ⟨hlo, hhi⟩ := h.member_ends
  refine ⟨⟨le_iff_value.2 (hmono _ _ hlo hhi h.value_le), ?_, ?_, hfits _, hfits _⟩, hprec _ rfl,
    fun x hx => (hprec x hx.prec).le, fun x _ => hfits x, fun x hx => ?_⟩
  · exact (hprec _ rfl).trans (hprec _ h.prec.symm).symm
  · exact h.prec_pos.trans (hq.trans (hprec _ rfl).ge)
  · exact ⟨le_iff_value.2 (hmono _ _ hlo hx hx.bounds.1), le_iff_value.2 (hmono _ _ hx hhi hx.bounds.2)⟩

/-- A step that moves the ends as it moves any number and sorts them then, whichever way it turns them. -/
theorem carries_spanning {f : BinFloat → BinFloat} {q : ℕ} (h : i.IsOrdered) (hq : i.lo.prec ≤ q)
    (hprec : ∀ x, x.prec = i.lo.prec → (f x).prec = q) (hfits : ∀ x, (f x).FitsPrecision)
    (hmono : (∀ x y, i.Member x → i.Member y → x.value ≤ y.value → (f x).value ≤ (f y).value) ∨
      ∀ x y, i.Member x → i.Member y → x.value ≤ y.value → (f y).value ≤ (f x).value) :
    Carries i (spanning (f i.lo) (f i.hi)) q f := by
  obtain ⟨hlo, hhi⟩ := h.member_ends
  obtain ⟨hplo, hphi⟩ := spanning_ends (f i.lo) (f i.hi) (P := fun y => y.prec = q) (hprec _ rfl)
    (hprec _ h.prec.symm)
  obtain ⟨hslo, hshi⟩ := spanning_ends (f i.lo) (f i.hi) (hfits _) (hfits _)
  refine ⟨⟨?_, hplo.trans hphi.symm, h.prec_pos.trans (hq.trans hplo.ge), hslo, hshi⟩, hplo,
    fun x hx => (hprec x hx.prec).le, fun x _ => hfits x, fun x hx => ?_⟩
  · rw [le_iff_value, value_lo_spanning, value_hi_spanning]
    exact min_le_max
  · rw [le_iff_value, le_iff_value, value_lo_spanning, value_hi_spanning, min_le_iff, le_max_iff]
    rcases hmono with hmono | hmono
    · exact ⟨.inl (hmono _ _ hlo hx hx.bounds.1), .inr (hmono _ _ hx hhi hx.bounds.2)⟩
    · exact ⟨.inr (hmono _ _ hx hhi hx.bounds.2), .inl (hmono _ _ hlo hx hx.bounds.1)⟩

/-! ## The steps -/

theorem Member.one_le_max (hx : i.Member x) (h : i.IsOrdered) (s : BinFloat) : 1 ≤ max x.prec s.prec :=
  (hx.prec ▸ h.prec_pos).trans (le_max_left _ _)

theorem IsOrdered.add (h : i.IsOrdered) (hs : s.FitsPrecision) :
    Carries i (i.add s) (max i.lo.prec s.prec) (· + s) := by
  refine carries_of_mono h (le_max_left _ _) (fun x hx => by rw [prec_add, hx]) (fun x => fits_add x s)
    fun x y hx hy hle => ?_
  have hy' := isNearest_add hy.fits hs (hy.one_le_max h s)
  rw [hy.prec, ← hx.prec] at hy'
  exact (isNearest_add hx.fits hs (hx.one_le_max h s)).monotone hy' (by linarith)

theorem IsOrdered.sub (h : i.IsOrdered) (hs : s.FitsPrecision) :
    Carries i (i.sub s) (max i.lo.prec s.prec) (· - s) :=
  h.add hs.neg

theorem IsOrdered.mul (h : i.IsOrdered) (s : BinFloat) :
    Carries i (i.mul s) (max i.lo.prec s.prec) (· * s) := by
  have hmono {x y : BinFloat} (hx : i.Member x) (hy : i.Member y) (hle : x.value * s.value ≤ y.value * s.value) :
      (x * s).value ≤ (y * s).value := by
    have hy' := isNearest_mul (hy.one_le_max h s)
    rw [hy.prec, ← hx.prec] at hy'
    exact (isNearest_mul (hx.one_le_max h s)).monotone hy' hle
  refine carries_spanning h (le_max_left _ _) (fun x hx => by rw [prec_mul, hx]) (fun x => fits_mul x s) ?_
  rcases le_total 0 s.value with hpos | hneg
  · exact .inl fun x y hx hy hle => hmono hx hy (mul_le_mul_of_nonneg_right hle hpos)
  · exact .inr fun x y hx hy hle => hmono hy hx (mul_le_mul_of_nonpos_right hle hneg)

theorem IsOrdered.div (h : i.IsOrdered) (hs0 : s.value ≠ 0) :
    Carries i (spanning (i.lo / s) (i.hi / s)) (max i.lo.prec s.prec) (· / s) := by
  have hmono {x y : BinFloat} (hx : i.Member x) (hy : i.Member y) :=
    value_div_mono hx.fits hy.fits (hx.prec ▸ h.prec_pos) (hx.prec.trans hy.prec.symm) hs0
  refine carries_spanning h (le_max_left _ _) (fun x hx => by rw [prec_div, hx]) (fun x => fits_div x s) ?_
  rcases le_total 0 s.value with hpos | hneg
  · exact .inl fun x y hx hy hle => hmono hx hy (div_le_div_of_nonneg_right hle hpos)
  · exact .inr fun x y hx hy hle => hmono hy hx (div_le_div_of_nonpos_of_le hneg hle)

/-- The lower end goes down and the upper one up, and a number of the old precision is not passed by either. -/
theorem IsOrdered.fatten (h : i.IsOrdered) (hs : s.FitsPrecision) (hs0 : 0 ≤ s.value) :
    Carries i (i.fatten s) (max i.lo.prec s.prec) id := by
  have hbetween {x : BinFloat} (hx : i.Member x) : (i.lo - s).value ≤ x.value ∧ x.value ≤ (i.hi + s).value := by
    obtain ⟨hmlo, hmhi⟩ := h.member_ends
    obtain ⟨hlo, hhi⟩ := hx.bounds
    have hkept {e : BinFloat} (he : i.Member e) : IsNearest (max e.prec s.prec) x.value x.value :=
      (hx.fits.hasBits (he.one_le_max h s) (by rw [hx.prec, he.prec]; exact le_max_left _ _)).isNearest_self
    have hdown := isNearest_add h.lo hs.neg (hmlo.one_le_max h (-s))
    have hup := isNearest_add h.hi hs (hmhi.one_le_max h s)
    rw [value_neg] at hdown
    exact ⟨hdown.monotone (hkept hmlo) (by linarith), (hkept hmhi).monotone hup (by linarith)⟩
  obtain ⟨hlow, hhigh⟩ := hbetween h.member_ends.1
  refine ⟨⟨le_iff_value.2 (hlow.trans hhigh), ?_, ?_, fits_add _ _, fits_add _ _⟩, prec_sub i.lo s,
    fun x hx => hx.prec ▸ le_max_left _ _, fun x hx => hx.fits, fun x hx => ?_⟩
  · show (i.lo - s).prec = (i.hi + s).prec
    rw [prec_sub, prec_add, h.prec]
  · exact (h.member_ends.1.one_le_max h s).trans (prec_sub i.lo s).ge
  · exact ⟨le_iff_value.2 (hbetween hx).1, le_iff_value.2 (hbetween hx).2⟩

theorem agrees_spanning (x y : BinFloat) : Agrees (Checked.Interval.spanning x y) (spanning x y) := by
  refine (Checked.agrees_cmp x y).bind ?_
  unfold spanning
  by_cases hle : x ≤ y
  · rw [if_pos hle, if_pos (show x.cmp y ≠ .gt from hle)]
    exact .ok _
  · rw [if_neg hle, if_neg (show ¬ x.cmp y ≠ .gt from hle)]
    exact .ok _

/-- **One step** from an interval in order. -/
theorem Operation.act_carries {op : Operation} (h : i.IsOrdered) (hop : op.Admissible) :
    ∃ k f, Agrees (op.act i) k ∧ (∀ x, Agrees (op.move x) (f x)) ∧
      Carries i k (max i.lo.prec op.operand.prec) f := by
  have hends {m n : Except Fault BinFloat} {lo hi : BinFloat} (hm : Agrees m lo) (hn : Agrees n hi) :
      Agrees (do return Interval.mk (← m) (← n)) ⟨lo, hi⟩ := hm.bind (hn.bind (.ok _))
  have hsorted {m n : Except Fault BinFloat} {lo hi : BinFloat} (hm : Agrees m lo) (hn : Agrees n hi) :
      Agrees (do Checked.Interval.spanning (← m) (← n)) (spanning lo hi) := hm.bind (hn.bind (agrees_spanning _ _))
  cases op with
  | add s =>
    exact ⟨_, _, hends (Checked.agrees_add _ s) (Checked.agrees_add _ s), fun x => Checked.agrees_add x s, h.add hop⟩
  | sub s =>
    exact ⟨_, _, hends (Checked.agrees_sub _ s) (Checked.agrees_sub _ s), fun x => Checked.agrees_sub x s, h.sub hop⟩
  | mul s =>
    exact ⟨_, _, hsorted (Checked.agrees_mul _ s) (Checked.agrees_mul _ s), fun x => Checked.agrees_mul x s, h.mul s⟩
  | div s =>
    exact ⟨_, _, hsorted (Checked.agrees_div _ hop.2) (Checked.agrees_div _ hop.2), fun x => Checked.agrees_div x hop.2,
      h.div hop.2⟩
  | fatten s =>
    exact ⟨_, _, hends (Checked.agrees_sub _ s) (Checked.agrees_add _ s), fun x => .ok x, h.fatten hop.1 hop.2⟩

/-- The step on the interval and on its members. -/
theorem Operation.act_ordered {op : Operation} (h : i.IsOrdered) (hop : op.Admissible) :
    ∃ k, Agrees (op.act i) k ∧ k.IsOrdered ∧
      (∀ x, i.Member x → ∃ y, Agrees (op.move x) y ∧ k.lo ≤ y ∧ y ≤ k.hi) ∧
      ∀ x, i.Member x → ∃ y, Agrees (op.follow x) y ∧ k.Member y := by
  obtain ⟨k, f, hk, hf, hc⟩ := op.act_carries h hop
  refine ⟨k, hk, hc.ordered, fun x hx => ⟨f x, hf x, hc.between x hx⟩, fun x hx => ⟨_, ?_, hc.member hx⟩⟩
  rw [← hx.prec]
  exact (hf x).bind (Checked.agrees_withPrec _ _)

/-- **A chain of steps** from an interval in order ends with one, and its members come along, by induction along the
chain. -/
theorem run_ordered {ops : List Operation} (h : i.IsOrdered) (hops : ∀ op ∈ ops, op.Admissible) :
    ∃ j, Agrees (run ops i) j ∧ j.IsOrdered ∧ ∀ x, i.Member x → ∃ y, Agrees (follow ops x) y ∧ j.Member y := by
  induction ops generalizing i with
  | nil => exact ⟨i, .ok i, h, fun x hx => ⟨x, .ok x, hx⟩⟩
  | cons op ops ih =>
    obtain ⟨k, hk, hordered, -, hfollow⟩ := op.act_ordered h (hops op List.mem_cons_self)
    obtain ⟨j, hj, hend, hmembers⟩ := ih hordered fun o ho => hops o (List.mem_cons_of_mem op ho)
    refine ⟨j, ?_, hend, fun x hx => ?_⟩
    · rw [run, List.foldlM_cons]
      exact hk.bind hj
    · obtain ⟨y, hy, hky⟩ := hfollow x hx
      obtain ⟨z, hz, hjz⟩ := hmembers y hky
      refine ⟨z, ?_, hjz⟩
      rw [follow, List.foldlM_cons]
      exact hy.bind hz

/-! ## Where a chain is not ended -/

/-- The bits of both ends lie between the positions `-b` and `b`, and both precisions are at most `q`. -/
def IsWithin (i : Interval) (b : Int) (q : ℕ) : Prop :=
  (i.lo.Spans b ∧ i.lo.prec ≤ q) ∧ i.hi.Spans b ∧ i.hi.prec ≤ q

/-- The operand has its bits between the positions `-c` and `c`, and a precision of at most `q`. -/
def Operation.IsWithin (op : Operation) (c : Int) (q : ℕ) : Prop := op.operand.Spans c ∧ op.operand.prec ≤ q

variable {b c : Int} {q : ℕ} {op : Operation}

/-- A step takes the bits of a number hardly farther away than those of the operand are, and the precision. -/
theorem Operation.move_eq_ok (hop : op.Admissible) (hs : op.IsWithin c q) (hx : x.Spans b) (hp : x.prec ≤ q)
    (hb : 2 * (b + (c + q + 3)) < 2 ^ 63) : ∃ y, op.move x = .ok y ∧ y.Spans (b + (c + q + 2)) ∧ y.prec ≤ q := by
  have hb0 := hx.nonneg
  have hc0 := hs.1.nonneg
  have hmax : max x.prec op.operand.prec ≤ q := max_le hp hs.2
  have hx' : x.Spans (b + c) := hx.mono (by omega)
  have hs' : op.operand.Spans (b + c) := hs.1.mono (by omega)
  cases op with
  | add s =>
    exact ⟨x + s, Checked.add_eq_ok hx' hs' (by dsimp only [operand] at hmax; omega), (hx'.add hs').mono (by omega),
      by rwa [prec_add]⟩
  | sub s =>
    exact ⟨x - s, Checked.sub_eq_ok hx' hs' (by dsimp only [operand] at hmax; omega), (hx'.sub hs').mono (by omega),
      by rwa [prec_sub]⟩
  | mul s =>
    exact ⟨x * s, Checked.mul_eq_ok hx hs.1 (by omega), (hx.mul hs.1).mono (by omega), by rwa [prec_mul]⟩
  | div s =>
    dsimp only [operand] at hmax
    have hs : s.Spans c := hs.1
    exact ⟨x / s, Checked.div_eq_ok hx hs hop.2 (by omega), (hx.div hs hop.2).mono (by omega), by rwa [prec_div]⟩
  | fatten s => exact ⟨x, rfl, hx.mono (by omega), hp⟩

theorem Operation.follow_eq_ok (hop : op.Admissible) (hs : op.IsWithin c q) (hx : x.Spans b) (hp : x.prec ≤ q)
    (hb : 2 * (b + (c + q + 3)) < 2 ^ 63) : ∃ y, op.follow x = .ok y ∧ y.Spans (b + (c + q + 3)) ∧ y.prec ≤ q := by
  obtain ⟨y, hy, hspans, -⟩ := op.move_eq_ok hop hs hx hp hb
  have := hx.nonneg
  have := hs.1.nonneg
  refine ⟨y.withPrec (max x.prec op.operand.prec), ?_, (hspans.withPrec _).mono (by omega),
    (prec_withPrec _ _).trans_le (max_le hp hs.2)⟩
  rw [follow, hy, Checked.ok_bind, Checked.withPrec_eq_ok hspans (by omega)]

theorem Operation.act_eq_ok (hop : op.Admissible) (hs : op.IsWithin c q) (hi : i.IsWithin b q)
    (hb : 2 * (b + (c + q + 3)) < 2 ^ 63) : ∃ k, op.act i = .ok k ∧ k.IsWithin (b + (c + q + 3)) q := by
  have hends {o u : Operation} (ho : o.Admissible) (hs : o.IsWithin c q) (hu : u.Admissible) (hs' : u.IsWithin c q) :
      ∃ lo hi, o.move i.lo = .ok lo ∧ u.move i.hi = .ok hi ∧ Interval.IsWithin ⟨lo, hi⟩ (b + (c + q + 2)) q := by
    obtain ⟨lo, hlo, hspans, hprec⟩ := o.move_eq_ok ho hs hi.1.1 hi.1.2 hb
    obtain ⟨hi, hhi, hspans', hprec'⟩ := u.move_eq_ok hu hs' hi.2.1 hi.2.2 hb
    exact ⟨lo, hi, hlo, hhi, ⟨hspans, hprec⟩, hspans', hprec'⟩
  have hwider {k : Interval} (hk : k.IsWithin (b + (c + q + 2)) q) : k.IsWithin (b + (c + q + 3)) q :=
    ⟨⟨hk.1.1.mono (by omega), hk.1.2⟩, hk.2.1.mono (by omega), hk.2.2⟩
  have hsorted {lo hi : BinFloat} (hk : Interval.IsWithin ⟨lo, hi⟩ (b + (c + q + 2)) q) :
      ∃ k, Checked.Interval.spanning lo hi = .ok k ∧ k.IsWithin (b + (c + q + 3)) q := by
    obtain ⟨hlo, hhi⟩ := spanning_ends lo hi (P := fun y => y.Spans (b + (c + q + 2)) ∧ y.prec ≤ q) hk.1 hk.2
    refine ⟨spanning lo hi, (agrees_spanning lo hi).eq_ok ?_, hwider ⟨hlo, hhi⟩⟩
    unfold Checked.Interval.spanning
    rw [Checked.cmp_eq_ok hk.1.1 hk.2.1 (by omega)]
    exact ⟨_, rfl⟩
  cases op with
  | add s =>
    obtain ⟨lo, hi, hlo, hhi, hk⟩ := hends hop hs hop hs
    dsimp only [move] at hlo hhi
    exact ⟨⟨lo, hi⟩, by rw [act, Checked.Interval.add, hlo, hhi]; rfl, hwider hk⟩
  | sub s =>
    obtain ⟨lo, hi, hlo, hhi, hk⟩ := hends hop hs hop hs
    dsimp only [move] at hlo hhi
    exact ⟨⟨lo, hi⟩, by rw [act, Checked.Interval.sub, hlo, hhi]; rfl, hwider hk⟩
  | mul s =>
    obtain ⟨lo, hi, hlo, hhi, hk⟩ := hends hop hs hop hs
    dsimp only [move] at hlo hhi
    rw [act, Checked.Interval.mul, hlo, hhi]
    exact hsorted hk
  | div s =>
    obtain ⟨lo, hi, hlo, hhi, hk⟩ := hends hop hs hop hs
    dsimp only [move] at hlo hhi
    rw [act, Checked.Interval.div, hlo, hhi]
    exact hsorted hk
  | fatten s =>
    obtain ⟨lo, hi, hlo, hhi, hk⟩ := hends (o := .sub s) (u := .add s) hop.1 hs hop.1 hs
    dsimp only [move] at hlo hhi
    exact ⟨⟨lo, hi⟩, by rw [act, Checked.Interval.fatten, hlo, hhi]; rfl, hwider hk⟩

/-- **A chain is not ended** while the range of the ends, widened step by step, has not reached half of that of the
exponents; nor is it for a number that is carried along, by induction along the chain. -/
theorem run_eq_ok {ops : List Operation} (hops : ∀ op ∈ ops, op.Admissible ∧ op.IsWithin c q)
    (hb : 2 * (b + ops.length * (c + q + 3)) < 2 ^ 63) :
    (i.IsWithin b q → ∃ j, run ops i = .ok j ∧ j.IsWithin (b + ops.length * (c + q + 3)) q) ∧
      (x.Spans b → x.prec ≤ q → ∃ y, follow ops x = .ok y) := by
  induction ops generalizing i x b with
  | nil => exact ⟨fun hi => ⟨i, rfl, by simpa using hi⟩, fun _ _ => ⟨x, rfl⟩⟩
  | cons op ops ih =>
    obtain ⟨hop, hs⟩ := hops op List.mem_cons_self
    have hc := hs.1.nonneg
    have hrest : (0 : ℤ) ≤ ops.length * (c + q + 3) := by positivity
    have hsplit : b + (op :: ops).length * (c + q + 3) = b + (c + q + 3) + ops.length * (c + q + 3) := by
      rw [List.length_cons]
      push_cast
      ring
    rw [hsplit] at hb ⊢
    have htail : ∀ o ∈ ops, o.Admissible ∧ o.IsWithin c q := fun o ho => hops o (List.mem_cons_of_mem op ho)
    refine ⟨fun hi => ?_, fun hx hp => ?_⟩
    · obtain ⟨k, hk, hwithin⟩ := op.act_eq_ok hop hs hi (by omega)
      obtain ⟨j, hj, hend⟩ := (ih (i := k) (x := x) htail hb).1 hwithin
      exact ⟨j, by rw [run, List.foldlM_cons, hk]; exact hj, hend⟩
    · obtain ⟨y, hy, hspans, hprec⟩ := op.follow_eq_ok hop hs hx hp (by omega)
      obtain ⟨z, hz⟩ := (ih (i := i) (x := y) htail hb).2 hspans hprec
      exact ⟨z, by rw [follow, List.foldlM_cons, hy]; exact hz⟩

end

end Interval

/-! ## Rectangles -/

namespace Rectangle

def IsOrdered (r : Rectangle) : Prop := r.x.IsOrdered ∧ r.y.IsOrdered

def Member (r : Rectangle) (v : Vec2) : Prop := r.x.Member v.x ∧ r.y.Member v.y

def Between (r : Rectangle) (v : Vec2) : Prop := (r.x.lo ≤ v.x ∧ v.x ≤ r.x.hi) ∧ r.y.lo ≤ v.y ∧ v.y ≤ r.y.hi

def IsWithin (r : Rectangle) (b : Int) (q : ℕ) : Prop := r.x.IsWithin b q ∧ r.y.IsWithin b q

inductive Operation
  | rescale (s : BinFloat)
  | shift (v : Vec2)
  | fatten (s : BinFloat)

namespace Operation

def act : Operation → Rectangle → Except Fault Rectangle
  | rescale s, r => Checked.Rectangle.rescale r s
  | shift v, r => Checked.Rectangle.shift r v
  | fatten s, r => Checked.Rectangle.fatten r s

def axes : Operation → Interval.Operation × Interval.Operation
  | rescale s => (.mul s, .mul s)
  | shift v => (.add v.x, .add v.y)
  | fatten s => (.fatten s, .fatten s)

def move (op : Operation) (v : Vec2) : Except Fault Vec2 := return ⟨← op.axes.1.move v.x, ← op.axes.2.move v.y⟩

def follow (op : Operation) (v : Vec2) : Except Fault Vec2 := return ⟨← op.axes.1.follow v.x, ← op.axes.2.follow v.y⟩

def Admissible (op : Operation) : Prop := op.axes.1.Admissible ∧ op.axes.2.Admissible

def IsWithin (op : Operation) (c : Int) (q : ℕ) : Prop := op.axes.1.IsWithin c q ∧ op.axes.2.IsWithin c q

theorem act_axes (op : Operation) (r : Rectangle) :
    op.act r = (do return ⟨← op.axes.1.act r.x, ← op.axes.2.act r.y⟩) := by
  cases op <;> rfl

end Operation

def run (ops : List Operation) (r : Rectangle) : Except Fault Rectangle := ops.foldlM (fun t op => op.act t) r

def follow (ops : List Operation) (v : Vec2) : Except Fault Vec2 := ops.foldlM (fun w op => op.follow w) v

section

variable {r : Rectangle} {op : Operation} {b c : Int} {q : ℕ}

/-- **One step**, along each axis by itself. -/
theorem Operation.act_ordered (h : r.IsOrdered) (hop : op.Admissible) :
    ∃ t, Agrees (op.act r) t ∧ t.IsOrdered ∧ (∀ v, r.Member v → ∃ w, Agrees (op.move v) w ∧ t.Between w) ∧
      ∀ v, r.Member v → ∃ w, Agrees (op.follow v) w ∧ t.Member w := by
  obtain ⟨i, hi, hx, hmoveX, hfollowX⟩ := op.axes.1.act_ordered h.1 hop.1
  obtain ⟨j, hj, hy, hmoveY, hfollowY⟩ := op.axes.2.act_ordered h.2 hop.2
  refine ⟨⟨i, j⟩, ?_, ⟨hx, hy⟩, fun v hv => ?_, fun v hv => ?_⟩
  · rw [op.act_axes]
    exact hi.bind (hj.bind (.ok _))
  · obtain ⟨x, hvx, hbetween⟩ := hmoveX _ hv.1
    obtain ⟨y, hvy, hbetween'⟩ := hmoveY _ hv.2
    exact ⟨⟨x, y⟩, hvx.bind (hvy.bind (.ok _)), hbetween, hbetween'⟩
  · obtain ⟨x, hvx, hmember⟩ := hfollowX _ hv.1
    obtain ⟨y, hvy, hmember'⟩ := hfollowY _ hv.2
    exact ⟨⟨x, y⟩, hvx.bind (hvy.bind (.ok _)), hmember, hmember'⟩

theorem run_ordered {ops : List Operation} (h : r.IsOrdered) (hops : ∀ op ∈ ops, op.Admissible) :
    ∃ t, Agrees (run ops r) t ∧ t.IsOrdered ∧ ∀ v, r.Member v → ∃ w, Agrees (follow ops v) w ∧ t.Member w := by
  induction ops generalizing r with
  | nil => exact ⟨r, .ok r, h, fun v hv => ⟨v, .ok v, hv⟩⟩
  | cons op ops ih =>
    obtain ⟨k, hk, hordered, -, hfollow⟩ := op.act_ordered h (hops op List.mem_cons_self)
    obtain ⟨t, ht, hend, hmembers⟩ := ih hordered fun o ho => hops o (List.mem_cons_of_mem op ho)
    refine ⟨t, ?_, hend, fun v hv => ?_⟩
    · rw [run, List.foldlM_cons]
      exact hk.bind ht
    · obtain ⟨w, hw, hkw⟩ := hfollow v hv
      obtain ⟨u, hu, htu⟩ := hmembers w hkw
      refine ⟨u, ?_, htu⟩
      rw [follow, List.foldlM_cons]
      exact hw.bind hu

/-- A chain is not ended that is not ended along an axis. -/
theorem run_eq_ok {ops : List Operation} (hops : ∀ op ∈ ops, op.Admissible ∧ op.IsWithin c q) (hr : r.IsWithin b q)
    (hb : 2 * (b + ops.length * (c + q + 3)) < 2 ^ 63) : ∃ t, run ops r = .ok t := by
  induction ops generalizing r b with
  | nil => exact ⟨r, rfl⟩
  | cons op ops ih =>
    obtain ⟨hop, hs⟩ := hops op List.mem_cons_self
    have hc := hs.1.1.nonneg
    have hrest : (0 : ℤ) ≤ ops.length * (c + q + 3) := by positivity
    have hsplit : b + (op :: ops).length * (c + q + 3) = b + (c + q + 3) + ops.length * (c + q + 3) := by
      rw [List.length_cons]
      push_cast
      ring
    rw [hsplit] at hb
    obtain ⟨i, hi, hx⟩ := op.axes.1.act_eq_ok hop.1 hs.1 hr.1 (by omega)
    obtain ⟨j, hj, hy⟩ := op.axes.2.act_eq_ok hop.2 hs.2 hr.2 (by omega)
    obtain ⟨t, ht⟩ := ih (fun o ho => hops o (List.mem_cons_of_mem op ho)) (r := ⟨i, j⟩) ⟨hx, hy⟩ hb
    refine ⟨t, ?_⟩
    rw [run, List.foldlM_cons, op.act_axes, hi, hj]
    exact ht

end

end Rectangle

/-- **Intervals stay ordered, and operations on them go along with those on their members**, unless an exponent does not
fit. After any chain of sums, differences, products, quotients and widenings, with operands of any precision, the ends
are in order and have one precision, and numbers that are carried along the chain are in the interval. After any such
chain, one more operation moves every number of the precision of the interval between the new ends. The same holds of
rectangles that are scaled, moved and widened. No chain is ended for which the bits of the ends and of the operands,
added up along the chain with the precision, stay in the inner half of the range. -/
theorem chains_keep_order_and_members :
    (∀ (i : Interval) (ops : List Interval.Operation), i.IsOrdered → (∀ op ∈ ops, op.Admissible) →
      (∃ j, Agrees (Interval.run ops i) j ∧ j.IsOrdered ∧
        (∀ x, i.Member x → ∃ y, Agrees (Interval.follow ops x) y ∧ j.Member y) ∧
        ∀ op : Interval.Operation, op.Admissible → ∃ k, Agrees (op.act j) k ∧ k.IsOrdered ∧
          ∀ x, j.Member x → ∃ y, Agrees (op.move x) y ∧ k.lo ≤ y ∧ y ≤ k.hi) ∧
      ∀ b c q, i.IsWithin b q → (∀ op ∈ ops, op.IsWithin c q) → 2 * (b + ops.length * (c + q + 3)) < 2 ^ 63 →
        (∃ j, Interval.run ops i = .ok j) ∧
          ∀ x : BinFloat, x.Spans b → x.prec ≤ q → ∃ y, Interval.follow ops x = .ok y) ∧
    ∀ (r : Rectangle) (ops : List Rectangle.Operation), r.IsOrdered → (∀ op ∈ ops, op.Admissible) →
      (∃ t, Agrees (Rectangle.run ops r) t ∧ t.IsOrdered ∧
        (∀ v, r.Member v → ∃ w, Agrees (Rectangle.follow ops v) w ∧ t.Member w) ∧
        ∀ op : Rectangle.Operation, op.Admissible → ∃ u, Agrees (op.act t) u ∧ u.IsOrdered ∧
          ∀ v, t.Member v → ∃ w, Agrees (op.move v) w ∧ u.Between w) ∧
      ∀ b c q, r.IsWithin b q → (∀ op ∈ ops, op.IsWithin c q) → 2 * (b + ops.length * (c + q + 3)) < 2 ^ 63 →
        ∃ t, Rectangle.run ops r = .ok t := by
  refine ⟨fun i ops h hops => ⟨?_, fun b c q hi hs hb => ?_⟩,
    fun r ops h hops => ⟨?_, fun b c q hr hs hb => Rectangle.run_eq_ok (fun op ho => ⟨hops op ho, hs op ho⟩) hr hb⟩⟩
  · obtain ⟨j, hj, hordered, hmembers⟩ := Interval.run_ordered h hops
    refine ⟨j, hj, hordered, hmembers, fun op hop => ?_⟩
    obtain ⟨k, hk, hordered', hmoves, -⟩ := op.act_ordered hordered hop
    exact ⟨k, hk, hordered', hmoves⟩
  · have hall : ∀ op ∈ ops, op.Admissible ∧ op.IsWithin c q := fun op ho => ⟨hops op ho, hs op ho⟩
    obtain ⟨j, hj, -⟩ := (Interval.run_eq_ok (i := i) (x := i.lo) hall hb).1 hi
    exact ⟨⟨j, hj⟩, fun x => (Interval.run_eq_ok (i := i) hall hb).2⟩
  · obtain ⟨t, ht, hordered, hmembers⟩ := Rectangle.run_ordered h hops
    refine ⟨t, ht, hordered, hmembers, fun op hop => ?_⟩
    obtain ⟨u, hu, hordered', hmoves, -⟩ := op.act_ordered hordered hop
    exact ⟨u, hu, hordered', hmoves⟩

/-- From `[-3, 5]` at three bits, over minus three at five bits and widened by a one without any bits, times minus one
and a half; and the square of that interval, scaled by minus three and moved. -/
theorem chains_keep_order_and_members_turned :
    Interval.IsOrdered ⟨⟨-3, 0, 3⟩, ⟨5, 0, 3⟩⟩ ∧
      (∃ j, Interval.run [.div ⟨-3, 0, 5⟩, .fatten (one 0)] ⟨⟨-3, 0, 3⟩, ⟨5, 0, 3⟩⟩ = .ok j ∧ j.IsOrdered ∧
        ∃ k, Agrees (Interval.Operation.act (.mul ⟨-3, -1, 2⟩) j) k ∧ k.IsOrdered) ∧
      ∃ t, Rectangle.run [.rescale ⟨-3, 0, 5⟩, .shift ⟨one 0, ⟨-3, 0, 5⟩⟩]
        ⟨⟨⟨-3, 0, 3⟩, ⟨5, 0, 3⟩⟩, ⟨⟨-3, 0, 3⟩, ⟨5, 0, 3⟩⟩⟩ = .ok t ∧ t.IsOrdered := by
  have h : Interval.IsOrdered ⟨⟨-3, 0, 3⟩, ⟨5, 0, 3⟩⟩ := ⟨by decide, rfl, by decide, by decide, by decide⟩
  have hthree : (⟨-3, 0, 5⟩ : BinFloat).FitsPrecision ∧ (⟨-3, 0, 5⟩ : BinFloat).Spans 3 :=
    ⟨by decide, by decide, by decide⟩
  have hwithin : Interval.IsWithin ⟨⟨-3, 0, 3⟩, ⟨5, 0, 3⟩⟩ 3 5 :=
    ⟨⟨⟨by decide, by decide⟩, by decide⟩, ⟨by decide, by decide⟩, by decide⟩
  have hone : (one 0).Spans 3 := spans_one 0 (by decide)
  obtain ⟨hintervals, hrectangles⟩ := chains_keep_order_and_members
  obtain ⟨⟨j, hj, hordered, -, hnext⟩, hgiven⟩ := hintervals _ [.div ⟨-3, 0, 5⟩, .fatten (one 0)] h (by
    simp only [List.forall_mem_cons, List.not_mem_nil, false_implies, implies_true, and_true]
    exact ⟨⟨hthree.1, by norm_num [value]⟩, fits_one 0, by norm_num [value_one]⟩)
  have hrun := (hgiven 3 3 5 hwithin (by
    simp only [List.forall_mem_cons, List.not_mem_nil, false_implies, implies_true, and_true]
    exact ⟨⟨hthree.2, by decide⟩, hone, by decide⟩) (by decide)).1
  obtain ⟨k, hk, hordered', -⟩ := hnext (.mul ⟨-3, -1, 2⟩) (by decide : |(-3 : ℤ)| ≤ 2 ^ 2)
  obtain ⟨⟨t, ht, hsides, -⟩, hgiven'⟩ := hrectangles ⟨⟨⟨-3, 0, 3⟩, ⟨5, 0, 3⟩⟩, ⟨⟨-3, 0, 3⟩, ⟨5, 0, 3⟩⟩⟩
    [.rescale ⟨-3, 0, 5⟩, .shift ⟨one 0, ⟨-3, 0, 5⟩⟩] ⟨h, h⟩ (by
    simp only [List.forall_mem_cons, List.not_mem_nil, false_implies, implies_true, and_true]
    exact ⟨⟨hthree.1, hthree.1⟩, fits_one 0, hthree.1⟩)
  have hrun' := hgiven' 3 3 5 ⟨hwithin, hwithin⟩ (by
    simp only [List.forall_mem_cons, List.not_mem_nil, false_implies, implies_true, and_true]
    exact ⟨⟨⟨hthree.2, by decide⟩, hthree.2, by decide⟩, ⟨hone, by decide⟩, hthree.2, by decide⟩) (by decide)
  exact ⟨h, ⟨j, hj.eq_ok hrun, hordered, k, hk, hordered'⟩, t, ht.eq_ok hrun', hsides⟩

/-- **A chain can be ended** by the difference of equal numbers, whose leading bit is at the end of the range; **and a
member can be lost** where the ends have no room for a bit: widening by zero rounds them, from one to two. -/
theorem chain_ends_early_or_loses_member :
    (Interval.IsOrdered ⟨twoPow (2 ^ 63 - 2) 148, twoPow (2 ^ 63 - 2) 148⟩ ∧ Checked.InInt64 (2 ^ 63 - 2) ∧
      Interval.run [.sub (twoPow (2 ^ 63 - 2) 148)] ⟨twoPow (2 ^ 63 - 2) 148, twoPow (2 ^ 63 - 2) 148⟩
        = .error .overflow) ∧
    Interval.Member ⟨one 0, one 0⟩ (one 0) ∧
      Interval.run [.fatten (zero 0)] ⟨one 0, one 0⟩ = .ok ⟨twoPow 1 0, twoPow 1 0⟩ ∧ ¬ twoPow 1 0 ≤ one 0 :=
  ⟨⟨⟨by decide, rfl, by decide, fits_twoPow _ _, fits_twoPow _ _⟩, by decide, rfl⟩,
    ⟨rfl, fits_one 0, by decide, by decide⟩, rfl, by decide⟩

end CliffordT
