/-
Gate words as elements of the group of unitaries.

`value?` is the product of the gates of a word in the group, and reading a word from the left is the
same thing. Words that are put together have the product of their values, and a word keeps its
value under simplification, since `H H = 1` and `T T = S`.
-/
import CliffordT.Proofs.Unitary.Group
import CliffordT.Unitary.Word

namespace CliffordT

open CliffordT.Unitary

namespace NormalUnitary

/-! ## Normal forms of tuples -/

theorem ofRaw_coe (m : NormalUnitary) : ofRaw m.1 m.hasUnitLength = m :=
  coe_injective m.2.reduce_eq

theorem ofRaw_mul_ofRaw {m n : Unitary} (hm : m.HasUnitLength) (hn : n.HasUnitLength) :
    ofRaw m hm * ofRaw n hn = ofRaw (rawMul m n) (hm.rawMul hn) := by
  refine coe_injective ?_
  show reduce (rawMul (reduce m) (reduce n)) = reduce (rawMul m n)
  rw [reduce_rawMul_reduce_left hm hn.reduce, reduce_rawMul_reduce_right hm hn]

theorem ofRaw_eq_of_scales {j : Nat} {m n : Unitary} (hm : m.HasUnitLength)
    (hn : n.HasUnitLength) (h : Scales j m n) : ofRaw m hm = ofRaw n hn :=
  coe_injective (reduce_eq_of_scales h hn.ne_zero)

theorem ofRaw_congr {m n : Unitary} (hm : m.HasUnitLength) (h : m = n) :
    ofRaw m hm = ofRaw n (h ▸ hm) := by
  subst h
  rfl

/-! ## Diagonal unitaries -/

theorem hasUnitLength_diagonal (i l : Fin 8) :
    (⟨ZOmega.omegaPow (i.val : Int), 0, 0, l⟩ : Unitary).HasUnitLength := by
  refine ⟨Int.le_refl 0, ?_⟩
  show (ZOmega.omegaPow (i.val : Int)).norm + ZOmega.norm 0 = (2 : ZSqrt2) ^ 0
  rw [ZOmega.norm_omegaPow, pow_zero]
  rfl

/-- The diagonal unitary with the entries `ωⁱ` and `ωˡ⁻ⁱ`. -/
def diagonal (i l : Fin 8) : NormalUnitary :=
  ofRaw ⟨ZOmega.omegaPow (i.val : Int), 0, 0, l⟩ (hasUnitLength_diagonal i l)

theorem diagonal_zero : diagonal 0 0 = 1 := rfl

theorem diagonal_mul_diagonal (i l i' l' : Fin 8) :
    diagonal i l * diagonal i' l' = diagonal (i + i') (l + l') := by
  refine (ofRaw_mul_ofRaw _ _).trans (ofRaw_congr _ ?_)
  ext1
  · show ZOmega.omegaPow (i.val : Int) * ZOmega.omegaPow (i'.val : Int)
      - ZOmega.conj 0 * (0 * _) = _
    rw [zero_mul, mul_zero, sub_zero, ZOmega.omegaPow_val_add]
  · show 0 * _ + _ * (0 * _) = (0 : ZOmega)
    rw [zero_mul, zero_mul, mul_zero, add_zero]
  · rfl
  · rfl

def tGate : NormalUnitary := diagonal 0 1

def sGate : NormalUnitary := diagonal 0 2

def phase (i : Fin 8) : NormalUnitary := diagonal i (2 * i)

def hadamard : NormalUnitary := ofRaw ⟨1, 1, 1, 4⟩ (isUnitary_iff.1 (by decide))

theorem tGate_mul_tGate : tGate * tGate = sGate := diagonal_mul_diagonal 0 1 0 1

theorem tGate_pow (n : Nat) : tGate ^ n = diagonal 0 (Fin.ofNat 8 n) := by
  induction n with
  | zero => exact diagonal_zero.symm
  | succ n ih =>
    rw [pow_succ, ih, tGate, diagonal_mul_diagonal]
    congr 1
    refine Fin.ext ?_
    simp only [Fin.val_add, Fin.ofNat]
    omega

theorem phase_mul_phase (i j : Fin 8) : phase i * phase j = phase (i + j) := by
  rw [phase, phase, diagonal_mul_diagonal, phase]
  congr 1
  refine Fin.ext ?_
  simp only [Fin.val_add, Fin.val_mul]
  omega

theorem phase_pow (n : Nat) : phase 1 ^ n = phase (Fin.ofNat 8 n) := by
  induction n with
  | zero => rfl
  | succ n ih =>
    rw [pow_succ, ih, phase_mul_phase]
    congr 1
    refine Fin.ext ?_
    simp only [Fin.val_add, Fin.ofNat]
    omega

theorem hadamard_mul_hadamard : hadamard * hadamard = 1 := by
  refine (ofRaw_mul_ofRaw _ _).trans ?_
  refine ofRaw_eq_of_scales (j := 2) _ (isUnitary_iff.1 (by decide)) ?_
  refine ⟨?_, ?_, rfl, rfl⟩
  · rw [pow_two]
    rfl
  · rw [pow_two]
    rfl

theorem hadamard_inv : hadamard⁻¹ = hadamard := inv_eq_of_mul_eq_one_left hadamard_mul_hadamard

/-- A global phase as it is multiplied. -/
theorem coe_mul_phase (m : NormalUnitary) (n : Nat) :
    (m.1.mulPhase n) = ((m * phase (Fin.ofNat 8 n) : NormalUnitary) : Unitary) := by
  have hl : Fin.ofNat 8 (2 * (n % 8)) = 2 * Fin.ofNat 8 n := by
    refine Fin.ext ?_
    simp only [Fin.val_mul, Fin.ofNat]
    omega
  show m.1 * reduce ⟨ZOmega.omegaPow ((n % 8 : Nat) : Int), 0, 0, Fin.ofNat 8 (2 * (n % 8))⟩ = _
  rw [hl]
  rfl

end NormalUnitary

/-! ## Values of words -/

open scoped NormalUnitary

def Gate.value : Gate → NormalUnitary
  | h => NormalUnitary.hadamard
  | t => NormalUnitary.tGate
  | s => NormalUnitary.sGate
  | w => NormalUnitary.phase 1
  | i => 1

theorem Gate.applyRight_eq (m : NormalUnitary) (g : Gate) :
    g.applyRight (m : Unitary) = ((m * g.value : NormalUnitary) : Unitary) := by
  cases g with
  | h => rfl
  | t => rfl
  | s => rfl
  | w => exact NormalUnitary.coe_mul_phase m 1
  | i =>
    show m.1 = _
    rw [Gate.value, mul_one]

namespace Word

/-- The product of the gates of a word, or the first letter that is no gate. -/
def value? : Word → Except Char NormalUnitary
  | [] => .ok 1
  | c :: rest =>
    match Gate.ofLetter? c with
    | some g => (value? rest).map (g.value * ·)
    | none => .error c

theorem value?_cons {c : Char} {g : Gate} (hc : Gate.ofLetter? c = some g) (w : Word) :
    value? (c :: w) = (value? w).map (g.value * ·) := by
  rw [value?, hc]

theorem map_map {α β γ : Type} (f : α → β) (g : β → γ) (x : Except Char α) :
    (x.map f).map g = x.map (g ∘ f) := by
  cases x <;> rfl

/-- Reading a word from the left multiplies by its value. -/
theorem applyWord_eq (m : NormalUnitary) (w : Word) :
    applyWord (m : Unitary) w
      = (value? w).map fun g => ((m * g : NormalUnitary) : Unitary) := by
  induction w generalizing m with
  | nil =>
    show Except.ok m.1 = .ok (m * 1 : NormalUnitary).1
    rw [mul_one]
  | cons c w ih =>
    rw [applyWord, value?]
    cases Gate.ofLetter? c with
    | none => rfl
    | some g =>
      simp only
      rw [Gate.applyRight_eq, ih, map_map]
      congr 1
      funext h
      rw [Function.comp_apply, mul_assoc]

/-- The unitary of a word is its value. -/
theorem ofWord_eq_ok_iff {w : Word} {m : Unitary} :
    ofWord w = .ok m ↔ ∃ g : NormalUnitary, value? w = .ok g ∧ m = g := by
  have happly := applyWord_eq 1 w
  rw [NormalUnitary.coe_one] at happly
  rw [ofWord, happly]
  cases value? w with
  | error c => simp [Except.map]
  | ok g =>
    simp only [Except.map, one_mul]
    constructor
    · intro h
      cases h
      exact ⟨g, rfl, rfl⟩
    · rintro ⟨g', hg, rfl⟩
      cases hg
      rfl

/-- Words put together have the product of their values. -/
theorem value?_append {w v : Word} {g h : NormalUnitary} (hw : value? w = .ok g)
    (hv : value? v = .ok h) : value? (w ++ v) = .ok (g * h) := by
  induction w generalizing g with
  | nil =>
    cases hw
    rw [List.nil_append, hv, one_mul]
  | cons c w ih =>
    rw [List.cons_append, value?]
    rw [value?] at hw
    cases hc : Gate.ofLetter? c with
    | none =>
      rw [hc] at hw
      cases hw
    | some a =>
      rw [hc] at hw
      cases hrest : value? w with
      | error e =>
        rw [hrest] at hw
        cases hw
      | ok b =>
        rw [hrest] at hw
        cases hw
        simp only [ih hrest, Except.map, mul_assoc]

theorem value?_replicate {c : Char} {a : Gate} (hc : Gate.ofLetter? c = some a) (n : Nat) :
    value? (List.replicate n c) = .ok (a.value ^ n) := by
  induction n with
  | zero => rfl
  | succ n ih =>
    rw [List.replicate_succ, value?_cons hc, ih, pow_succ']
    rfl

/-! ## Simplification -/

theorem value?_dropIdentity (w : Word) : value? (dropIdentity w) = value? w := by
  induction w with
  | nil => rfl
  | cons c w ih =>
    unfold dropIdentity at ih ⊢
    by_cases hc : c = 'I'
    · subst hc
      rw [List.filter_cons_of_neg (by decide), ih, value?_cons (g := .i) rfl]
      cases value? w with
      | error e => rfl
      | ok g =>
        show Except.ok g = .ok (1 * g)
        rw [one_mul]
    · rw [List.filter_cons_of_pos (by simpa using hc), value?, value?, ih]

theorem value?_cancelPairs (w : Word) : value? (cancelPairs w) = value? w := by
  fun_induction cancelPairs w with
  | case1 rest ih =>
    rw [ih, value?_cons (g := .h) rfl, value?_cons (g := .h) rfl, map_map]
    cases value? rest with
    | error e => rfl
    | ok g =>
      show Except.ok g = .ok (NormalUnitary.hadamard * (NormalUnitary.hadamard * g))
      rw [← mul_assoc, NormalUnitary.hadamard_mul_hadamard, one_mul]
  | case2 rest ih =>
    rw [value?_cons (g := .s) rfl, ih, value?_cons (g := .t) rfl, value?_cons (g := .t) rfl,
      map_map]
    congr 1
    funext g
    show NormalUnitary.sGate * g = NormalUnitary.tGate * (NormalUnitary.tGate * g)
    rw [← mul_assoc, NormalUnitary.tGate_mul_tGate]
  | case3 c rest _ _ ih => rw [value?, value?, ih]
  | case4 => rfl

theorem value?_simplify (w : Word) : value? (simplify w) = value? w := by
  have horIdentity : ∀ v : Word, value? (orIdentity v) = value? v := by
    intro v
    cases v with
    | nil =>
      show Except.ok ((1 : NormalUnitary) * 1) = .ok 1
      rw [one_mul]
    | cons c v => rfl
  rw [simplify, horIdentity, value?_cancelPairs, value?_dropIdentity]

theorem value?_shrink (w : Word) : value? (shrink w) = value? w := by
  fun_induction shrink w with
  | case1 w _ ih => rw [ih, value?_simplify]
  | case2 w _ => rfl

/-- Simplification keeps the unitary of a word. -/
theorem value?_fullSimplify (w : Word) : value? (fullSimplify w) = value? w := by
  rw [fullSimplify, value?_shrink, value?_simplify]

end Word

end CliffordT
