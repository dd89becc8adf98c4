/-!
Powers modulo a number, and powers that divide a number.
-/

namespace CliffordT

def powMod (b e n : Nat) : Nat :=
  if e = 0 then 1 % n
  else
    let h := powMod (b * b % n) (e / 2) n
    if e % 2 = 1 then b * h % n else h
termination_by e
decreasing_by omega

/-- Repeated squaring gives the power. -/
theorem powMod_eq (b e n : Nat) : powMod b e n = Nat.pow b e % n := by
  rw [Nat.pow_eq]
  induction e using Nat.strongRecOn generalizing b with
  | ind e ih =>
    unfold powMod
    by_cases he : e = 0
    · simp [he]
    · have hb : powMod (b * b % n) (e / 2) n = b ^ (2 * (e / 2)) % n := by
        rw [ih (e / 2) (by omega), ← Nat.pow_mod, ← Nat.pow_two, ← Nat.pow_mul]
      simp only [if_neg he, hb]
      split
      · rw [Nat.mul_mod_mod, ← Nat.pow_succ']
        congr 2
        omega
      · congr 2
        omega

/-- How often `q` divides `m`, and what is left of `m` after that. -/
def removeFactor (q m : Nat) : Nat × Nat :=
  if _h : 1 < q ∧ 0 < m ∧ m % q = 0 then
    let (e, rest) := removeFactor q (m / q)
    (e + 1, rest)
  else (0, m)
termination_by m
decreasing_by exact Nat.div_lt_self _h.2.1 _h.1

/-- The power that is removed and what is left make up the number. -/
theorem pow_mul_removeFactor (q m : Nat) :
    Nat.pow q (removeFactor q m).1 * (removeFactor q m).2 = m := by
  fun_induction removeFactor q m with
  | case1 m h e rest heq ih =>
    rw [heq] at ih
    simp only [Nat.pow_eq] at ih ⊢
    rw [Nat.pow_succ, Nat.mul_right_comm, ih]
    exact Nat.div_mul_cancel (Nat.dvd_of_mod_eq_zero h.2.2)
  | case2 m h => simp

end CliffordT
