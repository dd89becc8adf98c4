/-
Which angles a session answers.

The outcome for an angle is what the search finds, with a word for it. What is found is in normal form, since it was
checked when it was made, and over the generated table the synthesis of such a unitary cannot fail: a session over that
table answers every angle for which the search finds something.
-/
import CliffordT.Proofs.Approximation.Found
import CliffordT.Proofs.Session.Calls
import CliffordT.Proofs.Unitary.Matrix
import CliffordT.Proofs.Unitary.Synthesis

namespace CliffordT

open BinFloat

namespace Approximation

/-! ## What a search finds is in normal form -/

theorem isNormal_of_ofColumn {u t : ZOmega} {k : Int} {theta : BinFloat} {c : Constants}
    {a : Approximation} (h : ofColumn u t k theta c = .ok a) : a.unitary.IsNormal :=
  Unitary.isNormal_of_mk? (mk?_of_ofColumn h)

theorem tryPoint_gives_normal (target : Target) (point : ZOmega) (k : Nat) (scale : BinFloat)
    (ctx : Context) : (target.tryPoint point k scale ctx).Gives fun r =>
      ∀ a, r = some a → a.unitary.IsNormal := by
  have hnone : ∀ a : Approximation, (none : Option Approximation) = some a → a.unitary.IsNormal := by
    intro a h
    cases h
  unfold Target.tryPoint
  dsimp only
  split
  · exact .pure hnone
  · split
    · exact .pure hnone
    · refine (Search.Gives.trivial _).bind fun t? _ => ?_
      cases t? with
      | none => exact .pure hnone
      | some t =>
        refine (Search.Gives.lift fun a ha => isNormal_of_ofColumn ha).bind fun a ha => .pure ?_
        intro b hb
        cases hb
        exact ha

theorem find_gives_normal (theta : BinFloat) (ctx : Context) :
    (find theta ctx).Gives fun r => ∀ a, r = some a → a.unitary.IsNormal := by
  unfold find
  refine (Search.Gives.trivial _).bind fun p _ => (Search.Gives.trivial _).bind fun a _ =>
    (Search.Gives.trivial _).bind fun b _ => ?_
  exact searchLevels_gives fun k _ _ => (Search.Gives.trivial _).bind fun l _ =>
    .findSomeM fun point => tryPoint_gives_normal p.1 point k _ ctx

end Approximation

namespace Session

/-! ## One search -/

/-- The approximation is what is found for an angle, with the generator of the angle's key. -/
def Finds (s : Session) (angle : BinFloat) (a : Approximation) : Prop :=
  ∃ state, (Approximation.find (angle / s.ctx.int (-2)) s.ctx).run
    ⟨KeyHash.generator s.seed (s.keyOf angle), #[]⟩ = (.ok (some a), state)

/-- A session can be opened over the generated table. -/
theorem exists_start (o : Options) (ctx : Context) (seed : UInt64) :
    ∃ s, start o ctx GateTable.generate seed = .ok s := by
  unfold start
  rw [if_neg (by rw [GateTable.isEmpty_generate]; decide)]
  exact ⟨_, rfl⟩

section Outcome

variable {s : Session} {angle : BinFloat} {f : Found}

/-- A search that succeeds has found an approximation and synthesised it. -/
theorem outcome_eq_ok (h : s.outcome angle (s.keyOf angle) = .ok f) :
    s.Finds angle f.approximation ∧ f.approximation.unitary.synthesize s.table = .ok f.word := by
  obtain ⟨r, state, hfind, hrest⟩ := Search.exists_run_of_run_bind (Prod.ext h rfl)
  cases r with
  | none => cases hrest
  | some a =>
    obtain ⟨w, state', hword, hdone⟩ := Search.exists_run_of_run_bind hrest
    cases hsynth : a.unitary.synthesize s.table with
    | error e =>
      rw [hsynth] at hword
      cases hword
    | ok w' =>
      rw [hsynth] at hword
      cases hword
      cases hdone
      exact ⟨⟨_, hfind⟩, hsynth⟩

/-- **Over the generated table what is found is the outcome**, with a word for it. -/
theorem Finds.exists_outcome {a : Approximation} (h : s.Finds angle a) (htable : s.table = GateTable.generate) :
    ∃ w, s.outcome angle (s.keyOf angle) = .ok ⟨w, a⟩ := by
  obtain ⟨state, hfind⟩ := h
  have hnormal := Approximation.find_gives_normal _ _ _ _ _ hfind _ rfl
  obtain ⟨w, hw, -⟩ := NormalUnitary.synthesizeFrom_spec (m := ⟨a.unitary, hnormal⟩) (h := 1)
    (show Word.value? [] = .ok 1 from rfl)
  refine ⟨w, ?_⟩
  unfold outcome searchWord
  dsimp only
  rw [Search.run_bind_of_ok hfind]
  dsimp only
  rw [Unitary.synthesize, htable, hw]
  rfl

end Outcome

/-! ## An angle near zero -/

/-- At one digit something is found for the angle `1/8`, which has no closed form then. -/
theorem exists_finds_eighth {s : Session} (hctx : Context.ofOptions (Options.withPrecision 1) = .ok s.ctx)
    (hexp : GridPoints.Scales (GridPoints.scaleExponent · s.ctx.toConstants) (1 / 10 ^ s.ctx.digits)
      (2 ^ (5 * s.ctx.digits + 34))) :
    s.closed? (twoPow (-3) 148) = none ∧ ∃ a, s.Finds (twoPow (-3) 148) a := by
  have hdigits : s.ctx.toConstants = Constants.ofDigits 1 := (Context.eq_ofDigits hctx).2
  have hmin : s.ctx.kmin = 0 := by
    have hsame := Except.ok.inj (hctx.symm.trans (Eq.refl (Context.ofOptions (Options.withPrecision 1))))
    rw [hsame]
    rfl
  have htheta : twoPow (-3) 148 / s.ctx.int (-2) = ⟨-2 ^ 147, -151, 148⟩ := by
    rw [hdigits]
    rfl
  have hvalue : (⟨-2 ^ 147, -151, 148⟩ : BinFloat).value = -1 / 16 := by norm_num [value]
  have hcos : 1 - s.ctx.eps.value ^ 2 / 2 < Real.cos (⟨-2 ^ 147, -151, 148⟩ : BinFloat).value := by
    have hcos := Real.one_sub_sq_div_two_le_cos (x := -1 / 16)
    have heps := Approximation.le_eps 1
    rw [hvalue, hdigits]
    nlinarith
  refine ⟨?_, ?_⟩
  · unfold closed?
    rw [hdigits]
    decide +kernel
  · have hprec : s.ctx.prec = 148 := congrArg Constants.prec hdigits
    obtain ⟨r, state, hrun, hsome⟩ := Approximation.find_isSome_of_admitsOne hctx hprec.le (by decide) hmin hcos
      (by rw [hdigits]; decide +kernel) hexp ⟨KeyHash.generator s.seed (s.keyOf (twoPow (-3) 148)), #[]⟩
    obtain ⟨a, rfl⟩ := Option.isSome_iff_exists.1 hsome
    exact ⟨a, state, by rw [htheta]; exact hrun⟩

end Session

end CliffordT
