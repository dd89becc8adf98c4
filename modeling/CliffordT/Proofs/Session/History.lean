/-
What a session answers does not depend on its history.

From one call to the next a session stays faithful to all angles of the run, so that `run_gave` accounts for
all words of a run, and each of them is the answer of the new session for its angle. A call that fails
leaves nothing but messages, which have no influence on the calls after it (`run_withReports`).
-/
import CliffordT.Proofs.Session.Outcome
import CliffordT.Proofs.Session.Served

namespace CliffordT.Session

section Run

variable {s : Session} (qs : List Request)

/-- What a run accounts for: the words of all calls that gave words, each the answer for its angle. -/
theorem run_gave {all : List BinFloat} (hkeys : ∀ a ∈ all, ∀ b ∈ all, s.keyOf a = s.keyOf b → a = b)
    (hsub : ∀ q ∈ qs, q.angles ⊆ all) (hs : Faithful all s) :
    Gave s (s.after qs) ((s.answered qs).flatMap Reply.entries) ∧ Faithful all (s.after qs) ∧
      ∀ r ∈ s.answered qs, List.Forall₂ (fun a w => s.answer a = .ok w) r.request.angles r.words := by
  induction qs generalizing s with
  | nil => exact ⟨.refl s, hs, fun r hr => by cases hr⟩
  | cons q qs ih =>
    have hq := hsub q List.mem_cons_self
    have hserved := served_run (s := s) (q := q) (fun a ha b hb => hkeys a (hq ha) b (hq hb))
      fun p hp a ha => hs p hp a (hq ha)
    have hagrees := hserved.agrees
    have hfaithful := hserved.faithful hq hkeys hs
    obtain ⟨hgave, hlast, hall⟩ := ih (by rwa [hagrees.keyOf_eq])
      (fun q' hq' => hsub q' (List.mem_cons_of_mem _ hq')) hfaithful
    rw [hagrees.answer_eq] at hall
    unfold answered
    show Gave s ((q.reply.run s).2.after qs) _ ∧ Faithful all ((q.reply.run s).2.after qs) ∧ _
    generalize q.reply.run s = run at *
    obtain ⟨r, s'⟩ := run
    cases hserved with
    | failed hmem ha reports => exact ⟨hgave.of_withReports, hlast, hall⟩
    | answered hws hgave' =>
      refine ⟨hgave'.trans hgave, hlast, fun r hr => ?_⟩
      rcases List.mem_cons.1 hr with rfl | hr
      · exact hws
      · exact hall r hr

/-- The messages of a session have no influence on a run, but for the messages. -/
theorem run_withReports {all : List BinFloat}
    (hkeys : ∀ a ∈ all, ∀ b ∈ all, s.keyOf a = s.keyOf b → a = b)
    (hsub : ∀ q ∈ qs, q.angles ⊆ all) (hs : Faithful all s) (reports : Array Report) :
    ({ s with reports }).replies qs = s.replies qs ∧
      ∃ reports', ({ s with reports }).after qs = { s.after qs with reports := reports' } := by
  induction qs generalizing s reports with
  | nil => exact ⟨rfl, reports, rfl⟩
  | cons q qs ih =>
    have hq := hsub q List.mem_cons_self
    obtain ⟨r, s', hans, hserved⟩ := reply_served (s := s) (q := q)
      (fun a ha b hb => hkeys a (hq ha) b (hq hb)) fun p hp a ha => hs p hp a (hq ha)
    obtain ⟨reports₁, hrun₁⟩ := hans.exists_run
    obtain ⟨reports₂, hrun₂⟩ := hans reports
    have hserved₁ := hserved.withReports reports₁
    obtain ⟨hreplies, reports', hafter⟩ := ih (s := { s' with reports := reports₁ })
      (by rwa [hserved₁.agrees.keyOf_eq]) (fun q' hq' => hsub q' (List.mem_cons_of_mem _ hq'))
      (hserved₁.faithful hq hkeys hs) reports₂
    refine ⟨?_, reports', ?_⟩
    · rw [replies, replies, hrun₁, hrun₂]
      exact congrArg (r :: ·) hreplies
    · rw [after_cons, after_cons, hrun₁, hrun₂]
      exact hafter

end Run

/-! ## From a new session -/

theorem faithful_of_cache_eq_nil {s : Session} (h : s.cache = []) (angles : List BinFloat) :
    Faithful angles s := by
  intro p hp
  rw [h] at hp
  cases hp

/-- A session with nothing remembered gives for one angle alone the answer for it. -/
theorem alone_eq {s : Session} (h : s.cache = []) (on : Bool) (a : BinFloat) :
    s.alone on a = s.answer a := by
  have hset : Answers (setTimer on) s (.ok ()) { s with timer := on } := fun reports => ⟨reports, rfl⟩
  have hanswer : ({ s with timer := on } : Session).answer = s.answer :=
    Agrees.answer_eq ⟨rfl, rfl, rfl⟩
  rcases word_answers (s := { s with timer := on }) (faithful_of_cache_eq_nil h [a]) with
    ⟨w, s', hw, hrun, -⟩ | ⟨e, he, hrun⟩
  · rw [hanswer] at hw
    rw [hw]
    exact (hset.bind hrun).run_fst
  · rw [hanswer] at he
    rw [he]
    exact (hset.bind hrun).run_fst

/-- The first call of a new session for an angle with an answer gives this answer. -/
theorem answered_word {s : Session} (hcache : s.cache = []) {a : BinFloat} {w : Word} (h : s.answer a = .ok w)
    (qs : List Request) : ∃ rest, s.answered (.word a :: qs) = ⟨s.timer, .word a, [w]⟩ :: rest := by
  have hserved := served_run (s := s) (q := .word a)
    (fun b hb c hc _ => (List.mem_singleton.1 hb).trans (List.mem_singleton.1 hc).symm)
    (faithful_of_cache_eq_nil hcache _)
  unfold answered
  generalize (Request.word a).reply.run s = run at hserved ⊢
  obtain ⟨r, s'⟩ := run
  cases hserved with
  | failed hmem he reports =>
    rw [List.mem_singleton.1 hmem, h] at he
    cases he
  | answered hws hgave =>
    obtain ⟨w', rest, hw', hrest, rfl⟩ := List.forall₂_cons_left_iff.1 hws
    cases List.forall₂_nil_left_iff.1 hrest
    cases hw'.symm.trans h
    exact ⟨_, rfl⟩

/-- The phase of a word is counted by its letters. -/
theorem phaseOf_eq (w : Word) : phaseOf w = 2 * (w.count 'W' : Int) - w.count 'w' := by
  fun_induction phaseOf w with
  | case1 => rfl
  | case2 rest ih =>
    rw [ih, List.count_cons_self, List.count_cons_of_ne (by decide)]
    omega
  | case3 rest ih =>
    rw [ih, List.count_cons_self, List.count_cons_of_ne (by decide)]
    omega
  | case4 c rest hW hw ih =>
    rw [ih, List.count_cons_of_ne hW, List.count_cons_of_ne hw]

/-- The words of a call are those of its entries, if there is one for each angle. -/
theorem Reply.map_entries {r : Reply} (h : r.request.angles.length = r.words.length) :
    r.entries.map (fun g => phaseOf g.2.2) = r.words.map phaseOf := by
  unfold entries
  rw [List.map_map]
  show ((r.request.angles.zip r.words).map (phaseOf ∘ Prod.snd)) = _
  rw [← List.map_map, List.map_snd_zip (Nat.le_of_eq h.symm)]

/-- **The answers of a session do not depend on its history, and are accounted for.** Let a new session be
asked for single words, for batches, and to turn the timer on or off, in any order, no two angles that it is
asked for sharing a key. Every word that it gives is the one that the new session gives for the angle alone,
with the timer on or off. The phase is that of all words given. A call fails only if one of its angles does
so alone; it leaves the session as it was up to its messages, and the calls after it come to what they come
to without it. What is remembered are the words without a closed form that were given with the timer off,
each under the key of its angle and once. -/
theorem history_independent {o : Options} {ctx : Context} {table : GateTable} {seed : UInt64}
    {s : Session} (hs : start o ctx table seed = .ok s) {qs : List Request}
    (hkeys : ∀ a ∈ qs.flatMap Request.angles, ∀ b ∈ qs.flatMap Request.angles,
      s.keyOf a = s.keyOf b → a = b) :
    (∀ r ∈ s.answered qs,
      List.Forall₂ (fun a w => ∀ on, s.alone on a = .ok w) r.request.angles r.words) ∧
    ((s.after qs).phase : Int) = (((s.answered qs).flatMap Reply.words).map
      fun w => 2 * (w.count 'W' : Int) - w.count 'w').sum % 16 ∧
    (∀ before q rest e, qs = before ++ q :: rest → (q.reply.run (s.after before)).1 = .error e →
      (∃ a ∈ q.angles, ∀ on, ∃ e', s.alone on a = .error e') ∧
      (∃ reports, s.after (before ++ [q]) = { s.after before with reports }) ∧
      (s.after (before ++ [q])).replies rest = (s.after before).replies rest ∧
      ∃ reports, s.after qs = { s.after (before ++ rest) with reports }) ∧
    (∀ key w, (key, w) ∈ (s.after qs).cache ↔ ∃ r ∈ s.answered qs, r.timed = false ∧
      ∃ a, (a, w) ∈ r.request.angles.zip r.words ∧ s.closed? a = none ∧ s.keyOf a = key) ∧
    ((s.after qs).cache.map Prod.fst).Nodup := by
  obtain ⟨-, -, -, hcache, hcount, -⟩ := start_eq_ok hs
  have hsub : ∀ q ∈ qs, q.angles ⊆ qs.flatMap Request.angles := fun q hq a ha =>
    List.mem_flatMap.2 ⟨q, hq, ha⟩
  have hfaithful := faithful_of_cache_eq_nil hcache (qs.flatMap Request.angles)
  obtain ⟨hgave, -, hall⟩ := run_gave qs hkeys hsub hfaithful
  refine ⟨fun r hr => ?_, ?_, fun before q rest e hsplit hfail => ?_, fun key w => ?_, ?_⟩
  · exact (hall r hr).imp fun a w h on => (alone_eq hcache on a).trans h
  · have hcount' : (s.after qs).phaseCount = (((s.answered qs).flatMap Reply.words).map phaseOf).sum := by
      rw [hgave.phaseCount, hcount, Int.zero_add]
      simp only [List.map_flatMap]
      congr 1
      refine List.flatMap_congr fun r hr => Reply.map_entries (hall r hr).length_eq
    rw [phase, Int.toNat_of_nonneg (Int.emod_nonneg _ (by decide)), hcount', funext phaseOf_eq]
  · subst hsplit
    obtain ⟨hbefore, hfaithful', -⟩ := run_gave before hkeys
      (fun q' hq' => hsub q' (List.mem_append_left _ hq')) hfaithful
    have hq : q.angles ⊆ _ := hsub q (List.mem_append_right _ List.mem_cons_self)
    have hkeys' := hkeys
    rw [← hbefore.agrees.keyOf_eq] at hkeys'
    have hserved := served_run (s := s.after before) (q := q)
      (fun a ha b hb => hkeys' a (hq ha) b (hq hb)) fun p hp a ha => hfaithful' p hp a (hq ha)
    have hafter : s.after (before ++ [q]) = (q.reply.run (s.after before)).2 := after_append s before [q]
    rw [after_append s before (q :: rest), after_append s before rest, after_cons, hafter]
    generalize q.reply.run (s.after before) = run at *
    obtain ⟨r, s'⟩ := run
    cases hserved with
    | answered => cases hfail
    | failed hmem ha reports =>
      rw [hbefore.agrees.answer_eq] at ha
      obtain ⟨hreplies, hrest⟩ := run_withReports rest hkeys'
        (fun q' hq' => hsub q' (List.mem_append_right _ (List.mem_cons_of_mem _ hq'))) hfaithful' reports
      exact ⟨⟨_, hmem, fun on => ⟨_, (alone_eq hcache on _).trans ha⟩⟩, ⟨reports, rfl⟩, hreplies, hrest⟩
  · rw [hgave.cache, hcache]
    simp only [List.not_mem_nil, false_or, List.mem_flatMap]
    constructor
    · rintro ⟨g, ⟨r, hr, hg⟩, htimed, hopen, heq⟩
      obtain ⟨⟨a, w'⟩, hmem, rfl⟩ := List.mem_map.1 hg
      cases heq
      exact ⟨r, hr, htimed, a, hmem, hopen, rfl⟩
    · rintro ⟨r, hr, htimed, a, hmem, hopen, rfl⟩
      exact ⟨_, ⟨r, hr, List.mem_map_of_mem hmem⟩, htimed, hopen, rfl⟩
  · refine hgave.nodup ?_
    rw [hcache]
    exact List.nodup_nil

/-- The angle `1/8` is asked for on its own, twice in a batch with the timer on, and once more, at one digit and over
the generated table. If the exponents are those of the logarithm it has a word, which is given and remembered. -/
theorem history_independent_repeats :
    ∃ ctx s a qs, Context.ofOptions (Options.withPrecision 1) = .ok ctx ∧
      start (Options.withPrecision 1) ctx GateTable.generate 1 = .ok s ∧ a = BinFloat.twoPow (-3) 148 ∧
      qs = [.word a, .setTimer true, .words [a, a], .setTimer false, .words [a]] ∧
      (∀ b ∈ qs.flatMap Request.angles, ∀ c ∈ qs.flatMap Request.angles,
        s.keyOf b = s.keyOf c → b = c) ∧
      (∀ r ∈ s.answered qs,
        List.Forall₂ (fun a w => ∀ on, s.alone on a = .ok w) r.request.angles r.words) ∧
      ((s.after qs).phase : Int) = (((s.answered qs).flatMap Reply.words).map
        fun w => 2 * (w.count 'W' : Int) - w.count 'w').sum % 16 ∧
      (GridPoints.Scales (GridPoints.scaleExponent · ctx.toConstants) (1 / 10 ^ ctx.digits)
          (2 ^ (5 * ctx.digits + 34)) →
        ∃ w, ⟨false, .word a, [w]⟩ ∈ s.answered qs ∧ (∀ on, s.alone on a = .ok w) ∧
          (s.keyOf a, w) ∈ (s.after qs).cache) := by
  obtain ⟨ctx, hctx⟩ : ∃ ctx, Context.ofOptions (Options.withPrecision 1) = .ok ctx := ⟨_, rfl⟩
  obtain ⟨s, hs⟩ := exists_start (Options.withPrecision 1) ctx 1
  have hkeys : ∀ b ∈ [Request.word (.twoPow (-3) 148), .setTimer true,
        .words [.twoPow (-3) 148, .twoPow (-3) 148], .setTimer false,
        .words [.twoPow (-3) 148]].flatMap Request.angles,
      b = BinFloat.twoPow (-3) 148 := by
    simp [Request.angles]
  obtain ⟨hwords, hphase, -, hcache, -⟩ :=
    history_independent hs fun b hb c hc _ => (hkeys b hb).trans (hkeys c hc).symm
  refine ⟨ctx, s, _, _, hctx, hs, rfl, rfl, fun b hb c hc _ => (hkeys b hb).trans (hkeys c hc).symm,
    hwords, hphase, fun hexp => ?_⟩
  obtain ⟨rfl, htable, htimer, hempty, -⟩ := start_eq_ok hs
  obtain ⟨hopen, a, hfinds⟩ := exists_finds_eighth hctx hexp
  obtain ⟨w, hw⟩ := hfinds.exists_outcome htable
  have hanswer : s.answer (.twoPow (-3) 148) = .ok (finalWord ⟨w, a⟩) := by
    rw [answer_of_open hopen, hw]
    rfl
  obtain ⟨rest, hfirst⟩ := answered_word hempty hanswer [.setTimer true,
    .words [.twoPow (-3) 148, .twoPow (-3) 148], .setTimer false, .words [.twoPow (-3) 148]]
  rw [htimer] at hfirst
  have hmem : ⟨false, .word (.twoPow (-3) 148), [finalWord ⟨w, a⟩]⟩ ∈ s.answered [.word (.twoPow (-3) 148),
      .setTimer true, .words [.twoPow (-3) 148, .twoPow (-3) 148], .setTimer false, .words [.twoPow (-3) 148]] := by
    rw [hfirst]
    exact List.mem_cons_self
  exact ⟨_, hmem, fun on => (alone_eq hempty on _).trans hanswer,
    (hcache _ _).2 ⟨_, hmem, rfl, _, List.mem_singleton_self _, hopen, rfl⟩⟩

end CliffordT.Session
