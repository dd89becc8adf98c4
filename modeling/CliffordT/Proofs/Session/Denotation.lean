/-
What the words of a session stand for.

What a search finds is in normal form, since it was checked when it was made. Over a table whose entries are
right its synthesis gives a word for exactly that unitary, which simplification does not change; so the check
of the final word cannot fail, and an outcome is turned down only for its error (`Denotes`,
`accepts_eq_of_outcome`).

That every word given out is the final word of some search needs an invariant of the session, `Traced`: what
is remembered under a key was found for an angle that was asked for and has this key, and the session was
valid until an outcome missed the accuracy. It holds after any calls, also after calls that fail on the way,
and whether or not two angles share a key.
-/
import CliffordT.Proofs.Session.History
import CliffordT.Proofs.Unitary.Matrix
import CliffordT.Proofs.Unitary.Rounds
import CliffordT.Proofs.Unitary.Simplification

namespace CliffordT

namespace Session

/-! ## One search -/

/-- The word has exactly the unitary of the approximation, which is in normal form, and it is simplified
as far as it goes. -/
structure Denotes (w : Word) (a : Approximation) : Prop where
  normal : a.unitary.IsNormal
  unitary : Unitary.ofWord w = .ok a.unitary
  letters : ∀ c ∈ w, c ∈ ['H', 'T', 'S', 'W']
  noPairs : w.NoPairs

section Outcome

variable {s : Session} {angle : BinFloat} {key : String} {f : Found}

/-- Over a table whose entries are right, the final word stands for what was found. -/
theorem denotes_of_outcome (htable : s.table.Sound) (h : s.outcome angle (s.keyOf angle) = .ok f) :
    Denotes (finalWord f) f.approximation := by
  obtain ⟨⟨state, hfind⟩, hsynth⟩ := outcome_eq_ok h
  have hnormal := Approximation.find_gives_normal _ _ _ _ _ hfind _ rfl
  let m : NormalUnitary := ⟨_, hnormal⟩
  have hvalue : (finalWord f).value? = .ok m := by
    rw [finalWord, Word.value?_dropIdentity, Word.value?_fullSimplify]
    exact Unitary.value?_of_synthesize htable hsynth
  refine ⟨hnormal, Word.ofWord_eq_ok_iff.2 ⟨m, hvalue, rfl⟩, fun c hc => ?_,
    Word.noPairs_dropIdentity_fullSimplify f.word⟩
  have hletter : c ∈ Word.letters := by
    by_contra hbad
    obtain ⟨e, he⟩ := Word.exists_value?_eq_error_iff.2 ⟨c, hc, hbad⟩
    rw [hvalue] at he
    cases he
  have hI : c ≠ 'I' := by
    rintro rfl
    exact Word.not_mem_dropIdentity _ hc
  simpa [Word.letters, hI] using hletter

theorem Denotes.reproduces {w : Word} {a : Approximation} (h : Denotes w a) :
    reproduces w a = true := by
  rw [Session.reproduces, h.unitary]
  exact beq_self_eq_true a.unitary

/-- The check does not decide whether an outcome is good. -/
theorem accepts_eq_of_outcome (htable : s.table.Sound)
    (h : s.outcome angle (s.keyOf angle) = .ok f) :
    s.accepts f = decide (f.approximation.error < s.ctx.eps) := by
  rw [accepts, (denotes_of_outcome htable h).reproduces, Bool.or_true, Bool.true_and]

end Outcome

/-! ## Where the words come from -/

/-- An angle without a closed form was asked for, the key is its key, and the outcome is that of its
search. -/
def Searched (s : Session) (asked : List BinFloat) (key : String) (f : Found) : Prop :=
  ∃ b ∈ asked, s.closed? b = none ∧ s.keyOf b = key ∧ s.outcome b (s.keyOf b) = .ok f

/-- The word is the final word of a search for an angle with the key, among those asked for. -/
def Final (s : Session) (asked : List BinFloat) (key : String) (w : Word) : Prop :=
  ∃ f, s.Searched asked key f ∧ w = finalWord f

/-- The session `s` came from `s₀` by answering some of the angles asked for. -/
structure Traced (s₀ : Session) (asked : List BinFloat) (s : Session) : Prop where
  agrees : Agrees s₀ s
  cache : ∀ p ∈ s.cache, s₀.Final asked p.1 p.2
  valid : s.valid = false → ∃ key f, s₀.Searched asked key f ∧ ¬ f.approximation.error < s₀.ctx.eps

/-- From every traced session the computation leaves a traced one, and a value that it comes to has the
property `P`. -/
def Keeps {α : Type} (s₀ : Session) (asked : List BinFloat) (m : InSession α) (P : α → Prop) : Prop :=
  ∀ s, Traced s₀ asked s → Traced s₀ asked (m.run s).2 ∧ ∀ a, (m.run s).1 = .ok a → P a

section Keeps

variable {α β : Type} {s₀ s : Session} {asked : List BinFloat} {m : InSession α} {P : α → Prop}
  {Q : β → Prop}

theorem Traced.withReports (h : Traced s₀ asked s) (reports : Array Report) :
    Traced s₀ asked { s with reports } :=
  ⟨⟨h.agrees.1, h.agrees.2, h.agrees.3⟩, h.cache, h.valid⟩

theorem Keeps.pure {a : α} (h : P a) : Keeps s₀ asked (pure a) P := by
  refine fun s hs => ⟨hs, fun b hb => ?_⟩
  cases hb
  exact h

theorem Keeps.get : Keeps s₀ asked get (Traced s₀ asked) := by
  refine fun s hs => ⟨hs, fun s' hs' => ?_⟩
  cases hs'
  exact hs

theorem Keeps.bind {f : α → InSession β} (hm : Keeps s₀ asked m P)
    (hf : ∀ a, P a → Keeps s₀ asked (f a) Q) : Keeps s₀ asked (m >>= f) Q := by
  intro s hs
  obtain ⟨hs₁, ha⟩ := hm s hs
  show Traced s₀ asked (ExceptT.bindCont f (m.run s).1 (m.run s).2).2 ∧
    ∀ b, (ExceptT.bindCont f (m.run s).1 (m.run s).2).1 = .ok b → Q b
  cases hrun : (m.run s).1 with
  | ok a => exact hf a (ha a hrun) _ hs₁
  | error e =>
    refine ⟨hs₁, fun b hb => ?_⟩
    cases hb

theorem Keeps.imp {P' : α → Prop} (h : Keeps s₀ asked m P) (hP : ∀ a, P a → P' a) :
    Keeps s₀ asked m P' :=
  fun s hs => ⟨(h s hs).1, fun a ha => hP a ((h s hs).2 a ha)⟩

/-- What a computation does up to messages says what it keeps. -/
theorem Keeps.of_answers (h : ∀ s, Traced s₀ asked s →
    ∃ r s', Answers m s r s' ∧ Traced s₀ asked s' ∧ ∀ a, r = .ok a → P a) :
    Keeps s₀ asked m P := by
  intro s hs
  obtain ⟨r, s', hans, hs', ha⟩ := h s hs
  obtain ⟨reports, hrun⟩ := hans.exists_run
  rw [hrun]
  exact ⟨hs'.withReports reports, ha⟩

end Keeps

section Words

variable {s₀ : Session} {asked : List BinFloat} {a : BinFloat} {key : String} {f : Found}

theorem closedForm?_keeps (s₀ : Session) (asked : List BinFloat) (a : BinFloat) :
    Keeps s₀ asked (closedForm? a) fun w => w = s₀.closed? a := by
  refine .of_answers fun s hs => ⟨_, s, closedForm?_answers s a, hs, fun w hw => ?_⟩
  cases hw
  rw [hs.agrees.closed?_eq]

theorem emit_keeps (s₀ : Session) (asked : List BinFloat) (w : Word) :
    Keeps s₀ asked (emit w) fun v => v = w := by
  refine .of_answers fun s hs => ⟨_, _, emit_answers w s, ?_, fun v hv => ?_⟩
  · exact ⟨⟨hs.agrees.1, hs.agrees.2, hs.agrees.3⟩, hs.cache, hs.valid⟩
  · cases hv
    rfl

theorem search_keeps (s₀ : Session) (asked : List BinFloat) (a : BinFloat) (key : String) :
    Keeps s₀ asked (search a key) fun f => s₀.outcome a key = .ok f := by
  refine .of_answers fun s hs => ⟨_, s, search_answers s a key, hs, fun f hf => ?_⟩
  rw [← hf, hs.agrees.outcome_eq]

/-- The outcome of a search is recorded under the key of its angle, or not remembered. -/
theorem record_keeps (htable : s₀.table.Sound) {key? : Option String} (hf : s₀.Searched asked key f)
    (hkey : ∀ k ∈ key?, k = key) : Keeps s₀ asked (record a key? f) fun w => w = finalWord f := by
  refine .of_answers fun s hs => ⟨_, _, record_answers s a key? f, ⟨?_, fun p hp => ?_, fun hv => ?_⟩,
    fun w hw => ?_⟩
  · exact ⟨hs.agrees.1, hs.agrees.2, hs.agrees.3⟩
  · rcases List.mem_append.1 hp with hp | hp
    · obtain ⟨k, hk, rfl⟩ := Option.map_eq_some_iff.1 (Option.mem_toList.1 hp)
      exact ⟨f, hkey k hk ▸ hf, rfl⟩
    · exact hs.cache p hp
  · obtain ⟨b, -, -, -, hout⟩ := id hf
    rw [← hs.agrees.outcome_eq, ← hs.agrees.keyOf_eq] at hout
    rcases Bool.and_eq_false_iff.1 hv with hv | hv
    · exact hs.valid hv
    · rw [accepts_eq_of_outcome (hs.agrees.table ▸ htable) hout, hs.agrees.ctx] at hv
      exact ⟨key, f, hf, of_decide_eq_false hv⟩
  · cases hw
    rfl

theorem searchAndRecord_keeps (htable : s₀.table.Sound) (ha : a ∈ asked) (hopen : s₀.closed? a = none)
    (remember : Bool) : Keeps s₀ asked (searchAndRecord a (s₀.keyOf a) remember)
      fun w => s₀.Final asked (s₀.keyOf a) w := by
  refine (search_keeps s₀ asked a _).bind fun f hf => ?_
  have hsearched : s₀.Searched asked (s₀.keyOf a) f := ⟨a, ha, hopen, rfl, hf⟩
  have hkey : ∀ k ∈ (if remember then some (s₀.keyOf a) else none), k = s₀.keyOf a := by
    cases remember <;> simp
  exact (record_keeps htable hsearched hkey).imp fun w hw => ⟨f, hsearched, hw⟩

theorem Final.of_cached {s : Session} {w : Word} (hs : Traced s₀ asked s) (h : s.cached? key = some w) :
    s₀.Final asked key w :=
  hs.cache _ (mem_of_lookup h)

/-- A word given out for an angle is the final word of a search under its key. -/
theorem word_keeps (htable : s₀.table.Sound) (ha : a ∈ asked) :
    Keeps s₀ asked (word a) fun w => s₀.closed? a = none → s₀.Final asked (s₀.keyOf a) w := by
  have hemit (w : Word) (hw : s₀.Final asked (s₀.keyOf a) w) : Keeps s₀ asked (emit w)
      fun w => s₀.closed? a = none → s₀.Final asked (s₀.keyOf a) w :=
    (emit_keeps s₀ asked w).imp fun v hv _ => hv ▸ hw
  refine (closedForm?_keeps s₀ asked a).bind fun w? hw? => ?_
  cases w? with
  | some w =>
    refine (emit_keeps s₀ asked w).imp fun v _ hopen => ?_
    rw [hopen] at hw?
    cases hw?
  | none =>
    refine Keeps.get.bind fun s hs => ?_
    dsimp only
    rw [hs.agrees.keyOf_eq]
    split
    · exact (searchAndRecord_keeps htable ha hw?.symm false).bind hemit
    · split
      · rename_i w hw
        exact hemit w (.of_cached hs hw)
      · exact (searchAndRecord_keeps htable ha hw?.symm true).bind hemit

/-! ## Batches -/

theorem searchAll_keeps (s₀ : Session) (asked : List BinFloat) (l : List (String × BinFloat)) :
    Keeps s₀ asked (searchAll l) fun found =>
      ∀ p ∈ found, ∃ b, (p.1, b) ∈ l ∧ s₀.outcome b p.1 = .ok p.2 := by
  induction l with
  | nil => exact .pure fun p hp => by cases hp
  | cons q l ih =>
    refine (search_keeps s₀ asked q.2 q.1).bind fun f hf => ih.bind fun found hfound => .pure ?_
    intro p hp
    rcases List.mem_cons.1 hp with rfl | hp
    · exact ⟨q.2, List.mem_cons_self, hf⟩
    · obtain ⟨b, hb, hout⟩ := hfound p hp
      exact ⟨b, List.mem_cons_of_mem _ hb, hout⟩

/-- The words of a batch, one for each angle. -/
theorem answerAll_keeps (htable : s₀.table.Sound) {found : List (String × Found)}
    {angles : List BinFloat} (hfound : ∀ p ∈ found, s₀.Searched asked p.1 p.2)
    (hangles : angles ⊆ asked) :
    Keeps s₀ asked (answerAll found (angles.map fun a => (s₀.keyOf a, a))) fun ws =>
      List.Forall₂ (fun a w => s₀.closed? a = none → s₀.Final asked (s₀.keyOf a) w) angles ws := by
  induction angles generalizing found with
  | nil => exact .pure .nil
  | cons a angles ih =>
    have hrest : angles ⊆ asked := fun b hb => hangles (List.mem_cons_of_mem a hb)
    have hnext {found' : List (String × Found)} (hfound' : ∀ p ∈ found', s₀.Searched asked p.1 p.2)
        (w : Word) (hw : s₀.closed? a = none → s₀.Final asked (s₀.keyOf a) w) :
        Keeps s₀ asked
          (do
            let w ← emit w
            return w :: (← answerAll found' (angles.map fun a => (s₀.keyOf a, a))))
          fun ws => List.Forall₂ (fun a w => s₀.closed? a = none → s₀.Final asked (s₀.keyOf a) w)
            (a :: angles) ws :=
      (emit_keeps s₀ asked w).bind fun v hv => (ih hfound' hrest).bind fun ws hws =>
        .pure (.cons (hv ▸ hw) hws)
    refine (closedForm?_keeps s₀ asked a).bind fun w? hw? => ?_
    cases w? with
    | some w =>
      refine hnext hfound w fun hopen => ?_
      rw [hopen] at hw?
      cases hw?
    | none =>
      refine Keeps.get.bind fun s hs => ?_
      split
      · rename_i f hf
        have hsearched := hfound _ (mem_of_lookup hf)
        refine (record_keeps htable hsearched ?_).bind fun w hw =>
          hnext (fun p hp => hfound p (List.mem_filter.1 hp).1) w fun _ => ⟨f, hsearched, hw⟩
        split <;> simp
      · split
        · rename_i w hw
          exact hnext hfound w fun _ => .of_cached hs hw
        · exact (searchAndRecord_keeps htable (hangles List.mem_cons_self) hw?.symm false).bind
            fun w hw => hnext hfound w fun _ => hw

theorem words_keeps (htable : s₀.table.Sound) {angles : List BinFloat} (hangles : angles ⊆ asked) :
    Keeps s₀ asked (words angles) fun ws =>
      List.Forall₂ (fun a w => s₀.closed? a = none → s₀.Final asked (s₀.keyOf a) w) angles ws := by
  refine Keeps.get.bind fun s hs => ?_
  have hpending : Keeps s₀ asked (pendingFrom [] (angles.map fun a => (s₀.keyOf a, a)))
      fun pending => ∀ p ∈ pending, p.2 ∈ angles ∧ s₀.keyOf p.2 = p.1 ∧ s₀.closed? p.2 = none := by
    refine .of_answers fun s hs =>
      ⟨_, s, hs.agrees.keyOf_eq ▸ pendingFrom_answers_searched s angles, hs, fun l hl p hp => ?_⟩
    cases hl
    obtain ⟨hmem, hkey, hopen, -⟩ := mem_searched hp
    rw [hs.agrees.keyOf_eq] at hkey
    rw [hs.agrees.closed?_eq] at hopen
    exact ⟨hmem, hkey, hopen⟩
  dsimp only
  rw [hs.agrees.keyOf_eq]
  refine hpending.bind fun pending hpend => (searchAll_keeps s₀ asked pending).bind fun found hf =>
    answerAll_keeps htable (fun p hp => ?_) hangles
  obtain ⟨b, hb, hout⟩ := hf p hp
  obtain ⟨hmem, hkey, hopen⟩ := hpend _ hb
  dsimp only at hmem hkey hopen
  exact ⟨b, hangles hmem, hopen, hkey, hkey.symm ▸ hout⟩

/-! ## Runs -/

theorem reply_keeps (htable : s₀.table.Sound) {q : Request} (hq : q.angles ⊆ asked) :
    Keeps s₀ asked q.reply fun ws =>
      List.Forall₂ (fun a w => s₀.closed? a = none → s₀.Final asked (s₀.keyOf a) w) q.angles ws := by
  cases q with
  | word a =>
    exact (word_keeps htable (hq List.mem_cons_self)).bind fun w hw => .pure (.cons hw .nil)
  | words angles => exact words_keeps htable hq
  | setTimer on =>
    have hset : Keeps s₀ asked (setTimer on) fun _ => True := .of_answers fun s hs =>
      ⟨.ok (), { s with timer := on }, fun reports => ⟨reports, rfl⟩,
        ⟨⟨hs.agrees.1, hs.agrees.2, hs.agrees.3⟩, hs.cache, hs.valid⟩, fun _ _ => trivial⟩
    exact hset.bind fun _ _ => .pure .nil

/-- A run leaves a traced session, and every word that was given is the final word of a search. -/
theorem run_traced (htable : s₀.table.Sound) (qs : List Request) (hqs : ∀ q ∈ qs, q.angles ⊆ asked)
    {s : Session} (hs : Traced s₀ asked s) :
    Traced s₀ asked (s.after qs) ∧ ∀ r ∈ s.answered qs, List.Forall₂
      (fun a w => s₀.closed? a = none → s₀.Final asked (s₀.keyOf a) w) r.request.angles r.words := by
  induction qs generalizing s with
  | nil => exact ⟨hs, fun r hr => by cases hr⟩
  | cons q qs ih =>
    obtain ⟨hs', hws⟩ := reply_keeps htable (hqs q List.mem_cons_self) s hs
    obtain ⟨hlast, hall⟩ := ih (fun q' hq' => hqs q' (List.mem_cons_of_mem q hq')) hs'
    refine ⟨hlast, ?_⟩
    unfold answered
    generalize q.reply.run s = run at *
    obtain ⟨r, s'⟩ := run
    cases r with
    | error e => exact hall
    | ok ws =>
      intro r hr
      rcases List.mem_cons.1 hr with rfl | hr
      · exact hws ws rfl
      · exact hall r hr

end Words

/-- **The words of a session stand for the approximations that were found.** Take a new session over a table
whose entries are right, after any calls.

Of every angle whose search succeeds the final word has exactly the unitary of the approximation that is
found for `-angle/2`, and its letters are `H`, `T`, `S` and `W` with neither `HH` nor `TT`. Recording the
outcome gives this word, and takes away the validity only if the error is not below the accuracy, with the
check on or off; `word` gives it when nothing is remembered for the angle. Every word that was given for an
angle without a closed form is such a word, of an angle asked for with the same key. And if the session is no
longer valid, then an approximation for one of the angles asked for has an error of at least the accuracy. -/
theorem words_denote {o : Options} {ctx : Context} {table : GateTable} {seed : UInt64} {s : Session}
    (hs : start o ctx table seed = .ok s) (htable : table.Sound) (qs : List Request) :
    (∀ a f, s.outcome a (s.keyOf a) = .ok f →
      s.Finds a f.approximation ∧ Denotes (finalWord f) f.approximation ∧
      (∀ key, ((record a key f).run (s.after qs)).1 = .ok (finalWord f) ∧
        ((record a key f).run (s.after qs)).2.valid
          = ((s.after qs).valid && decide (f.approximation.error < ctx.eps))) ∧
      (s.closed? a = none →
        ((s.after qs).timer = false → (s.after qs).cached? (s.keyOf a) = none) →
        ((word a).run (s.after qs)).1 = .ok (finalWord f))) ∧
    (∀ r ∈ s.answered qs, List.Forall₂
      (fun a w => s.closed? a = none → ∃ b ∈ qs.flatMap Request.angles,
        s.closed? b = none ∧ s.keyOf b = s.keyOf a ∧ ∃ found, s.Finds b found ∧ Denotes w found)
      r.request.angles r.words) ∧
    ((s.after qs).valid = false → ∃ b ∈ qs.flatMap Request.angles,
      s.closed? b = none ∧ ∃ found, s.Finds b found ∧ ctx.eps ≤ found.error) := by
  obtain ⟨hctx, htab, -, hcache, -, hvalid⟩ := start_eq_ok hs
  subst hctx htab
  have hstart : Traced s (qs.flatMap Request.angles) s := by
    refine ⟨.refl s, fun p hp => ?_, fun hv => ?_⟩
    · rw [hcache] at hp
      cases hp
    · rw [hvalid] at hv
      cases hv
  obtain ⟨hlast, hall⟩ := run_traced htable qs
    (fun q hq a ha => List.mem_flatMap.2 ⟨q, hq, ha⟩) hstart
  refine ⟨fun a f hf => ⟨(outcome_eq_ok hf).1, denotes_of_outcome htable hf, fun key => ?_,
    fun hopen hnew => ?_⟩, fun r hr => ?_, fun hv => ?_⟩
  · obtain ⟨reports, hrun⟩ := (record_answers (s.after qs) a key f).exists_run
    rw [← hlast.agrees.outcome_eq, ← hlast.agrees.keyOf_eq] at hf
    rw [hrun, ← hlast.agrees.ctx, ← accepts_eq_of_outcome (hlast.agrees.table ▸ htable) hf]
    exact ⟨rfl, rfl⟩
  · rw [← hlast.agrees.outcome_eq, ← hlast.agrees.keyOf_eq] at hf
    rw [← hlast.agrees.closed?_eq] at hopen
    rw [← hlast.agrees.keyOf_eq] at hnew
    exact (word_of_outcome hopen hnew hf).run_fst
  · refine (hall r hr).imp fun a w hw hopen => ?_
    obtain ⟨f, ⟨b, hb, hopen', hkey, hf⟩, rfl⟩ := hw hopen
    exact ⟨b, hb, hopen', hkey, f.approximation, (outcome_eq_ok hf).1, denotes_of_outcome htable hf⟩
  · obtain ⟨key, f, ⟨b, hb, hopen, -, hf⟩, herror⟩ := hlast.valid hv
    refine ⟨b, hb, hopen, f.approximation, (outcome_eq_ok hf).1, ?_⟩
    rw [BinFloat.lt_iff_value, not_lt, ← BinFloat.le_iff_value] at herror
    exact herror

/-- The angle `1/8` is asked for on its own and twice in a batch with the timer on, at one digit and over the generated
table. If the exponents are those of the logarithm an approximation is found for it, and the first word that is given
stands for it. -/
theorem words_denote_eighth :
    ∃ ctx s a qs, Context.ofOptions (Options.withPrecision 1) = .ok ctx ∧
      start (Options.withPrecision 1) ctx GateTable.generate 1 = .ok s ∧ GateTable.generate.Sound ∧
      a = BinFloat.twoPow (-3) 148 ∧ qs = [.word a, .setTimer true, .words [a, a]] ∧
      (∀ r ∈ s.answered qs, List.Forall₂
        (fun a w => s.closed? a = none → ∃ b ∈ qs.flatMap Request.angles,
          s.closed? b = none ∧ s.keyOf b = s.keyOf a ∧ ∃ found, s.Finds b found ∧ Denotes w found)
        r.request.angles r.words) ∧
      ((s.after qs).valid = false → ∃ b ∈ qs.flatMap Request.angles,
        s.closed? b = none ∧ ∃ found, s.Finds b found ∧ ctx.eps ≤ found.error) ∧
      (GridPoints.Scales (GridPoints.scaleExponent · ctx.toConstants) (1 / 10 ^ ctx.digits)
          (2 ^ (5 * ctx.digits + 34)) →
        ∃ f, s.outcome a (s.keyOf a) = .ok f ∧ s.Finds a f.approximation ∧
          Denotes (finalWord f) f.approximation ∧ s.closed? a = none ∧
          ((word a).run s).1 = .ok (finalWord f) ∧ ⟨false, .word a, [finalWord f]⟩ ∈ s.answered qs) := by
  obtain ⟨ctx, hctx⟩ : ∃ ctx, Context.ofOptions (Options.withPrecision 1) = .ok ctx := ⟨_, rfl⟩
  obtain ⟨s, hs⟩ := exists_start (Options.withPrecision 1) ctx 1
  have hrun := words_denote hs GateTable.sound_generate
    [.word (.twoPow (-3) 148), .setTimer true, .words [.twoPow (-3) 148, .twoPow (-3) 148]]
  refine ⟨ctx, s, _, _, hctx, hs, GateTable.sound_generate, rfl, rfl, hrun.2.1, hrun.2.2, fun hexp => ?_⟩
  obtain ⟨rfl, htable, htimer, hempty, -⟩ := start_eq_ok hs
  obtain ⟨hopen, a, hfinds⟩ := exists_finds_eighth hctx hexp
  obtain ⟨w, hw⟩ := hfinds.exists_outcome htable
  obtain ⟨-, hdenotes, -, hword⟩ := (words_denote hs GateTable.sound_generate []).1 _ _ hw
  have hgiven := hword hopen fun _ => by
    rw [cached?, show s.after [] = s from rfl, hempty]
    rfl
  have hanswer : s.answer (.twoPow (-3) 148) = .ok (finalWord ⟨w, a⟩) := by
    rw [answer_of_open hopen, hw]
    rfl
  obtain ⟨rest, hfirst⟩ := answered_word hempty hanswer
    [.setTimer true, .words [.twoPow (-3) 148, .twoPow (-3) 148]]
  rw [htimer] at hfirst
  exact ⟨_, hw, hfinds, hdenotes, hopen, hgiven, hfirst ▸ List.mem_cons_self⟩

end Session

end CliffordT
