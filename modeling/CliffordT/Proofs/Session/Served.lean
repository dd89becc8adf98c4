/-
What one call does to a session.

A session that remembers words is `Faithful` when each of them is the answer for every angle that comes with
its key. As long as no two angles share a key, `Served` says what a call comes to: either every angle gets
its answer, and the session accounts for these words and remembers those that it should (`Gave`), or some
angle has no answer, and nothing but messages is left. In timer mode a repeated angle of a batch is searched
again in the middle of the answers; it is found again, since it was found before under the same key. `Ready`
is what carries the induction along a batch.
-/
import Mathlib.Algebra.Ring.Int.Defs
import Mathlib.Data.List.Forall2
import CliffordT.Proofs.Session.Calls

namespace CliffordT.Session

/-! ## What is accounted for -/

/-- The words that are remembered are the answers for the angles of the list that have their keys, closed
forms apart. -/
def Faithful (angles : List BinFloat) (s : Session) : Prop :=
  ∀ p ∈ s.cache, ∀ a ∈ angles, s.closed? a = none → s.keyOf a = p.1 → s.answer a = .ok p.2

/-- Words were given for angles, with the timer on or off: their phases are counted, and unless the timer
was on those without a closed form are remembered, each key once. -/
structure Gave (s s' : Session) (given : List (Bool × BinFloat × Word)) : Prop where
  agrees : Agrees s s'
  phaseCount : s'.phaseCount = s.phaseCount + (given.map fun g => phaseOf g.2.2).sum
  cache : ∀ p, p ∈ s'.cache ↔ p ∈ s.cache ∨
    ∃ g ∈ given, g.1 = false ∧ s.closed? g.2.1 = none ∧ p = (s.keyOf g.2.1, g.2.2)
  nodup : (s.cache.map Prod.fst).Nodup → (s'.cache.map Prod.fst).Nodup

section Gave

variable {timed : Bool} {s s' s'' : Session} {given given' : List (Bool × BinFloat × Word)}
  {a : BinFloat} {w : Word}

theorem Gave.refl (s : Session) : Gave s s [] := ⟨.refl s, (Int.add_zero _).symm, fun p => by simp, id⟩

theorem Gave.trans (h : Gave s s' given) (h' : Gave s' s'' given') :
    Gave s s'' (given ++ given') := by
  refine ⟨h.agrees.trans h'.agrees, ?_, fun p => ?_, h'.nodup ∘ h.nodup⟩
  · rw [h'.phaseCount, h.phaseCount, List.map_append, List.sum_append, Int.add_assoc]
  · rw [h'.cache, h.cache, h.agrees.keyOf_eq, h.agrees.closed?_eq]
    simp only [List.mem_append, or_and_right, exists_or, or_assoc]

/-- Messages are not accounted for. -/
theorem Gave.withReports (h : Gave s s' given) (reports : Array Report) :
    Gave s { s' with reports } given :=
  ⟨⟨h.agrees.1, h.agrees.2, h.agrees.3⟩, h.phaseCount, h.cache, h.nodup⟩

theorem Gave.of_withReports {reports : Array Report} (h : Gave { s with reports } s' given) :
    Gave s s' given :=
  ⟨⟨h.agrees.1, h.agrees.2, h.agrees.3⟩, h.phaseCount, h.cache, h.nodup⟩

/-- A word that is not to be remembered is given out. -/
theorem gave_emitted (h : timed = false → s.closed? a = none → (s.keyOf a, w) ∈ s.cache) :
    Gave s (s.emitted w) [(timed, a, w)] := by
  refine ⟨⟨rfl, rfl, rfl⟩, by simp [emitted], fun p => ?_, id⟩
  show p ∈ s.cache ↔ _
  constructor
  · exact .inl
  · rintro (hp | ⟨g, hg, htimed, hopen, rfl⟩)
    · exact hp
    · obtain rfl := List.mem_singleton.1 hg
      exact h htimed hopen

/-- An outcome is recorded, and its word given out. -/
theorem gave_recorded {f : Found} (hopen : s.closed? a = none)
    (hnew : s.timer = false → s.cached? (s.keyOf a) = none) :
    Gave s ((s.recorded (if s.timer then none else some (s.keyOf a)) f).emitted (finalWord f))
      [(s.timer, a, finalWord f)] := by
  refine ⟨⟨rfl, rfl, rfl⟩, by simp [emitted, recorded], ?_, ?_⟩
  all_goals
    cases htimer : s.timer with
    | true => simp [emitted, recorded]
    | false => ?_
  · intro p
    simp [emitted, recorded, hopen, or_comm]
  · intro hnodup
    have hfresh := List.lookup_eq_none_iff.1 (hnew htimer)
    refine List.nodup_cons.2 ⟨fun hmem => ?_, hnodup⟩
    obtain ⟨p, hp, hkey⟩ := List.mem_map.1 hmem
    have hne := hfresh p hp
    rw [hkey, bne_self_eq_false] at hne
    cases hne

end Gave

theorem keyOf_recorded (s : Session) (key : Option String) (f : Found) (w : Word) :
    ((s.recorded key f).emitted w).keyOf = s.keyOf := rfl

theorem mem_of_lookup {α : Type} {l : List (String × α)} {key : String} {x : α}
    (h : l.lookup key = some x) : (key, x) ∈ l := by
  obtain ⟨l₁, l₂, rfl, -⟩ := List.lookup_eq_some_iff.1 h
  exact List.mem_append_right l₁ List.mem_cons_self

/-! ## One call -/

/-- What a call comes to: either every angle gets its answer, and the session accounts for the words, or
some angle has no answer, and the session is left as it was, up to its messages. -/
inductive Served (s : Session) (angles : List BinFloat) : Except Fault (List Word) → Session → Prop
  | answered {ws : List Word} {s' : Session}
      (answers : List.Forall₂ (fun a w => s.answer a = .ok w) angles ws)
      (gave : Gave s s' ((angles.zip ws).map (Prod.mk s.timer))) : Served s angles (.ok ws) s'
  | failed {e e' : Fault} {a : BinFloat} (mem : a ∈ angles) (answer : s.answer a = .error e')
      (reports : Array Report) : Served s angles (.error e) { s with reports }

section Word

variable {s : Session} {a : BinFloat}

/-- A faithful session gives the answer for an angle. -/
theorem word_answers (h : Faithful [a] s) :
    (∃ w s', s.answer a = .ok w ∧ Answers (word a) s (.ok w) s' ∧ Gave s s' [(s.timer, a, w)]) ∨
    ∃ e, s.answer a = .error e ∧ Answers (word a) s (.error e) s := by
  cases hform : s.closed? a with
  | some w =>
    refine .inl ⟨w, _, answer_of_closed hform, word_of_closed hform, gave_emitted fun _ hopen => ?_⟩
    rw [hform] at hopen
    cases hopen
  | none =>
    by_cases hnew : s.timer = false → s.cached? (s.keyOf a) = none
    · rw [answer_of_open hform]
      cases hout : s.outcome a (s.keyOf a) with
      | ok f => exact .inl ⟨_, _, rfl, word_of_outcome hform hnew hout, gave_recorded hform hnew⟩
      | error e => exact .inr ⟨e, rfl, word_of_outcome_error hform hnew hout⟩
    · push Not at hnew
      obtain ⟨htimer, hcached⟩ := hnew
      obtain ⟨w, hw⟩ := Option.ne_none_iff_exists'.1 hcached
      have hmem := mem_of_lookup hw
      exact .inl ⟨w, _, h _ hmem a List.mem_cons_self hform rfl, word_of_cached hform htimer hw,
        gave_emitted fun _ _ => hmem⟩

end Word

/-! ## A batch -/

/-- What `answerAll` relies on, with the outcomes that are at hand and the angles to come: what is
remembered and what is at hand are right, no key is in both unless the timer is on, and every angle without
a closed form will find its word. -/
structure Ready (s : Session) (found : List (String × Found)) (angles : List BinFloat) : Prop where
  faithful : Faithful angles s
  outcome : ∀ a ∈ angles, s.closed? a = none → ∀ f, found.lookup (s.keyOf a) = some f →
    s.outcome a (s.keyOf a) = .ok f
  new : s.timer = false → ∀ key f, found.lookup key = some f → s.cached? key = none
  known : ∀ a ∈ angles, s.closed? a = none → (∃ w, s.cached? (s.keyOf a) = some w) ∨
    (∃ f, found.lookup (s.keyOf a) = some f) ∨
    s.timer = true ∧ ∃ f, s.outcome a (s.keyOf a) = .ok f

section Ready

variable {s : Session} {found : List (String × Found)} {a : BinFloat} {angles : List BinFloat}

/-- A word given out, and an outcome recorded without a key, leave all this as it is. -/
theorem Ready.next (h : Ready s found (a :: angles)) {s' : Session} (hs : Agrees s s')
    (htimer : s'.timer = s.timer) (hcache : s'.cache = s.cache) : Ready s' found angles := by
  obtain ⟨hfaithful, houtcome, hnew, hknown⟩ := h
  constructor
  · unfold Faithful
    rw [hs.keyOf_eq, hs.closed?_eq, hs.answer_eq, hcache]
    exact fun p hp b hb => hfaithful p hp b (List.mem_cons_of_mem _ hb)
  · rw [hs.keyOf_eq, hs.closed?_eq, hs.outcome_eq]
    exact fun b hb => houtcome b (List.mem_cons_of_mem _ hb)
  · unfold cached?
    rw [htimer, hcache]
    exact hnew
  · unfold cached?
    rw [hs.keyOf_eq, hs.closed?_eq, hs.outcome_eq, htimer, hcache]
    exact fun b hb => hknown b (List.mem_cons_of_mem _ hb)

/-- What is at hand for an angle is the outcome of its search. -/
theorem Ready.answer_eq (h : Ready s found (a :: angles)) (hform : s.closed? a = none) {f : Found}
    (hf : found.lookup (s.keyOf a) = some f) : s.answer a = .ok (finalWord f) := by
  rw [answer_of_open hform, h.outcome a List.mem_cons_self hform f hf]
  rfl

theorem Ready.mono {angles' : List BinFloat} (h : Ready s found angles) (hsub : angles' ⊆ angles) :
    Ready s found angles' :=
  ⟨fun p hp b hb => h.faithful p hp b (hsub hb), fun b hb => h.outcome b (hsub hb), h.new,
    fun b hb => h.known b (hsub hb)⟩

/-- With the timer on, an outcome that is used up is found again where it is needed. -/
theorem Ready.recorded_of_timed (h : Ready s found (a :: angles)) (htimer : s.timer = true) {f : Found}
    (hf : found.lookup (s.keyOf a) = some f) :
    Ready ((s.recorded none f).emitted (finalWord f)) (dropKey (s.keyOf a) found) angles := by
  have hnext : Ready ((s.recorded none f).emitted (finalWord f)) found angles :=
    h.next ⟨rfl, rfl, rfl⟩ rfl rfl
  refine ⟨hnext.faithful, fun b hb hopen g hg => ?_, fun hoff => ?_, fun b hb hopen => ?_⟩
  · rw [lookup_dropKey] at hg
    split at hg
    · cases hg
    · exact hnext.outcome b hb hopen g hg
  · cases htimer.symm.trans hoff
  · rw [lookup_dropKey, keyOf_recorded]
    by_cases hkey : s.keyOf b = s.keyOf a
    · exact .inr (.inr ⟨htimer, f, hnext.outcome b hb hopen f (by rw [← hf, ← hkey, keyOf_recorded])⟩)
    · rw [if_neg (mt beq_iff_eq.1 hkey)]
      exact hnext.known b hb hopen

/-- With the timer off, an outcome that is used up is remembered. -/
theorem Ready.recorded_of_untimed (h : Ready s found (a :: angles)) (htimer : s.timer = false)
    {f : Found} (hf : found.lookup (s.keyOf a) = some f) :
    Ready ((s.recorded (some (s.keyOf a)) f).emitted (finalWord f)) (dropKey (s.keyOf a) found)
      angles := by
  have hrest := h.mono (List.subset_cons_self a angles)
  have hcached (k : String) : ((s.recorded (some (s.keyOf a)) f).emitted (finalWord f)).cached? k
      = if k == s.keyOf a then some (finalWord f) else s.cached? k := by
    show List.lookup k ((s.keyOf a, finalWord f) :: s.cache) = _
    rw [List.lookup_cons]
    cases k == s.keyOf a <;> rfl
  refine ⟨fun p hp b hb hopen hkey => ?_, fun b hb hopen g hg => ?_, fun _ key g hg => ?_,
    fun b hb hopen => ?_⟩
  · rcases List.mem_cons.1 hp with rfl | hp
    · have hfb : found.lookup (s.keyOf b) = some f := by
        rw [← hf]
        exact congrArg (List.lookup · found) hkey
      show s.answer b = .ok (finalWord f)
      rw [answer_of_open (s := s) hopen, hrest.outcome b hb hopen f hfb]
      rfl
    · exact hrest.faithful p hp b hb hopen hkey
  · rw [lookup_dropKey] at hg
    split at hg
    · cases hg
    · exact hrest.outcome b hb hopen g hg
  · rw [lookup_dropKey] at hg
    rw [hcached]
    split at hg
    · cases hg
    · rename_i hne
      rw [if_neg hne]
      exact hrest.new htimer key g hg
  · rw [lookup_dropKey, hcached, keyOf_recorded]
    by_cases hkey : s.keyOf b = s.keyOf a
    · exact .inl ⟨finalWord f, if_pos (beq_iff_eq.2 hkey)⟩
    · rw [if_neg (mt beq_iff_eq.1 hkey), if_neg (mt beq_iff_eq.1 hkey)]
      exact hrest.known b hb hopen

/-- An open angle that is neither at hand nor remembered is a repeat in timer mode. -/
theorem Ready.repeated (h : Ready s found (a :: angles)) (hform : s.closed? a = none)
    (hfound : found.lookup (s.keyOf a) = none) (hcached : s.cached? (s.keyOf a) = none) :
    s.timer = true ∧ ∃ f, s.outcome a (s.keyOf a) = .ok f := by
  rcases h.known a List.mem_cons_self hform with ⟨w, hw⟩ | ⟨f, hf⟩ | hsearch
  · rw [hcached] at hw
    cases hw
  · rw [hfound] at hf
    cases hf
  · exact hsearch

/-- The search for a repeat is recorded without a key. -/
theorem gave_repeated (hform : s.closed? a = none) (hcached : s.cached? (s.keyOf a) = none)
    (htimer : s.timer = true) (f : Found) :
    Gave s ((s.recorded none f).emitted (finalWord f)) [(s.timer, a, finalWord f)] := by
  have h := gave_recorded (f := f) hform fun _ => hcached
  simp only [htimer, if_true] at h
  rw [htimer]
  exact h

/-- All angles get their answers, in order. -/
theorem answerAll_answers (h : Ready s found angles) :
    ∃ ws s', List.Forall₂ (fun a w => s.answer a = .ok w) angles ws ∧
      Answers (answerAll found (angles.map fun a => (s.keyOf a, a))) s (.ok ws) s' ∧
      Gave s s' ((angles.zip ws).map (Prod.mk s.timer)) := by
  rw [answerAll_eq]
  induction angles generalizing s found with
  | nil => exact ⟨[], s, .nil, .pure [] s, .refl s⟩
  | cons a angles ih =>
    cases hform : s.closed? a with
    | some w =>
      obtain ⟨ws, s', hws, hrun, hgave⟩ := ih (s := s.emitted w) (h.next ⟨rfl, rfl, rfl⟩ rfl rfl)
      refine ⟨w :: ws, s', .cons (answer_of_closed hform) hws, answerAllOr_of_closed hform hrun,
        Gave.trans (gave_emitted fun _ hopen => ?_) hgave⟩
      rw [hform] at hopen
      cases hopen
    | none =>
      cases hfound : found.lookup (s.keyOf a) with
      | some f =>
        have hnext : Ready
            ((s.recorded (if s.timer then none else some (s.keyOf a)) f).emitted (finalWord f))
            (dropKey (s.keyOf a) found) angles := by
          cases htimer : s.timer with
          | true => exact h.recorded_of_timed htimer hfound
          | false => exact h.recorded_of_untimed htimer hfound
        obtain ⟨ws, s', hws, hrun, hgave⟩ := ih hnext
        exact ⟨finalWord f :: ws, s', .cons (h.answer_eq hform hfound) hws,
          answerAllOr_of_outcome hform hfound hrun,
          (gave_recorded hform fun htimer => h.new htimer _ f hfound).trans hgave⟩
      | none =>
        cases hcached : s.cached? (s.keyOf a) with
        | some w =>
          have hmem := mem_of_lookup hcached
          obtain ⟨ws, s', hws, hrun, hgave⟩ := ih (s := s.emitted w) (h.next ⟨rfl, rfl, rfl⟩ rfl rfl)
          exact ⟨w :: ws, s',
            .cons (h.faithful _ hmem a List.mem_cons_self hform rfl) hws,
            answerAllOr_of_cached hform hfound hcached hrun,
            Gave.trans (gave_emitted fun _ _ => hmem) hgave⟩
        | none =>
          obtain ⟨htimer, f, hf⟩ := h.repeated hform hfound hcached
          obtain ⟨ws, s', hws, hrun, hgave⟩ := ih (s := (s.recorded none f).emitted (finalWord f))
            (h.next ⟨rfl, rfl, rfl⟩ rfl rfl)
          refine ⟨finalWord f :: ws, s', .cons ?_ hws,
            answerAllOr_of_fallback hform hfound hcached (searchAndRecord_answers hf false) hrun,
            (gave_repeated hform hcached htimer f).trans hgave⟩
          rw [answer_of_open hform, hf]
          rfl

end Ready

section Words

variable {closed : BinFloat → Bool} {known : String → Bool} {keyed : List (String × BinFloat)}

theorem mem_of_mem_needed {p : String × BinFloat} (h : p ∈ needed closed known keyed) :
    p ∈ keyed ∧ closed p.2 = false := by
  fun_induction needed closed known keyed with
  | case1 => cases h
  | case2 known key angle rest _ ih => exact (ih h).imp_left (List.mem_cons_of_mem _)
  | case3 known key angle rest hopen ih =>
    rcases List.mem_cons.1 h with rfl | h
    · exact ⟨List.mem_cons_self, (Bool.or_eq_false_iff.1 (Bool.eq_false_iff.2 hopen)).1⟩
    · exact (ih h).imp_left (List.mem_cons_of_mem _)

/-- A key that is not known, of an angle without a closed form, is searched for. -/
theorem exists_lookup_needed {key : String} {angle : BinFloat} (hmem : (key, angle) ∈ keyed)
    (hopen : closed angle = false) (hnew : known key = false) :
    ∃ b, (needed closed known keyed).lookup key = some b := by
  fun_induction needed closed known keyed with
  | case1 => cases hmem
  | case2 known key' angle' rest hskip ih =>
    rcases List.mem_cons.1 hmem with heq | hmem
    · cases heq
      rw [hopen, hnew] at hskip
      cases hskip
    · exact ih hmem hnew
  | case3 known key' angle' rest _ ih =>
    rw [List.lookup_cons]
    cases hkey : key == key' with
    | true => exact ⟨angle', rfl⟩
    | false =>
      rcases List.mem_cons.1 hmem with heq | hmem
      · cases heq
        rw [beq_self_eq_true] at hkey
        cases hkey
      · exact ih hmem (Bool.or_eq_false_iff.2 ⟨hkey, hnew⟩)

end Words

def searched (s : Session) (angles : List BinFloat) : List (String × BinFloat) :=
  needed (fun angle => (s.closed? angle).isSome) (fun key => !s.timer && (s.cached? key).isSome)
    (angles.map fun a => (s.keyOf a, a))

section Searched

variable {s : Session} {angles : List BinFloat}

theorem mem_searched {key : String} {b : BinFloat} (h : (key, b) ∈ s.searched angles) :
    b ∈ angles ∧ s.keyOf b = key ∧ s.closed? b = none ∧ (s.timer = false → s.cached? key = none) := by
  have hnew := not_known_of_mem_needed h
  obtain ⟨hmem, hclosed⟩ := mem_of_mem_needed h
  obtain ⟨a, ha, heq⟩ := List.mem_map.1 hmem
  cases heq
  refine ⟨ha, rfl, by simpa using hclosed, fun htimer => ?_⟩
  simpa [htimer] using hnew

theorem pendingFrom_answers_searched (s : Session) (angles : List BinFloat) :
    Answers (pendingFrom [] (angles.map fun a => (s.keyOf a, a))) s (.ok (s.searched angles)) s := by
  have h := pendingFrom_answers_needed s [] (angles.map fun a => (s.keyOf a, a))
  simp only [List.lookup_nil, Option.isSome_none, Bool.or_false, List.nil_append] at h
  exact h

theorem cached_or_searched {a : BinFloat} (ha : a ∈ angles) (hform : s.closed? a = none) :
    (∃ w, s.cached? (s.keyOf a) = some w) ∨
      ∃ b, (s.searched angles).lookup (s.keyOf a) = some b := by
  cases hcached : s.cached? (s.keyOf a) with
  | some w => exact .inl ⟨w, rfl⟩
  | none =>
    exact .inr (exists_lookup_needed (List.mem_map.2 ⟨a, ha, rfl⟩) (by rw [hform]; rfl)
      (by rw [hcached, Option.isSome_none, Bool.and_false]))

/-- The outcomes of the searches are all that the answers need, when no two angles share a key. -/
theorem ready_of_outcomes (hkeys : ∀ a ∈ angles, ∀ b ∈ angles, s.keyOf a = s.keyOf b → a = b)
    (h : Faithful angles s) (hok : ∀ p ∈ s.searched angles, ∃ f, s.outcome p.2 p.1 = .ok f)
    {found : List (String × Found)} (hlookup : ∀ key, found.lookup key
      = ((s.searched angles).lookup key).bind fun angle => (s.outcome angle key).toOption) :
    Ready s found angles := by
  have hsource {key : String} {f : Found} (hf : found.lookup key = some f) :
      ∃ b, (key, b) ∈ s.searched angles ∧ s.outcome b key = .ok f := by
    rw [hlookup] at hf
    obtain ⟨b, hb, hout⟩ := Option.bind_eq_some_iff.1 hf
    obtain ⟨g, hg⟩ := hok _ (mem_of_lookup hb)
    rw [hg] at hout
    cases hout
    exact ⟨b, mem_of_lookup hb, hg⟩
  refine ⟨h, fun a ha _ f hf => ?_, fun htimer key f hf => ?_, fun a ha hform => ?_⟩
  · obtain ⟨b, hb, hout⟩ := hsource hf
    obtain ⟨hmem, hkey, -⟩ := mem_searched hb
    rwa [hkeys a ha b hmem hkey.symm, hkey]
  · obtain ⟨b, hb, -⟩ := hsource hf
    exact (mem_searched hb).2.2.2 htimer
  · rcases cached_or_searched ha hform with hcached | ⟨b, hb⟩
    · exact .inl hcached
    · obtain ⟨f, hf⟩ := hok _ (mem_of_lookup hb)
      refine .inr (.inl ⟨f, ?_⟩)
      rw [hlookup, hb]
      exact congrArg Except.toOption hf

/-- A faithful session serves a batch in which no two angles share a key. -/
theorem words_served (hkeys : ∀ a ∈ angles, ∀ b ∈ angles, s.keyOf a = s.keyOf b → a = b)
    (h : Faithful angles s) : ∃ r s', Answers (words angles) s r s' ∧ Served s angles r s' := by
  by_cases hok : ∀ p ∈ s.searched angles, ∃ f, s.outcome p.2 p.1 = .ok f
  · obtain ⟨found, hsearch, hlookup⟩ := searchAll_answers hok
    obtain ⟨ws, s', hws, hrun, hgave⟩ := answerAll_answers (ready_of_outcomes hkeys h hok hlookup)
    exact ⟨.ok ws, s', .get fun _ => (pendingFrom_answers_searched s angles).bind (hsearch.bind hrun),
      .answered hws hgave⟩
  · push Not at hok
    obtain ⟨⟨key, b⟩, hp, hne⟩ := hok
    obtain ⟨hmem, rfl, hform, -⟩ := mem_searched hp
    cases hout : s.outcome b (s.keyOf b) with
    | ok f => exact absurd hout (hne f)
    | error e =>
      obtain ⟨e', hsearch⟩ := searchAll_error ⟨_, hp, e, hout⟩
      have hanswer : s.answer b = .error e := by
        rw [answer_of_open hform, hout]
        rfl
      exact ⟨.error e', s, .get fun _ => (pendingFrom_answers_searched s angles).bind hsearch.bind_error,
        .failed hmem hanswer s.reports⟩

end Searched

/-! ## Any call -/

section Call

variable {s s' : Session} {angles : List BinFloat} {r : Except Fault (List Word)} {q : Request}

/-- A faithful session serves every call in which no two angles share a key. -/
theorem reply_served (hkeys : ∀ a ∈ q.angles, ∀ b ∈ q.angles, s.keyOf a = s.keyOf b → a = b)
    (h : Faithful q.angles s) : ∃ r s', Answers q.reply s r s' ∧ Served s q.angles r s' := by
  cases q with
  | word a =>
    rcases word_answers h with ⟨w, s', hw, hrun, hgave⟩ | ⟨e, he, hrun⟩
    · exact ⟨.ok [w], s', hrun.bind (.pure _ s'), .answered (.cons hw .nil) hgave⟩
    · exact ⟨.error e, s, hrun.bind_error, .failed List.mem_cons_self he s.reports⟩
  | words angles => exact words_served hkeys h
  | setTimer on =>
    have hset : Answers (setTimer on) s (.ok ()) { s with timer := on } := fun reports => ⟨reports, rfl⟩
    refine ⟨.ok [], _, hset.bind (.pure _ _), .answered .nil ?_⟩
    exact ⟨⟨rfl, rfl, rfl⟩, (Int.add_zero _).symm, fun p => by simp [Request.angles], id⟩

theorem Served.withReports (h : Served s angles r s') (reports : Array Report) :
    Served s angles r { s' with reports } := by
  cases h with
  | answered hws hgave => exact .answered hws (hgave.withReports reports)
  | failed hmem ha _ => exact .failed hmem ha reports

/-- The run of a call, with the messages that it leaves. -/
theorem served_run (hkeys : ∀ a ∈ q.angles, ∀ b ∈ q.angles, s.keyOf a = s.keyOf b → a = b)
    (h : Faithful q.angles s) : Served s q.angles (q.reply.run s).1 (q.reply.run s).2 := by
  obtain ⟨r, s', hans, hserved⟩ := reply_served hkeys h
  obtain ⟨reports, hrun⟩ := hans.exists_run
  rw [hrun]
  exact hserved.withReports reports

theorem Served.agrees (h : Served s angles r s') : Agrees s s' := by
  cases h with
  | answered _ hgave => exact hgave.agrees
  | failed _ _ reports => exact ⟨rfl, rfl, rfl⟩

/-- A session stays faithful to all angles of a run. -/
theorem Served.faithful {all : List BinFloat} (h : Served s angles r s') (hsub : angles ⊆ all)
    (hkeys : ∀ a ∈ all, ∀ b ∈ all, s.keyOf a = s.keyOf b → a = b) (hs : Faithful all s) :
    Faithful all s' := by
  cases h with
  | failed _ _ reports => exact hs
  | answered hws hgave =>
    unfold Faithful
    rw [hgave.agrees.keyOf_eq, hgave.agrees.closed?_eq, hgave.agrees.answer_eq]
    intro p hp a ha hopen hkey
    rcases (hgave.cache p).1 hp with hp | ⟨g, hg, -, -, rfl⟩
    · exact hs p hp a ha hopen hkey
    · obtain ⟨⟨b, w⟩, hmem, rfl⟩ := List.mem_map.1 hg
      rw [hkeys a ha b (hsub (List.of_mem_zip hmem).1) hkey]
      exact (List.forall₂_iff_zip.1 hws).2 hmem

end Call

end CliffordT.Session
