/-
Several angles at once give what they give in turn.

Which angles have to be searched is settled before anything is recorded: those without a closed form whose
key is neither remembered nor has come up before. As the angles are answered in turn, the ones still to be
searched are what is left of that list, since recording an outcome makes its key known. So every outcome is
taken where the angle would be searched for, with the same generator, and a repeat finds its key
remembered. The searches do not see each other, and their outcomes are looked up by key; their order does
not matter, and a search in the middle of the answers is never made.
-/
import CliffordT.Proofs.Session.Runs
import CliffordT.Session.Batch

namespace CliffordT.Session

/-! ## The angles to be searched -/

/-- The angles that have no closed form and whose key is not known, the first one for each key. -/
def needed (closed : BinFloat → Bool) :
    (String → Bool) → List (String × BinFloat) → List (String × BinFloat)
  | _, [] => []
  | known, (key, angle) :: rest =>
    if closed angle || known key then needed closed known rest
    else (key, angle) :: needed closed (fun k => k == key || known k) rest

section Needed

variable {closed : BinFloat → Bool} {known : String → Bool} {keyed : List (String × BinFloat)}

theorem not_known_of_mem_needed {p : String × BinFloat} (h : p ∈ needed closed known keyed) :
    known p.1 = false := by
  fun_induction needed closed known keyed with
  | case1 => cases h
  | case2 known key angle rest _ ih => exact ih h
  | case3 known key angle rest hopen ih =>
    rcases List.mem_cons.1 h with rfl | h
    · exact (Bool.or_eq_false_iff.1 (Bool.eq_false_iff.2 hopen)).2
    · exact (Bool.or_eq_false_iff.1 (ih h)).2

theorem lookup_needed_of_known {key : String} (h : known key = true) :
    (needed closed known keyed).lookup key = none := by
  refine List.lookup_eq_none_iff.2 fun p hp => ?_
  have hp' := not_known_of_mem_needed hp
  refine bne_iff_ne.2 ?_
  rintro rfl
  rw [h] at hp'
  cases hp'

/-- No key is searched for twice. -/
theorem nodup_needed : ((needed closed known keyed).map Prod.fst).Nodup := by
  fun_induction needed closed known keyed with
  | case1 => exact List.nodup_nil
  | case2 _ _ _ _ _ ih => exact ih
  | case3 known key angle rest _ ih =>
    refine List.nodup_cons.2 ⟨fun hmem => ?_, ih⟩
    obtain ⟨p, hp, hkey⟩ := List.mem_map.1 hmem
    have hp' := not_known_of_mem_needed hp
    rw [hkey, beq_self_eq_true, Bool.true_or] at hp'
    cases hp'

end Needed

/-- With no key twice, the order of a list does not matter to what is looked up in it. -/
theorem lookup_eq_of_perm {α : Type} {l l' : List (String × α)} (h : l'.Perm l)
    (hl : (l.map Prod.fst).Nodup) (key : String) : l'.lookup key = l.lookup key := by
  induction h with
  | nil => rfl
  | cons p _ ih =>
    rw [List.lookup_cons, List.lookup_cons, ih (List.nodup_cons.1 hl).2]
  | swap p q l =>
    obtain ⟨k, a⟩ := p
    obtain ⟨k', a'⟩ := q
    obtain ⟨hp, -⟩ := List.nodup_cons.1 hl
    rw [List.map_cons, List.mem_cons, not_or] at hp
    simp only [List.lookup_cons]
    cases hkp : key == k with
    | false => rfl
    | true =>
      cases hkq : key == k' with
      | false => rfl
      | true => exact absurd ((beq_iff_eq.1 hkp).symm.trans (beq_iff_eq.1 hkq)) hp.1
  | trans _ h₂ ih₁ ih₂ =>
    exact (ih₁ ((h₂.map Prod.fst).nodup_iff.2 hl)).trans (ih₂ hl)

/-- The angles to be searched in a session. -/
def unanswered (s : Session) (keyed : List (String × BinFloat)) : List (String × BinFloat) :=
  needed (fun angle => (s.closed? angle).isSome) (fun key => (s.cached? key).isSome) keyed

/-- The list of the angles to be searched is what `pendingFrom` finds. In timer mode no key counts as
remembered. -/
theorem pendingFrom_answers_needed (s : Session) (found keyed : List (String × BinFloat)) :
    Answers (pendingFrom found keyed) s (.ok (found ++ needed (fun angle => (s.closed? angle).isSome)
      (fun key => !s.timer && (s.cached? key).isSome || (found.lookup key).isSome) keyed)) s := by
  induction keyed generalizing found with
  | nil =>
    rw [needed, List.append_nil]
    exact .pure found s
  | cons p rest ih =>
    obtain ⟨key, angle⟩ := p
    refine .get fun reports => ?_
    show Answers (if ((s.timer || (s.cached? key).isNone) && (found.lookup key).isNone) = true
      then _ else _) s _ s
    have hnot : ((s.timer || (s.cached? key).isNone) && (found.lookup key).isNone)
        = !(!s.timer && (s.cached? key).isSome || (found.lookup key).isSome) := by
      simp [Option.not_isSome]
    rw [hnot, needed]
    cases !s.timer && (s.cached? key).isSome || (found.lookup key).isSome with
    | true =>
      simp only [Bool.not_true, Bool.false_eq_true, if_false, Bool.or_true, if_true]
      exact ih found
    | false =>
      simp only [Bool.not_false, if_true, Bool.or_false]
      have hclosed := closedForm?_answers s angle
      cases hform : s.closed? angle with
      | some w =>
        rw [hform] at hclosed
        simp only [Option.isSome_some, if_true]
        exact hclosed.bind (ih found)
      | none =>
        rw [hform] at hclosed
        simp only [Option.isSome_none, Bool.false_eq_true, if_false]
        refine hclosed.bind ?_
        have hnext := ih (found ++ [(key, angle)])
        rw [List.append_assoc, List.singleton_append] at hnext
        have hknown (k : String) :
            (!s.timer && (s.cached? k).isSome || ((found ++ [(key, angle)]).lookup k).isSome)
              = (k == key || (!s.timer && (s.cached? k).isSome || (found.lookup k).isSome)) := by
          rw [List.lookup_append, List.lookup_cons, List.lookup_nil, Option.isSome_or]
          cases k == key with
          | false => simp
          | true => simp
        rw [funext hknown] at hnext
        exact hnext

/-- With the timer off, the keys that are remembered are known. -/
theorem pendingFrom_answers {s : Session} (htimer : s.timer = false) (found keyed) :
    Answers (pendingFrom found keyed) s (.ok (found ++ needed (fun angle => (s.closed? angle).isSome)
      (fun key => (s.cached? key).isSome || (found.lookup key).isSome) keyed)) s := by
  have h := pendingFrom_answers_needed s found keyed
  simp only [htimer, Bool.not_false, Bool.true_and] at h
  exact h

/-! ## The searches -/

/-- All searches succeed: their outcomes are found under the keys. -/
theorem searchAll_answers {s : Session} {l : List (String × BinFloat)}
    (h : ∀ p ∈ l, ∃ found, s.outcome p.2 p.1 = .ok found) :
    ∃ founds, Answers (searchAll l) s (.ok founds) s ∧
      ∀ key, founds.lookup key = (l.lookup key).bind fun angle => (s.outcome angle key).toOption := by
  induction l with
  | nil => exact ⟨[], .pure [] s, fun _ => rfl⟩
  | cons p l ih =>
    obtain ⟨key, angle⟩ := p
    obtain ⟨found, hfound⟩ := h (key, angle) List.mem_cons_self
    obtain ⟨founds, hrun, hlookup⟩ := ih fun p hp => h p (List.mem_cons_of_mem _ hp)
    have hsearch := search_answers s angle key
    rw [hfound] at hsearch
    refine ⟨(key, found) :: founds, hsearch.bind (hrun.bind (.pure _ s)), fun k => ?_⟩
    rw [List.lookup_cons, List.lookup_cons, hlookup]
    cases hk : k == key with
    | false => rfl
    | true =>
      rw [beq_iff_eq.1 hk]
      show some found = (s.outcome angle key).toOption
      rw [hfound]
      rfl

/-- One search that fails ends them all. -/
theorem searchAll_error {s : Session} {l : List (String × BinFloat)}
    (h : ∃ p ∈ l, ∃ e, s.outcome p.2 p.1 = .error e) : ∃ e, Answers (searchAll l) s (.error e) s := by
  induction l with
  | nil => simp at h
  | cons p l ih =>
    obtain ⟨key, angle⟩ := p
    have hsearch := search_answers s angle key
    cases hout : s.outcome angle key with
    | error e =>
      rw [hout] at hsearch
      exact ⟨e, hsearch.bind_error⟩
    | ok found =>
      rw [hout] at hsearch
      obtain ⟨e, hrest⟩ := ih (by
        obtain ⟨q, hq, e, he⟩ := h
        rcases List.mem_cons.1 hq with rfl | hq
        · rw [hout] at he
          cases he
        · exact ⟨q, hq, e, he⟩)
      exact ⟨e, hsearch.bind hrest.bind_error⟩

/-! ## The answers -/

/-- The answers of `answerAll`, with another computation in place of the search in their middle. -/
def answerAllOr (fallback : BinFloat → String → InSession Word) (found : List (String × Found)) :
    List (String × BinFloat) → InSession (List Word)
  | [] => return []
  | (key, angle) :: rest => do
    match ← closedForm? angle with
    | some w =>
      let w ← emit w
      return w :: (← answerAllOr fallback found rest)
    | none =>
      let s ← get
      match found.lookup key with
      | some f =>
        let w ← emit (← record angle (if s.timer then none else some key) f)
        return w :: (← answerAllOr fallback (dropKey key found) rest)
      | none =>
        match s.cached? key with
        | some w =>
          let w ← emit w
          return w :: (← answerAllOr fallback found rest)
        | none =>
          let w ← emit (← fallback angle key)
          return w :: (← answerAllOr fallback found rest)

theorem answerAll_eq (found : List (String × Found)) (keyed : List (String × BinFloat)) :
    answerAll found keyed
      = answerAllOr (fun angle key => searchAndRecord angle key false) found keyed := by
  induction keyed generalizing found with
  | nil => rfl
  | cons p rest ih =>
    obtain ⟨key, angle⟩ := p
    unfold answerAll answerAllOr
    refine bind_congr fun form => ?_
    cases form with
    | some w => exact bind_congr fun w => by rw [ih]
    | none =>
      refine bind_congr fun s => ?_
      cases found.lookup key with
      | some f => exact bind_congr fun w => bind_congr fun w => by rw [ih]
      | none =>
        cases s.cached? key with
        | some w => exact bind_congr fun w => by rw [ih]
        | none => exact bind_congr fun w => bind_congr fun w => by rw [ih]

/-- The words of several angles, with the searches in the order that `shuffle` gives them, and with
another computation in place of the search in the middle of the answers. -/
def wordsWith (shuffle : List (String × BinFloat) → List (String × BinFloat))
    (fallback : BinFloat → String → InSession Word) (angles : List BinFloat) :
    InSession (List Word) := do
  let s ← get
  let keyed := angles.map fun angle => (s.keyOf angle, angle)
  let pending ← pendingFrom [] keyed
  answerAllOr fallback (← searchAll (shuffle pending)) keyed

theorem words_eq (angles : List BinFloat) :
    words angles = wordsWith id (fun angle key => searchAndRecord angle key false) angles := by
  unfold words wordsWith
  simp only [answerAll_eq, id]

section Answering

variable {fallback : BinFloat → String → InSession Word} {s s₁ s₂ : Session} {angle : BinFloat}
  {key : String} {w : Word} {ws : List Word} {found : List (String × Found)}
  {rest : List (String × BinFloat)}

/-- An angle with a closed form. -/
theorem answerAllOr_of_closed (hform : s.closed? angle = some w)
    (hrest : Answers (answerAllOr fallback found rest) (s.emitted w) (.ok ws) s₂) :
    Answers (answerAllOr fallback found ((key, angle) :: rest)) s (.ok (w :: ws)) s₂ := by
  have hclosed := closedForm?_answers s angle
  rw [hform] at hclosed
  exact hclosed.bind ((emit_answers w s).bind (hrest.bind (.pure _ s₂)))

/-- An angle whose key is remembered. -/
theorem answerAllOr_of_cached (hform : s.closed? angle = none) (hnot : found.lookup key = none)
    (hcached : s.cached? key = some w)
    (hrest : Answers (answerAllOr fallback found rest) (s.emitted w) (.ok ws) s₂) :
    Answers (answerAllOr fallback found ((key, angle) :: rest)) s (.ok (w :: ws)) s₂ := by
  have hclosed := closedForm?_answers s angle
  rw [hform] at hclosed
  refine hclosed.bind (.get fun reports => ?_)
  show Answers (match found.lookup key with | some f => _ | none => _) s _ s₂
  rw [hnot]
  show Answers (match s.cached? key with | some w => _ | none => _) s _ s₂
  rw [hcached]
  exact (emit_answers w s).bind (hrest.bind (.pure _ s₂))

/-- An angle whose outcome is at hand; it is remembered unless the timer is on. -/
theorem answerAllOr_of_outcome {f : Found} (hform : s.closed? angle = none)
    (hfound : found.lookup key = some f)
    (hrest : Answers (answerAllOr fallback (dropKey key found) rest)
      ((s.recorded (if s.timer then none else some key) f).emitted (finalWord f)) (.ok ws) s₂) :
    Answers (answerAllOr fallback found ((key, angle) :: rest)) s (.ok (finalWord f :: ws)) s₂ := by
  have hclosed := closedForm?_answers s angle
  rw [hform] at hclosed
  refine hclosed.bind (.get fun reports => ?_)
  show Answers (match found.lookup key with | some f => _ | none => _) s _ s₂
  rw [hfound]
  exact (record_answers s angle (if s.timer then none else some key) f).bind
    ((emit_answers _ _).bind (hrest.bind (.pure _ s₂)))

/-- An angle whose outcome is at hand, with the timer off. -/
theorem answerAllOr_of_found {f : Found} (htimer : s.timer = false) (hform : s.closed? angle = none)
    (hfound : found.lookup key = some f)
    (hrest : Answers (answerAllOr fallback (dropKey key found) rest)
      ((s.recorded (some key) f).emitted (finalWord f)) (.ok ws) s₂) :
    Answers (answerAllOr fallback found ((key, angle) :: rest)) s (.ok (finalWord f :: ws)) s₂ :=
  answerAllOr_of_outcome hform hfound (by rw [htimer]; exact hrest)

/-- An angle that is left to the other computation. -/
theorem answerAllOr_of_fallback (hform : s.closed? angle = none) (hnot : found.lookup key = none)
    (hcached : s.cached? key = none) (hword : Answers (fallback angle key) s (.ok w) s₁)
    (hrest : Answers (answerAllOr fallback found rest) (s₁.emitted w) (.ok ws) s₂) :
    Answers (answerAllOr fallback found ((key, angle) :: rest)) s (.ok (w :: ws)) s₂ := by
  have hclosed := closedForm?_answers s angle
  rw [hform] at hclosed
  refine hclosed.bind (.get fun reports => ?_)
  show Answers (match found.lookup key with | some f => _ | none => _) s _ s₂
  rw [hnot]
  show Answers (match s.cached? key with | some w => _ | none => _) s _ s₂
  rw [hcached]
  exact hword.bind ((emit_answers w _).bind (hrest.bind (.pure _ s₂)))

end Answering

theorem lookup_dropKey {α : Type} (key k : String) (l : List (String × α)) :
    (dropKey key l).lookup k = if k == key then none else l.lookup k := by
  induction l with
  | nil => simp [dropKey]
  | cons p l ih =>
    unfold dropKey at ih ⊢
    rw [List.filter_cons]
    cases hp : p.1 != key with
    | false =>
      have hp' : p.1 = key := by simpa using hp
      rw [if_neg (by decide), ih, List.lookup_cons, hp']
      cases k == key with
      | false => rfl
      | true => rfl
    | true =>
      have hp' : p.1 ≠ key := bne_iff_ne.1 hp
      rw [if_pos rfl, List.lookup_cons, ih, List.lookup_cons]
      cases hk : k == p.1 with
      | false => rfl
      | true =>
        have hne : (k == key) = false := by
          rw [beq_iff_eq.1 hk]
          exact beq_false_of_ne hp'
        rw [hne]
        rfl

/-- A recorded key is remembered, and the others are what they were. -/
theorem isSome_cached_recorded (s : Session) (key k : String) (found : Found) (w : Word) :
    (((s.recorded (some key) found).emitted w).cached? k).isSome
      = (k == key || (s.cached? k).isSome) := by
  show (List.lookup k ((key, finalWord found) :: s.cache)).isSome = _
  rw [List.lookup_cons]
  cases k == key with
  | false => rfl
  | true => rfl

/-! ## What is left to be searched -/

/-- The outcomes at hand are those of the angles still to be searched. -/
def Holds (s : Session) (found : List (String × Found)) (keyed : List (String × BinFloat)) : Prop :=
  ∀ key, found.lookup key
    = ((s.unanswered keyed).lookup key).bind fun angle => (s.outcome angle key).toOption

section Unanswered

variable {s : Session} {angle : BinFloat} {key : String} {rest : List (String × BinFloat)}
  {found : List (String × Found)} {f : Found} {w : Word}

theorem unanswered_cons_of_closed (hform : s.closed? angle = some w) :
    s.unanswered ((key, angle) :: rest) = s.unanswered rest := by
  rw [unanswered, needed, hform, Option.isSome_some, Bool.true_or, if_pos rfl]
  rfl

theorem unanswered_cons_of_cached (hcached : s.cached? key = some w) :
    s.unanswered ((key, angle) :: rest) = s.unanswered rest := by
  rw [unanswered, needed, hcached, Option.isSome_some, Bool.or_true, if_pos rfl]
  rfl

theorem mem_unanswered_of_open (hform : s.closed? angle = none) (hcached : s.cached? key = none) :
    (key, angle) ∈ s.unanswered ((key, angle) :: rest) := by
  rw [unanswered, needed, hform, hcached, if_neg (by decide)]
  exact List.mem_cons_self

/-- An angle that is searched comes before what is left once its outcome is recorded. -/
theorem unanswered_cons_of_open (hform : s.closed? angle = none) (hcached : s.cached? key = none) (f : Found)
    (w : Word) : s.unanswered ((key, angle) :: rest)
      = (key, angle) :: ((s.recorded (some key) f).emitted w).unanswered rest := by
  have hknown := funext fun k => isSome_cached_recorded s key k f w
  rw [unanswered, needed, hform, hcached, if_neg (by decide), unanswered, hknown]
  rfl

/-- A recorded key is not searched for. -/
theorem lookup_unanswered_recorded :
    (((s.recorded (some key) f).emitted w).unanswered rest).lookup key = none :=
  lookup_needed_of_known (by rw [isSome_cached_recorded, beq_self_eq_true, Bool.true_or])

theorem Holds.lookup_of_cached (h : s.Holds found rest) (hcached : s.cached? key = some w) :
    found.lookup key = none := by
  rw [h, unanswered, lookup_needed_of_known (by rw [hcached]; rfl)]
  rfl

theorem Holds.lookup_of_open (h : s.Holds found ((key, angle) :: rest)) (hform : s.closed? angle = none)
    (hcached : s.cached? key = none) (hf : s.outcome angle key = .ok f) : found.lookup key = some f := by
  rw [h, unanswered_cons_of_open hform hcached f (finalWord f), List.lookup_cons_self]
  show (s.outcome angle key).toOption = some f
  rw [hf]
  rfl

/-- Recording an outcome leaves the outcomes of the others at hand. -/
theorem Holds.recorded (h : s.Holds found ((key, angle) :: rest)) (hform : s.closed? angle = none)
    (hcached : s.cached? key = none) :
    ((s.recorded (some key) f).emitted w).Holds (dropKey key found) rest := by
  intro k
  rw [lookup_dropKey, h, unanswered_cons_of_open hform hcached f w, List.lookup_cons]
  cases hk : k == key with
  | false => rfl
  | true =>
    rw [beq_iff_eq.1 hk, lookup_unanswered_recorded]
    rfl

end Unanswered

/-! ## The two ways compared -/

/-- When all searches succeed, the angles get the same answers in turn and from the outcomes. -/
theorem answers_agree (fallback : BinFloat → String → InSession Word) {s : Session}
    (htimer : s.timer = false) {angles : List BinFloat} {found : List (String × Found)}
    (hfound : s.Holds found (angles.map fun angle => (s.keyOf angle, angle)))
    (hok : ∀ p ∈ s.unanswered (angles.map fun angle => (s.keyOf angle, angle)),
      ∃ f, s.outcome p.2 p.1 = .ok f) :
    ∃ ws s', Answers (angles.mapM word) s (.ok ws) s' ∧
      Answers (answerAllOr fallback found (angles.map fun angle => (s.keyOf angle, angle))) s (.ok ws)
        s' := by
  induction angles generalizing s found with
  | nil => exact ⟨[], s, .pure [] s, .pure [] s⟩
  | cons angle angles ih =>
    rw [List.mapM_cons]
    rw [List.map_cons] at hfound hok
    cases hform : s.closed? angle with
    | some w =>
      rw [Holds, unanswered_cons_of_closed hform] at hfound
      rw [unanswered_cons_of_closed hform] at hok
      obtain ⟨ws, s', hseq, hbatch⟩ := ih (s := s.emitted w) htimer hfound hok
      exact ⟨w :: ws, s', (word_of_closed hform).bind (hseq.bind (.pure _ s')),
        answerAllOr_of_closed hform hbatch⟩
    | none =>
      cases hcached : s.cached? (s.keyOf angle) with
      | some w =>
        have hnot := hfound.lookup_of_cached hcached
        rw [Holds, unanswered_cons_of_cached hcached] at hfound
        rw [unanswered_cons_of_cached hcached] at hok
        obtain ⟨ws, s', hseq, hbatch⟩ := ih (s := s.emitted w) htimer hfound hok
        exact ⟨w :: ws, s', (word_of_cached hform htimer hcached).bind (hseq.bind (.pure _ s')),
          answerAllOr_of_cached hform hnot hcached hbatch⟩
      | none =>
        obtain ⟨f, hf⟩ := hok _ (mem_unanswered_of_open hform hcached)
        rw [unanswered_cons_of_open hform hcached f (finalWord f)] at hok
        obtain ⟨ws, s', hseq, hbatch⟩ := ih
          (s := (s.recorded (some (s.keyOf angle)) f).emitted (finalWord f)) htimer
          (hfound.recorded hform hcached) fun p hp => hok p (List.mem_cons_of_mem _ hp)
        exact ⟨finalWord f :: ws, s',
          (word_of_found hform htimer hcached hf).bind (hseq.bind (.pure _ s')),
          answerAllOr_of_found htimer hform (hfound.lookup_of_open hform hcached hf) hbatch⟩

/-- When a search fails, the angles fail in turn as well. -/
theorem mapM_word_error {s : Session} (htimer : s.timer = false) {angles : List BinFloat}
    (h : ∃ p ∈ s.unanswered (angles.map fun angle => (s.keyOf angle, angle)),
      ∃ e, s.outcome p.2 p.1 = .error e) :
    ∃ e s', Answers (angles.mapM word) s (.error e) s' := by
  induction angles generalizing s with
  | nil =>
    obtain ⟨p, hp, -⟩ := h
    cases hp
  | cons angle angles ih =>
    rw [List.mapM_cons]
    rw [List.map_cons] at h
    cases hform : s.closed? angle with
    | some w =>
      rw [unanswered_cons_of_closed hform] at h
      obtain ⟨e, s', hrest⟩ := ih (s := s.emitted w) htimer h
      exact ⟨e, s', (word_of_closed hform).bind hrest.bind_error⟩
    | none =>
      cases hcached : s.cached? (s.keyOf angle) with
      | some w =>
        rw [unanswered_cons_of_cached hcached] at h
        obtain ⟨e, s', hrest⟩ := ih (s := s.emitted w) htimer h
        exact ⟨e, s', (word_of_cached hform htimer hcached).bind hrest.bind_error⟩
      | none =>
        cases hout : s.outcome angle (s.keyOf angle) with
        | error e => exact ⟨e, s, (word_of_error hform htimer hcached hout).bind_error⟩
        | ok f =>
          rw [unanswered_cons_of_open hform hcached f (finalWord f)] at h
          obtain ⟨p, hp, e, he⟩ := h
          obtain ⟨e', s', hrest⟩ := ih
            (s := (s.recorded (some (s.keyOf angle)) f).emitted (finalWord f)) htimer (by
              rcases List.mem_cons.1 hp with rfl | hp
              · rw [hout] at he
                cases he
              · exact ⟨p, hp, e, he⟩)
          exact ⟨e', s', (word_of_found hform htimer hcached hout).bind hrest.bind_error⟩

/-- **Words asked for at once are the words asked for in turn.** In a session with the timer off, the
words of several angles are given exactly when each of them is given in turn; they are then the same, and
so is the session that is left, up to its messages. If a search fails, the session is left as it was, up
to its messages. This is so in whatever order the searches are made; and since it is so whatever is put
in the place of the search in the middle of the answers, that one is never made. -/
theorem words_refine_word {s : Session} (htimer : s.timer = false) (angles : List BinFloat)
    {shuffle : List (String × BinFloat) → List (String × BinFloat)}
    (hshuffle : ∀ l, (shuffle l).Perm l) (fallback : BinFloat → String → InSession Word) :
    words angles = wordsWith id (fun angle key => searchAndRecord angle key false) angles ∧
    match (angles.mapM word).run s with
    | (.ok ws, s') =>
      ∃ reports, (wordsWith shuffle fallback angles).run s = (.ok ws, { s' with reports })
    | (.error _, _) =>
      ∃ e reports, (wordsWith shuffle fallback angles).run s = (.error e, { s with reports }) := by
  refine ⟨words_eq angles, ?_⟩
  have hpending := pendingFrom_answers htimer [] (angles.map fun angle => (s.keyOf angle, angle))
  simp only [List.lookup_nil, Option.isSome_none, Bool.or_false, List.nil_append] at hpending
  change Answers _ s (.ok (s.unanswered _)) s at hpending
  have hperm := hshuffle (s.unanswered (angles.map fun angle => (s.keyOf angle, angle)))
  by_cases hok : ∀ p ∈ s.unanswered (angles.map fun angle => (s.keyOf angle, angle)),
      ∃ f, s.outcome p.2 p.1 = .ok f
  · obtain ⟨founds, hsearch, hlookup⟩ := searchAll_answers fun p hp => hok p (hperm.mem_iff.1 hp)
    have hholds : s.Holds founds (angles.map fun angle => (s.keyOf angle, angle)) := fun key => by
      rw [hlookup, lookup_eq_of_perm hperm nodup_needed]
    obtain ⟨ws, s', hseq, hbatch⟩ := answers_agree fallback htimer hholds hok
    obtain ⟨reports, hrun⟩ := hseq.exists_run
    rw [hrun]
    have hwords : Answers (wordsWith shuffle fallback angles) s (.ok ws) s' :=
      .get fun _ => hpending.bind (hsearch.bind hbatch)
    exact hwords.exists_run
  · push Not at hok
    obtain ⟨p, hp, hne⟩ := hok
    obtain ⟨e, he⟩ : ∃ e, s.outcome p.2 p.1 = .error e := by
      cases hout : s.outcome p.2 p.1 with
      | error e => exact ⟨e, rfl⟩
      | ok f => exact absurd hout (hne f)
    obtain ⟨e', s', hseq⟩ := mapM_word_error htimer ⟨p, hp, e, he⟩
    obtain ⟨e'', hsearch⟩ := searchAll_error ⟨p, hperm.mem_iff.2 hp, e, he⟩
    obtain ⟨reports, hrun⟩ := hseq.exists_run
    rw [hrun]
    have hwords : Answers (wordsWith shuffle fallback angles) s (.error e'') s :=
      .get fun _ => hpending.bind hsearch.bind_error
    exact ⟨e'', hwords.exists_run⟩

/-- A new session at one digit, over the generated table. -/
def atOneDigit : Session :=
  { ctx :=
      { Constants.ofDigits 1 with
        kmin := 0, kmax := 100, factorEffort := 200, fermatRounds := 5, rootAttempts := 10 }
    table := GateTable.generate
    seed := 1
    check := true
    details := false
    timer := false
    cache := []
    phaseCount := 0
    valid := true
    reports := #[] }

/-- Three angles, two of them the same, searched for from the last to the first, with a fault in the place
of any other search. -/
theorem words_refine_word_reverse :
    ∃ s : Session, s = atOneDigit ∧ s.timer = false ∧
      (∀ l : List (String × BinFloat), l.reverse.Perm l) ∧
      match ([.twoPow (-1) 148, .twoPow 3 148, .twoPow (-1) 148].mapM word).run s with
      | (.ok ws, s') => ∃ reports,
        (wordsWith List.reverse (fun _ _ => throw (.internal "searched again"))
          [.twoPow (-1) 148, .twoPow 3 148, .twoPow (-1) 148]).run s = (.ok ws, { s' with reports })
      | (.error _, _) => ∃ e reports,
        (wordsWith List.reverse (fun _ _ => throw (.internal "searched again"))
          [.twoPow (-1) 148, .twoPow 3 148, .twoPow (-1) 148]).run s = (.error e, { s with reports }) :=
  ⟨atOneDigit, rfl, rfl, fun l => l.reverse_perm,
    (words_refine_word rfl _ (fun l => l.reverse_perm) _).2⟩

end CliffordT.Session
