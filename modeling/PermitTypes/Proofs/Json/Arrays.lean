import PermitTypes.Json.Elements
import PermitTypes.Proofs.Json.Reading

namespace PermitTypes.Json

open Grammar Meaning

variable {σ ι ε α : Type}

/-- What the items of a bracket come to, from a state on. -/
def outcome (step : σ → ι → Option σ) (finish : σ → Except ε α) (st : σ) (items : List ι) :
    Option α :=
  (items.foldlM step st).bind fun st => (finish st).toOption

theorem outcome_nil_eq_some {step : σ → ι → Option σ} {finish : σ → Except ε α} {st : σ} {a : α} :
    outcome step finish st [] = some a ↔ finish st = .ok a := by
  change (finish st).toOption = some a ↔ _
  cases finish st <;> simp [Except.toOption]

theorem outcome_cons (step : σ → ι → Option σ) (finish : σ → Except ε α) (st : σ) (i : ι)
    (items : List ι) :
    outcome step finish st (i :: items) =
      (step st i).bind fun st => outcome step finish st items := by
  simp only [outcome, List.foldlM_cons, Option.bind_eq_bind, Option.bind_assoc]

namespace Elements

/-- What is left of an array after its bracket, or after one of its elements. -/
def Left (first : Bool) (s : List Char) (ts : List Raw) (rest : List Char) : Prop :=
  if first then Value ('[' :: s) (.array ts) rest else MoreElements s ts rest

theorem left_close {first : Bool} {s rest : List Char} (h : skipSpace s = ']' :: rest) :
    Left first s [] rest := by
  cases first with
  | true => exact .emptyArray (blanks_of_skipSpace h)
  | false => exact .close (blanks_of_skipSpace h)

theorem nextElement_eq_false {first : Bool} {s rest : List Char}
    (h : nextElement first s = .ok (false, rest)) : skipSpace s = ']' :: rest := by
  unfold nextElement at h
  split at h
  · cases h
  · rename_i hs
    cases h
    exact hs
  · split at h
    · cases h
    · split at h
      · split at h <;> cases h
      · cases h

theorem left_next {first : Bool} {s v r rest : List Char} {t : Raw} {ts : List Raw}
    (h : nextElement first s = .ok (true, v)) (ht : Value (skipSpace v) t r)
    (hts : MoreElements r ts rest) : Left first s (t :: ts) rest := by
  unfold nextElement at h
  split at h
  · cases h
  · cases h
  · rename_i c r' _ hs
    split at h
    · rename_i hfirst
      cases h
      subst hfirst
      rw [← hs, skipSpace_skipSpace] at ht
      exact .array (blanks_skipSpace s) ht hts
    · rename_i hfirst
      obtain rfl := Bool.eq_false_iff.2 hfirst
      split at h
      · rename_i hc
        subst hc
        split at h
        · cases h
        · cases h
        · cases h
          rw [skipSpace_skipSpace] at ht
          exact .next (blanks_of_skipSpace hs) (blanks_skipSpace r') ht hts
      · cases h

theorem nextElement_close {s rest : List Char} (h : skipSpace s = ']' :: rest) (first : Bool) :
    nextElement first s = .ok (false, rest) := by
  simp only [nextElement, h]

theorem endElements_eq_ok {s rest : List Char} :
    endElements s = .ok rest ↔ skipSpace s = ']' :: rest := by
  constructor
  · intro h
    unfold endElements at h
    split at h
    · cases h
    · rename_i hs
      cases h
      exact hs
    · split at h <;> cases h
    · cases h
  · intro h
    simp only [endElements, h]

theorem nextElement_first {s r : List Char} {c : Char} (hs : skipSpace s = c :: r)
    (hc : c ≠ ']') : nextElement true s = .ok (true, c :: r) := by
  unfold nextElement
  rw [hs]
  split
  · rename_i he
    cases he
  · rename_i he
    exact absurd (List.cons.inj he).1 hc
  · rename_i he
    rw [if_pos rfl, he]

theorem nextElement_comma {s s' r : List Char} {c : Char} (hs : skipSpace s = ',' :: s')
    (hs' : skipSpace s' = c :: r) (hc : c ≠ ']') :
    nextElement false s = .ok (true, c :: r) := by
  unfold nextElement
  rw [hs]
  split
  · rename_i he
    cases he
  · rename_i he
    exact absurd (List.cons.inj he).1 (by decide)
  · rename_i he
    obtain ⟨rfl, rfl⟩ := List.cons.inj he
    rw [if_neg Bool.false_ne_true, if_pos rfl, hs']
    split
    · rename_i he
      cases he
    · rename_i he
      exact absurd (List.cons.inj he).1 hc
    · rfl

theorem head_ne_close {v rest : List Char} {t : Raw} (h : Value v t rest) :
    ∃ c r, v = c :: r ∧ c ≠ ']' := by
  have hne : ∀ c ∈ starts, c ≠ ']' := List.all_iff_forall_prop.1 (by decide)
  obtain ⟨c, r, rfl, hc⟩ := h.head
  exact ⟨c, r, rfl, hne c hc⟩

/-- An array ends, or its next element is found. -/
theorem left_cases {first : Bool} {s rest : List Char} {ts : List Raw}
    (h : Left first s ts rest) :
    (ts = [] ∧ skipSpace s = ']' :: rest) ∨
    ∃ t ts' v r, ts = t :: ts' ∧ nextElement first s = .ok (true, v) ∧
      Value (skipSpace v) t r ∧ MoreElements r ts' rest := by
  cases first with
  | true =>
      change Value ('[' :: s) (.array ts) rest at h
      generalize hv : '[' :: s = v at h
      cases h with
      | emptyArray hb =>
          obtain ⟨-, rfl⟩ := List.cons.inj hv
          exact .inl ⟨rfl, hb.skipSpace_eq_cons (by decide)⟩
      | array hb ht hts =>
          obtain ⟨-, rfl⟩ := List.cons.inj hv
          have hs := hb.skipSpace_eq.trans ht.skipSpace_eq
          obtain ⟨c, r, rfl, hc⟩ := head_ne_close ht
          exact .inr ⟨_, _, c :: r, _, rfl, nextElement_first hs hc,
            by rwa [ht.skipSpace_eq], hts⟩
  | false =>
      change MoreElements s ts rest at h
      cases h with
      | close hb => exact .inl ⟨rfl, hb.skipSpace_eq_cons (by decide)⟩
      | next hb hb' ht hts =>
          have hs := hb'.skipSpace_eq.trans ht.skipSpace_eq
          obtain ⟨c, r, rfl, hc⟩ := head_ne_close ht
          exact .inr ⟨_, _, c :: r, _, rfl,
            nextElement_comma (hb.skipSpace_eq_cons (by decide)) hs hc,
            by rwa [ht.skipSpace_eq], hts⟩

variable (e : Elements σ α)

theorem loop_eq (first : Bool) (state : σ) (s : List Char) :
    e.loop first state s =
      match e.element state with
      | none =>
        match endElements s with
        | .error fault => .error fault
        | .ok rest => e.ended state rest
      | some reader =>
        match nextElement first s with
        | .error fault => .error fault
        | .ok (false, rest) => e.ended state rest
        | .ok (true, value) =>
          match reader.run value with
          | .error fault => .error fault
          | .ok (state, after) => e.loop false state after := by
  rw [loop]
  cases e.element state with
  | none => rfl
  | some reader =>
      dsimp only
      split
      · next hn => simp only [hn]
      · next hn => simp only [hn]
      · next hn =>
          split
          · next hv => simp only [hn, hv]
          · next hv => simp only [hn, hv]

theorem loop_of_close {st : σ} {s rest : List Char} (hs : skipSpace s = ']' :: rest)
    (first : Bool) : e.loop first st s = e.ended st rest := by
  rw [loop_eq]
  cases e.element st with
  | none => simp only [endElements_eq_ok.2 hs]
  | some reader => simp only [nextElement_close hs]

theorem loop_of_next {first : Bool} {st st' : σ} {s v after : List Char} {reader : Reader σ}
    (he : e.element st = some reader) (hn : nextElement first s = .ok (true, v))
    (hv : reader.run v = .ok (st', after)) : e.loop first st s = e.loop false st' after := by
  rw [loop_eq]
  simp only [he, hn, hv]

theorem loop_of_error {first : Bool} {st : σ} {s v : List Char} {reader : Reader σ} {f : Fault}
    (he : e.element st = some reader) (hn : nextElement first s = .ok (true, v))
    (hv : reader.run v = .error f) : e.loop first st s = .error f := by
  rw [loop_eq]
  simp only [he, hn, hv]

theorem ended_eq_ok {st : σ} {s rest : List Char} {a : α} :
    e.ended st s = .ok (a, rest) ↔ e.finish st = .ok a ∧ rest = s := by
  unfold ended
  cases e.finish st with
  | error cause => simp
  | ok b => simp [eq_comm]

/-- How the elements of an array change a valid state, if they may. -/
structure Steps (e : Elements σ α) (valid : σ → Prop) (stepD stepE : σ → Raw → Option σ) :
    Prop where
  start : valid e.start
  keeps : ∀ {st st' t}, valid st → stepD st t = some st' → valid st'
  stop : ∀ {st}, e.element st = none → ∀ t, stepE st t = none
  reads : ∀ {st reader}, valid st → e.element st = some reader → Reads reader (stepD st) (stepE st)

variable {e} {valid : σ → Prop} {stepD stepE : σ → Raw → Option σ}

theorem loop_sound (hsteps : e.Steps valid stepD stepE) {first : Bool} {st : σ}
    {s rest : List Char} {a : α} (hvalid : valid st) (h : e.loop first st s = .ok (a, rest)) :
    ∃ ts, Left first s ts rest ∧ outcome stepD e.finish st ts = some a := by
  unfold loop at h
  split at h
  · split at h
    · cases h
    · rename_i hs
      obtain ⟨hfinish, rfl⟩ := e.ended_eq_ok.1 h
      exact ⟨[], left_close (endElements_eq_ok.1 hs), outcome_nil_eq_some.2 hfinish⟩
  · rename_i reader he
    split at h
    · cases h
    · rename_i hn
      obtain ⟨hfinish, rfl⟩ := e.ended_eq_ok.1 h
      exact ⟨[], left_close (nextElement_eq_false hn), outcome_nil_eq_some.2 hfinish⟩
    · rename_i v hn
      have hlv := length_of_nextElement hn
      split at h
      · cases h
      · rename_i st' after hv
        have hla := reader.shrinks hv
        obtain ⟨t, ht, hst⟩ := (hsteps.reads hvalid he).sound hv
        obtain ⟨ts, hts, ha⟩ := loop_sound hsteps (hsteps.keeps hvalid hst) h
        refine ⟨t :: ts, left_next hn ht hts, ?_⟩
        rw [outcome_cons, hst]
        exact ha
termination_by s.length
decreasing_by simp only [if_true] at *; omega

theorem loop_answers (hsteps : e.Steps valid stepD stepE) {ts : List Raw} {first : Bool} {st : σ}
    {s rest : List Char} {a : α} (hvalid : valid st) (h : Left first s ts rest)
    (ha : outcome stepE e.finish st ts = some a) :
    Answers (outcome stepD e.finish st ts) rest (e.loop first st s) := by
  induction ts generalizing first st s with
  | nil =>
      rcases left_cases h with ⟨-, hs⟩ | ⟨_, _, _, _, hts, -⟩
      · have hfinish := outcome_nil_eq_some.1 ha
        rw [outcome_nil_eq_some.2 hfinish, loop_of_close e hs]
        exact e.ended_eq_ok.2 ⟨hfinish, rfl⟩
      · cases hts
  | cons t ts ih =>
      rcases left_cases h with ⟨hts, -⟩ | ⟨_, _, v, r, hts, hn, ht, hmore⟩
      · cases hts
      · obtain ⟨rfl, rfl⟩ := List.cons.inj hts
        rw [outcome_cons] at ha ⊢
        obtain ⟨st', hst, ha⟩ := Option.bind_eq_some_iff.1 ha
        cases he : e.element st with
        | none =>
            rw [hsteps.stop he t] at hst
            cases hst
        | some reader =>
            have hreads := hsteps.reads hvalid he
            have hrun := hreads.answers ht hmore.delimited hst
            cases hD : stepD st t with
            | none =>
                rw [hD] at hrun
                obtain ⟨left, hleft⟩ := hrun
                exact ⟨left, loop_of_error e he hn hleft⟩
            | some st'' =>
                rw [hD] at hrun
                obtain rfl := Option.some.inj ((hreads.below hD).symm.trans hst)
                rw [loop_of_next e he hn hrun]
                exact ih (hsteps.keeps hvalid hD) hmore ha

/-- The meaning of an array by its elements. -/
def meaning (e : Elements σ α) (step : σ → Raw → Option σ) : Raw → Option α
  | .array ts => outcome step e.finish e.start ts
  | _ => none

theorem readsInside (hsteps : e.Steps valid stepD stepE) :
    ReadsInside '[' e.reader (e.meaning stepD) (e.meaning stepE) where
  sound h := by
    obtain ⟨ts, hts, ha⟩ := loop_sound hsteps hsteps.start h
    exact ⟨.array ts, hts, ha⟩
  answers {s t a rest} ht ha := by
    cases t with
    | array ts =>
        have hleft : Left true s ts rest := ht
        exact loop_answers hsteps hsteps.start hleft ha
    | _ => cases ha

end Elements

end PermitTypes.Json
