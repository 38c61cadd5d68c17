import PermitTypes.Json.Members
import PermitTypes.Proofs.Json.Arrays

namespace PermitTypes.Json.Members

open Grammar Meaning

variable {σ α : Type}

/-- What is left of an object after its brace, or after one of its members. -/
def Left (first : Bool) (s : List Char) (ms : List (List Nat × Raw)) (rest : List Char) : Prop :=
  if first then Value ('{' :: s) (.object ms) rest else MoreMembers s ms rest

theorem left_close {first : Bool} {s rest : List Char} (h : skipSpace s = '}' :: rest) :
    Left first s [] rest := by
  cases first with
  | true => exact .emptyObject (blanks_of_skipSpace h)
  | false => exact .close (blanks_of_skipSpace h)

theorem readName_eq_ok {s rest : List Char} {name : Option String} :
    readName s = .ok (name, rest) ↔ ∃ text, name = some text ∧ readString s = .ok (text, rest) := by
  constructor
  · intro h
    unfold readName at h
    split at h
    · cases h
    · rename_i hs
      cases h
      exact ⟨_, rfl, hs⟩
  · rintro ⟨text, rfl, hs⟩
    simp only [readName, hs]

theorem nextName_eq_none {first : Bool} {s rest : List Char}
    (h : nextName first s = .ok (none, rest)) : skipSpace s = '}' :: rest := by
  have hname : ∀ {s : List Char}, readName s ≠ .ok (none, rest) := by
    intro s hs
    obtain ⟨_, hnone, -⟩ := readName_eq_ok.1 hs
    cases hnone
  unfold nextName at h
  split at h
  · cases h
  · rename_i hs
    cases h
    exact hs
  · split at h
    · split at h
      · exact absurd h hname
      · cases h
    · split at h
      · split at h
        · cases h
        · exact absurd h hname
        · cases h
        · cases h
      · cases h

theorem readColon_eq_ok {s rest : List Char} :
    readColon s = .ok rest ↔ skipSpace s = ':' :: rest := by
  constructor
  · intro h
    unfold readColon at h
    split at h
    · cases h
    · rename_i hs
      cases h
      exact hs
    · cases h
  · intro h
    simp only [readColon, h]

theorem member_of_name {k s' s'' r : List Char} {name : String} {t : Raw}
    (hk : readString k = .ok (name, s')) (hc : readColon s' = .ok s'')
    (ht : Value (skipSpace s'') t r) :
    ∃ points, text? points = some name ∧ Member ('"' :: k) (points, t) r := by
  obtain ⟨points, hp, htext⟩ := readString_eq_ok_iff.1 hk
  exact ⟨points, htext,
    .mk hp (blanks_of_skipSpace (readColon_eq_ok.1 hc)) (blanks_skipSpace s'') ht⟩

theorem left_next {first : Bool} {s s' s'' r rest : List Char} {name : String} {t : Raw}
    {ms : List (List Nat × Raw)} (h : nextName first s = .ok (some name, s'))
    (hc : readColon s' = .ok s'') (ht : Value (skipSpace s'') t r)
    (hms : MoreMembers r ms rest) :
    ∃ points, text? points = some name ∧ Left first s ((points, t) :: ms) rest := by
  unfold nextName at h
  split at h
  · cases h
  · cases h
  · rename_i c r' _ hs
    split at h
    · rename_i hfirst
      subst hfirst
      split at h
      · rename_i hquote
        subst hquote
        obtain ⟨_, hname, hk⟩ := readName_eq_ok.1 h
        obtain rfl := Option.some.inj hname
        obtain ⟨points, htext, hm⟩ := member_of_name hk hc ht
        exact ⟨points, htext, .object (blanks_of_skipSpace hs) hm hms⟩
      · cases h
    · rename_i hfirst
      obtain rfl := Bool.eq_false_iff.2 hfirst
      split at h
      · rename_i hcomma
        subst hcomma
        split at h
        · cases h
        · rename_i hs'
          obtain ⟨_, hname, hk⟩ := readName_eq_ok.1 h
          obtain rfl := Option.some.inj hname
          obtain ⟨points, htext, hm⟩ := member_of_name hk hc ht
          exact ⟨points, htext, .next (blanks_of_skipSpace hs) (blanks_of_skipSpace hs') hm hms⟩
        · cases h
        · cases h
      · cases h

theorem nextName_close {s rest : List Char} (h : skipSpace s = '}' :: rest) (first : Bool) :
    nextName first s = .ok (none, rest) := by
  simp only [nextName, h]

theorem nextName_first {s k : List Char} (hs : skipSpace s = '"' :: k) :
    nextName true s = readName k := by
  unfold nextName
  rw [hs]
  rfl

theorem nextName_comma {s s' k : List Char} (hs : skipSpace s = ',' :: s')
    (hs' : skipSpace s' = '"' :: k) : nextName false s = readName k := by
  unfold nextName
  rw [hs]
  split
  · rename_i he
    cases he
  · rename_i he
    exact absurd (List.cons.inj he).1 (by decide)
  · rename_i he
    obtain ⟨rfl, rfl⟩ := List.cons.inj he
    rw [if_neg Bool.false_ne_true, if_pos rfl, hs']
    rfl

/-- An object ends, or its next member is found. -/
theorem left_cases {first : Bool} {s rest : List Char} {ms : List (List Nat × Raw)}
    (h : Left first s ms rest) :
    (ms = [] ∧ skipSpace s = '}' :: rest) ∨
    ∃ points t ms' k s' s'' r, ms = (points, t) :: ms' ∧ nextName first s = readName k ∧
      Chars k points s' ∧ readColon s' = .ok s'' ∧ Value (skipSpace s'') t r ∧
      MoreMembers r ms' rest := by
  cases first with
  | true =>
      change Value ('{' :: s) (.object ms) rest at h
      generalize hv : '{' :: s = v at h
      cases h with
      | emptyObject hb =>
          obtain ⟨-, rfl⟩ := List.cons.inj hv
          exact .inl ⟨rfl, hb.skipSpace_eq_cons (by decide)⟩
      | object hb hm hms =>
          obtain ⟨-, rfl⟩ := List.cons.inj hv
          have hs := hb.skipSpace_eq.trans hm.skipSpace_eq
          cases hm with
          | mk hk hc hv ht =>
              exact .inr ⟨_, _, _, _, _, _, _, rfl, nextName_first hs, hk,
                readColon_eq_ok.2 (hc.skipSpace_eq_cons (by decide)), value_of_blanks hv ht, hms⟩
  | false =>
      change MoreMembers s ms rest at h
      cases h with
      | close hb => exact .inl ⟨rfl, hb.skipSpace_eq_cons (by decide)⟩
      | next hb hb' hm hms =>
          have hs := hb'.skipSpace_eq.trans hm.skipSpace_eq
          cases hm with
          | mk hk hc hv ht =>
              exact .inr ⟨_, _, _, _, _, _, _, rfl,
                nextName_comma (hb.skipSpace_eq_cons (by decide)) hs, hk,
                readColon_eq_ok.2 (hc.skipSpace_eq_cons (by decide)), value_of_blanks hv ht, hms⟩

variable (m : Members σ α)

theorem loop_eq (first : Bool) (state : σ) (s : List Char) :
    m.loop first state s =
      match nextName first s with
      | .error fault => .error fault
      | .ok (none, rest) => m.ended state rest
      | .ok (some name, rest) =>
        match m.member state name with
        | .error cause => .error (.before cause (closeObject rest))
        | .ok reader =>
          match readColon rest with
          | .error fault => .error fault
          | .ok value =>
            match reader.run value with
            | .error fault => .error fault
            | .ok (state, after) => m.loop false state after := by
  rw [loop]
  split
  · next hn => simp only [hn]
  · next hn => simp only [hn]
  · next hn =>
      split
      · next hm => simp only [hn, hm]
      · next hm =>
          split
          · next hc => simp only [hn, hm, hc]
          · next hc =>
              split
              · next hv => simp only [hn, hm, hc, hv]
              · next hv => simp only [hn, hm, hc, hv]

theorem loop_of_close {st : σ} {s rest : List Char} (hs : skipSpace s = '}' :: rest)
    (first : Bool) : m.loop first st s = m.ended st rest := by
  rw [loop_eq]
  simp only [nextName_close hs]

theorem loop_of_next {first : Bool} {st st' : σ} {s s' v after : List Char} {name : String}
    {reader : Reader σ} (hn : nextName first s = .ok (some name, s'))
    (hm : m.member st name = .ok reader) (hc : readColon s' = .ok v)
    (hv : reader.run v = .ok (st', after)) : m.loop first st s = m.loop false st' after := by
  rw [loop_eq]
  simp only [hn, hm, hc, hv]

theorem loop_of_error {first : Bool} {st : σ} {s s' v : List Char} {name : String}
    {reader : Reader σ} {f : Fault} (hn : nextName first s = .ok (some name, s'))
    (hm : m.member st name = .ok reader) (hc : readColon s' = .ok v)
    (hv : reader.run v = .error f) : m.loop first st s = .error f := by
  rw [loop_eq]
  simp only [hn, hm, hc, hv]

theorem ended_eq_ok {st : σ} {s rest : List Char} {a : α} :
    m.ended st s = .ok (a, rest) ↔ m.finish st = .ok a ∧ rest = s := by
  unfold ended
  cases m.finish st with
  | error cause => simp
  | ok b => simp [eq_comm]

/-- How the members of an object change the state, if they may. -/
structure Steps (m : Members σ α) (stepD stepE : σ → String × Raw → Option σ) : Prop where
  stop : ∀ {st name cause}, m.member st name = .error cause →
    ∀ t, stepE st (name, t) = none
  reads : ∀ {st name reader}, m.member st name = .ok reader →
    Reads reader (fun t => stepD st (name, t)) (fun t => stepE st (name, t))

variable {m} {stepD stepE : σ → String × Raw → Option σ}

theorem loop_sound (hsteps : m.Steps stepD stepE) {first : Bool} {st : σ} {s rest : List Char}
    {a : α} (h : m.loop first st s = .ok (a, rest)) :
    ∃ ms items, Left first s ms rest ∧ named ms = some items ∧
      outcome stepD m.finish st items = some a := by
  unfold loop at h
  split at h
  · cases h
  · rename_i hn
    obtain ⟨hfinish, rfl⟩ := m.ended_eq_ok.1 h
    exact ⟨[], [], left_close (nextName_eq_none hn), rfl, outcome_nil_eq_some.2 hfinish⟩
  · rename_i name s' hn
    have hls := length_of_nextName hn
    split at h
    · cases h
    · rename_i reader hm
      split at h
      · cases h
      · rename_i v hc
        have hlv := length_of_readColon hc
        split at h
        · cases h
        · rename_i st' after hv
          have hla := reader.shrinks hv
          obtain ⟨t, ht, hst⟩ := (hsteps.reads hm).sound hv
          obtain ⟨ms, items, hms, hitems, ha⟩ := loop_sound hsteps h
          obtain ⟨points, hpoints, hleft⟩ := left_next hn hc ht hms
          refine ⟨(points, t) :: ms, (name, t) :: items, hleft, ?_, ?_⟩
          · rw [named_cons, hpoints, hitems]
            rfl
          · rw [outcome_cons, hst]
            exact ha
termination_by s.length

theorem loop_answers (hsteps : m.Steps stepD stepE) {ms : List (List Nat × Raw)}
    {items : List (String × Raw)} {first : Bool} {st : σ} {s rest : List Char} {a : α}
    (h : Left first s ms rest) (hitems : named ms = some items)
    (ha : outcome stepE m.finish st items = some a) :
    Answers (outcome stepD m.finish st items) rest (m.loop first st s) := by
  induction ms generalizing items first st s with
  | nil =>
      rcases left_cases h with ⟨-, hs⟩ | ⟨_, _, _, _, _, _, _, hms, -⟩
      · obtain rfl : [] = items := Option.some.inj hitems
        have hfinish := outcome_nil_eq_some.1 ha
        rw [outcome_nil_eq_some.2 hfinish, loop_of_close m hs]
        exact m.ended_eq_ok.2 ⟨hfinish, rfl⟩
      · cases hms
  | cons mem ms ih =>
      rcases left_cases h with ⟨hms, -⟩ | ⟨points, t, ms', k, s', v, r, hms, hn, hk, hc, ht, hmore⟩
      · cases hms
      · obtain ⟨rfl, rfl⟩ := List.cons.inj hms
        obtain ⟨name, items, hpoints, hrest, rfl⟩ := named_cons_eq_some.1 hitems
        have htext := readString_eq_ok_iff.2 ⟨points, hk, hpoints⟩
        have hname := hn.trans (readName_eq_ok.2 ⟨name, rfl, htext⟩)
        rw [outcome_cons] at ha ⊢
        obtain ⟨st', hst, ha⟩ := Option.bind_eq_some_iff.1 ha
        cases hm : m.member st name with
        | error cause =>
            rw [hsteps.stop hm t] at hst
            cases hst
        | ok reader =>
            have hreads := hsteps.reads hm
            have hrun := hreads.answers ht hmore.delimited hst
            cases hD : stepD st (name, t) with
            | none =>
                rw [hD] at hrun
                obtain ⟨left, hleft⟩ := hrun
                exact ⟨left, loop_of_error m hname hm hc hleft⟩
            | some st'' =>
                rw [hD] at hrun
                obtain rfl := Option.some.inj ((hreads.below hD).symm.trans hst)
                rw [loop_of_next m hname hm hc hrun]
                exact ih hmore hrest ha

/-- The meaning of an object by its members. -/
def meaning (m : Members σ α) (step : σ → String × Raw → Option σ) : Raw → Option α
  | .object ms => (named ms).bind fun items => outcome step m.finish m.start items
  | _ => none

theorem readsInside (hsteps : m.Steps stepD stepE) :
    ReadsInside '{' m.reader (m.meaning stepD) (m.meaning stepE) where
  sound h := by
    obtain ⟨ms, items, hms, hitems, ha⟩ := loop_sound hsteps h
    exact ⟨.object ms, hms, Option.bind_eq_some_iff.2 ⟨items, hitems, ha⟩⟩
  answers {s t a rest} ht ha := by
    cases t with
    | object ms =>
        have hleft : Left true s ms rest := ht
        obtain ⟨items, hitems, ha⟩ := Option.bind_eq_some_iff.1 ha
        simp only [meaning, hitems, Option.bind_some]
        exact loop_answers hsteps hleft hitems ha
    | _ => cases ha

end PermitTypes.Json.Members
