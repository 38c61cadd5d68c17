import Mathlib.Data.List.TakeWhile
import PermitTypes.Json.Skip.Nested
import PermitTypes.Proofs.Json.Strings

namespace PermitTypes.Json.Grammar

theorem isDigit_iff (c : Char) : isDigit c ↔ c ∈ digits := by
  constructor
  · intro h
    simp only [isDigit, Bool.and_eq_true, decide_eq_true_eq, Char.le_def,
      UInt32.le_iff_toNat_le] at h
    have hall : ∀ n < 58, 48 ≤ n → Char.ofNat n ∈ digits := by decide
    simpa using hall c.toNat (Nat.lt_succ_of_le h.2) h.1
  · have hall : ∀ c ∈ digits, isDigit c := List.all_iff_forall_prop.1 (by decide)
    exact hall c

def NoDigit (s : List Char) : Prop := ∀ c ∈ s.head?, c ∉ digits

theorem Delimited.noDigit {s : List Char} (h : Delimited s) : NoDigit s :=
  fun c hc => (h c hc).1

theorem noDigit_cons {c : Char} (h : c ∉ digits) (s : List Char) : NoDigit (c :: s) := by
  simpa [NoDigit] using h

theorem someDigits_sound {s rest : List Char} (h : Skip.someDigits s = .ok rest) :
    ∃ ds, Digits ds ∧ s = ds ++ rest := by
  unfold Skip.someDigits at h
  split at h
  · cases h
  · rename_i c r
    split at h
    · rename_i hc
      cases h
      refine ⟨c :: r.takeWhile isDigit, ⟨List.cons_ne_nil _ _, ?_⟩, ?_⟩
      · intro d hd
        rw [← isDigit_iff]
        rcases List.mem_cons.1 hd with rfl | hd
        · exact hc
        · exact List.mem_takeWhile_imp hd
      · rw [List.cons_append, Skip.digits, List.takeWhile_append_dropWhile]
    · cases h

theorem someDigits_complete {ds rest : List Char} (h : Digits ds) (hrest : NoDigit rest) :
    Skip.someDigits (ds ++ rest) = .ok rest := by
  obtain ⟨c, cs, rfl, hc⟩ := h.head
  have hcs : ∀ d ∈ cs, isDigit d := fun d hd => (isDigit_iff d).2 (h.2 d (List.mem_cons_of_mem c hd))
  have hstop : rest.dropWhile isDigit = rest := by
    cases rest with
    | nil => rfl
    | cons d rest => exact List.dropWhile_cons_of_neg (mt (isDigit_iff d).1 (hrest d rfl))
  simp only [Skip.someDigits, List.cons_append, if_pos ((isDigit_iff c).2 hc), Skip.digits,
    List.dropWhile_append_of_pos hcs, hstop]

theorem sign_sound (s : List Char) :
    ∃ sign ∈ [[], ['+'], ['-']], s = sign ++ Skip.sign s := by
  unfold Skip.sign
  split
  · exact ⟨['+'], by decide, rfl⟩
  · exact ⟨['-'], by decide, rfl⟩
  · exact ⟨[], by decide, rfl⟩

theorem exponent_sound {s rest : List Char} (h : Skip.exponent s = .ok rest) :
    ∃ e, Exponent e ∧ s = e ++ rest := by
  unfold Skip.exponent at h
  split at h
  · rename_i r
    obtain ⟨sign, hsign, hr⟩ := sign_sound r
    obtain ⟨ds, hds, hs⟩ := someDigits_sound h
    refine ⟨'e' :: (sign ++ ds), .inr ⟨'e', sign, ds, by decide, hsign, hds, rfl⟩, ?_⟩
    rw [hr, hs]
    simp
  · rename_i r
    obtain ⟨sign, hsign, hr⟩ := sign_sound r
    obtain ⟨ds, hds, hs⟩ := someDigits_sound h
    refine ⟨'E' :: (sign ++ ds), .inr ⟨'E', sign, ds, by decide, hsign, hds, rfl⟩, ?_⟩
    rw [hr, hs]
    simp
  · cases h
    exact ⟨[], .inl rfl, rfl⟩

theorem fraction_sound {s rest : List Char} (h : Skip.fraction s = .ok rest) :
    ∃ f e, Fraction f ∧ Exponent e ∧ s = f ++ (e ++ rest) := by
  unfold Skip.fraction at h
  split at h
  · split at h
    · cases h
    · rename_i hd
      obtain ⟨ds, hds, rfl⟩ := someDigits_sound hd
      obtain ⟨e, he, rfl⟩ := exponent_sound h
      exact ⟨'.' :: ds, e, .inr ⟨ds, hds, rfl⟩, he, rfl⟩
  · obtain ⟨e, he, rfl⟩ := exponent_sound h
    exact ⟨[], e, .inl rfl, he, rfl⟩

theorem number_sound {s rest : List Char} (h : Skip.number s = .ok rest) :
    ∃ w f e, Whole w ∧ Fraction f ∧ Exponent e ∧ s = w ++ (f ++ (e ++ rest)) := by
  unfold Skip.number at h
  split at h
  · split at h
    · cases h
    · obtain ⟨f, e, hf, he, hs⟩ := fraction_sound h
      exact ⟨['0'], f, e, .inl rfl, hf, he, by rw [hs]; rfl⟩
  · rename_i hzero
    split at h
    · cases h
    · rename_i r hd
      obtain ⟨ds, hds, rfl⟩ := someDigits_sound hd
      obtain ⟨f, e, hf, he, rfl⟩ := fraction_sound h
      refine ⟨ds, f, e, ?_, hf, he, rfl⟩
      by_cases h0 : ds.head? = some '0'
      · obtain ⟨ds, rfl⟩ := List.head?_eq_some_iff.1 h0
        cases ds with
        | nil => exact .inl rfl
        | cons d ds => exact absurd rfl (hzero d _)
      · exact .inr ⟨hds, h0⟩

theorem sign_complete {sign ds rest : List Char} (h : sign ∈ [[], ['+'], ['-']])
    (hds : Digits ds) : Skip.sign (sign ++ (ds ++ rest)) = ds ++ rest := by
  obtain ⟨c, cs, rfl, hc⟩ := hds.head
  have hne : ∀ c ∈ digits, c ≠ '+' ∧ c ≠ '-' := List.all_iff_forall_prop.1 (by decide)
  simp only [List.mem_cons, List.not_mem_nil, or_false] at h
  rcases h with rfl | rfl | rfl
  · unfold Skip.sign
    split
    · rename_i he
      exact absurd (List.cons.inj he).1 (hne c hc).1
    · rename_i he
      exact absurd (List.cons.inj he).1 (hne c hc).2
    · rfl
  · rfl
  · rfl

theorem exponent_complete {e rest : List Char} (h : Exponent e) (hrest : Delimited rest) :
    Skip.exponent (e ++ rest) = .ok rest := by
  rcases h with rfl | ⟨mark, sign, ds, hm, hsign, hds, rfl⟩
  · cases rest with
    | nil => rfl
    | cons c rest =>
        have hc := (hrest c rfl).2
        unfold Skip.exponent
        split
        · rename_i he
          exact absurd (List.cons.inj he).1 (fun e => hc (by simp [e]))
        · rename_i he
          exact absurd (List.cons.inj he).1 (fun e => hc (by simp [e]))
        · rfl
  · have hread : Skip.someDigits (Skip.sign (sign ++ (ds ++ rest))) = .ok rest := by
      rw [sign_complete hsign hds, someDigits_complete hds hrest.noDigit]
    simp only [List.mem_cons, List.not_mem_nil, or_false] at hm
    rw [List.cons_append, List.append_assoc]
    rcases hm with rfl | rfl
    · exact hread
    · exact hread

theorem Exponent.head {e rest : List Char} (h : Exponent e) (hrest : Delimited rest) :
    ∀ c ∈ (e ++ rest).head?, c ∉ digits ∧ c ≠ '.' := by
  rcases h with rfl | ⟨mark, sign, ds, hm, -, -, rfl⟩
  · intro c hc
    exact ⟨(hrest c hc).1, fun e => (hrest c hc).2 (by simp [e])⟩
  · have hmark : ∀ c ∈ ['e', 'E'], c ∉ digits ∧ c ≠ '.' := List.all_iff_forall_prop.1 (by decide)
    intro c hc
    obtain rfl := Option.some.inj hc
    exact hmark mark hm

theorem fraction_complete {f e rest : List Char} (hf : Fraction f) (he : Exponent e)
    (hrest : Delimited rest) : Skip.fraction (f ++ (e ++ rest)) = .ok rest := by
  have hhead := he.head hrest
  rcases hf with rfl | ⟨ds, hds, rfl⟩
  · rw [List.nil_append]
    unfold Skip.fraction
    split
    · rename_i hs
      exact absurd rfl (hhead '.' (by rw [hs]; rfl)).2
    · exact exponent_complete he hrest
  · have hread := someDigits_complete hds (fun c hc => (hhead c hc).1)
    simp only [List.cons_append, Skip.fraction, hread, exponent_complete he hrest]

theorem fraction_noDigit {f e rest : List Char} (hf : Fraction f) (he : Exponent e)
    (hrest : Delimited rest) : NoDigit (f ++ (e ++ rest)) := by
  rcases hf with rfl | ⟨ds, -, rfl⟩
  · exact fun c hc => (he.head hrest c hc).1
  · exact noDigit_cons (by decide) _

theorem number_complete {w f e rest : List Char} (hw : Whole w) (hf : Fraction f)
    (he : Exponent e) (hrest : Delimited rest) :
    Skip.number (w ++ (f ++ (e ++ rest))) = .ok rest := by
  have hread := fraction_complete hf he hrest
  have hdigit := fraction_noDigit hf he hrest
  generalize f ++ (e ++ rest) = s at hread hdigit
  rcases hw with rfl | ⟨hd, h0⟩
  · cases s with
    | nil => exact hread
    | cons c s =>
        have hc : isDigit c = false := by
          simpa using mt (isDigit_iff c).1 (hdigit c rfl)
        simpa only [Skip.number, List.cons_append, List.nil_append, hc, Bool.false_eq_true,
          if_false] using hread
  · unfold Skip.number
    split
    · rename_i hs
      obtain ⟨c, cs, rfl, -⟩ := hd.head
      rw [List.cons_append] at hs
      exact absurd (congrArg some (List.cons.inj hs).1) h0
    · rw [someDigits_complete hd hdigit]
      exact hread

theorem value_of_parts {w f e : List Char} (sign : List Char) (hs : sign ∈ [[], ['-']]) (hw : Whole w)
    (hf : Fraction f) (he : Exponent e) (rest : List Char) :
    Value (sign ++ (w ++ (f ++ (e ++ rest)))) (.number (sign ++ (w ++ (f ++ e)))) rest := by
  have hv : Value ((sign ++ (w ++ (f ++ e))) ++ rest) (.number (sign ++ (w ++ (f ++ e)))) rest :=
    .number ⟨sign, w, f, e, hs, hw, hf, he, rfl⟩
  simpa only [List.append_assoc] using hv

theorem scalar_sound {v rest : List Char} (h : Skip.scalar v = some (.ok rest)) :
    ∃ t, Value v t rest := by
  unfold Skip.scalar at h
  split at h
  · cases h
  · obtain rfl := readLiteral_eq_ok (Option.some.inj h)
    exact ⟨_, .null⟩
  · obtain rfl := readLiteral_eq_ok (Option.some.inj h)
    exact ⟨_, .true⟩
  · obtain rfl := readLiteral_eq_ok (Option.some.inj h)
    exact ⟨_, .false⟩
  · obtain ⟨points, hp⟩ := skip_string_sound (Option.some.inj h)
    exact ⟨_, .string hp⟩
  · obtain ⟨w, f, e, hw, hf, he, rfl⟩ := number_sound (Option.some.inj h)
    exact ⟨_, value_of_parts ['-'] (by decide) hw hf he rest⟩
  · cases h
  · cases h
  · split at h
    · obtain ⟨w, f, e, hw, hf, he, hs⟩ := number_sound (Option.some.inj h)
      rw [hs]
      exact ⟨_, value_of_parts [] (by decide) hw hf he rest⟩
    · cases h

theorem scalar_eq_none {v : List Char} (h : Skip.scalar v = none) :
    ∃ r, v = '[' :: r ∨ v = '{' :: r := by
  unfold Skip.scalar at h
  split at h
  all_goals first
    | exact ⟨_, .inl rfl⟩
    | exact ⟨_, .inr rfl⟩
    | cases h

theorem readLiteral_append (letters rest : List Char) :
    readLiteral letters (letters ++ rest) = .ok rest := by
  induction letters with
  | nil => rfl
  | cons l letters ih => simpa only [readLiteral, List.cons_append, if_true] using ih

theorem scalar_number {lexeme rest : List Char} (h : Number lexeme) (hrest : Delimited rest) :
    Skip.scalar (lexeme ++ rest) = some (.ok rest) := by
  obtain ⟨sign, w, f, e, hs, hw, hf, he, rfl⟩ := h
  have hread := number_complete hw hf he hrest
  simp only [List.mem_cons, List.not_mem_nil, or_false] at hs
  rcases hs with rfl | rfl
  · obtain ⟨c, cs, rfl, hc⟩ := hw.head
    have hne : ∀ c ∈ digits, c ∉ ['n', 't', 'f', '"', '-', '[', '{'] :=
      List.all_iff_forall_prop.1 (by decide)
    have hc' := hne c hc
    simp only [List.mem_cons, List.not_mem_nil, or_false, not_or] at hc'
    simp only [List.nil_append, List.cons_append, List.append_assoc] at hread ⊢
    unfold Skip.scalar
    split
    all_goals rename_i he
    · cases he
    · exact absurd (List.cons.inj he).1 hc'.1
    · exact absurd (List.cons.inj he).1 hc'.2.1
    · exact absurd (List.cons.inj he).1 hc'.2.2.1
    · exact absurd (List.cons.inj he).1 hc'.2.2.2.1
    · exact absurd (List.cons.inj he).1 hc'.2.2.2.2.1
    · exact absurd (List.cons.inj he).1 hc'.2.2.2.2.2.1
    · exact absurd (List.cons.inj he).1 hc'.2.2.2.2.2.2
    · obtain ⟨rfl, rfl⟩ := List.cons.inj he
      rw [if_pos ((isDigit_iff c).2 hc), hread]
  · simp only [List.append_assoc, List.cons_append, List.nil_append]
    rw [← hread]
    rfl

/-- What may stand in a frame: an element of an array or a member of an object. -/
def Item : Skip.Frame → List Char → List Char → Prop
  | .array, v, rest => ∃ t, Value v t rest
  | .object, v, rest => ∃ m, Member v m rest

def Inside : Skip.Frame → List Char → List Char → Prop
  | .array, s, rest => ∃ ts, Value ('[' :: s) (.array ts) rest
  | .object, s, rest => ∃ ms, Value ('{' :: s) (.object ms) rest

def More : Skip.Frame → List Char → List Char → Prop
  | .array, s, rest => ∃ ts, MoreElements s ts rest
  | .object, s, rest => ∃ ms, MoreMembers s ms rest

theorem inside_close {frame : Skip.Frame} {s rest : List Char}
    (h : skipSpace s = frame.close :: rest) : Inside frame s rest := by
  cases frame with
  | array => exact ⟨[], .emptyArray (blanks_of_skipSpace h)⟩
  | object => exact ⟨[], .emptyObject (blanks_of_skipSpace h)⟩

theorem inside_item {frame : Skip.Frame} {s r rest : List Char} (hi : Item frame (skipSpace s) r)
    (hm : More frame r rest) : Inside frame s rest := by
  cases frame with
  | array =>
      obtain ⟨t, ht⟩ := hi
      obtain ⟨ts, hts⟩ := hm
      exact ⟨t :: ts, .array (blanks_skipSpace s) ht hts⟩
  | object =>
      obtain ⟨m, hm'⟩ := hi
      obtain ⟨ms, hms⟩ := hm
      exact ⟨m :: ms, .object (blanks_skipSpace s) hm' hms⟩

theorem more_close {frame : Skip.Frame} {s rest : List Char}
    (h : skipSpace s = frame.close :: rest) : More frame s rest := by
  cases frame with
  | array => exact ⟨[], .close (blanks_of_skipSpace h)⟩
  | object => exact ⟨[], .close (blanks_of_skipSpace h)⟩

theorem more_item {frame : Skip.Frame} {s s' r rest : List Char} (h : skipSpace s = ',' :: s')
    (hi : Item frame (skipSpace s') r) (hm : More frame r rest) : More frame s rest := by
  cases frame with
  | array =>
      obtain ⟨t, ht⟩ := hi
      obtain ⟨ts, hts⟩ := hm
      exact ⟨t :: ts, .next (blanks_of_skipSpace h) (blanks_skipSpace s') ht hts⟩
  | object =>
      obtain ⟨m, hm'⟩ := hi
      obtain ⟨ms, hms⟩ := hm
      exact ⟨m :: ms, .next (blanks_of_skipSpace h) (blanks_skipSpace s') hm' hms⟩

theorem skipSpace_skipSpace (s : List Char) : skipSpace (skipSpace s) = skipSpace s :=
  (blanks_skipSpace s).skipSpace_eq.symm

theorem enter_sound {frame : Skip.Frame} {s m r : List Char} {t : Raw}
    (h : Skip.enter frame s = .ok m) (ht : Value (skipSpace m) t r) :
    Item frame (skipSpace s) r := by
  cases frame with
  | array =>
      cases h
      exact ⟨t, ht⟩
  | object =>
      change Skip.name s = .ok m at h
      unfold Skip.name at h
      split at h
      · cases h
      · rename_i k hk
        split at h
        · cases h
        · rename_i k' hstring
          obtain ⟨points, hp⟩ := skip_string_sound hstring
          split at h
          · cases h
          · rename_i c hc
            cases h
            rw [hk]
            exact ⟨_, .mk hp (blanks_of_skipSpace hc) (blanks_skipSpace m) ht⟩
          · cases h
      · cases h

mutual

theorem value_sound {frames : List Skip.Frame} {s out : List Char}
    (h : Skip.value frames s = .ok out) :
    ∃ t rest, Value (skipSpace s) t rest ∧ rest.length < s.length ∧
      Skip.ended frames rest = .ok out := by
  have hl := length_skipSpace_le s
  unfold Skip.value at h
  split at h
  · cases h
  · rename_i rest hscalar
    obtain ⟨t, ht⟩ := scalar_sound hscalar
    have := Skip.length_of_scalar hscalar
    exact ⟨t, rest, ht, by omega, h⟩
  · rename_i hscalar
    split at h
    · cases h
    · rename_i c r hs
      have hr := length_of_skipSpace hs
      rw [hs] at hscalar
      obtain ⟨rest, hin, hlen, hend⟩ := opened_sound h
      obtain ⟨r', hb | hb⟩ := scalar_eq_none hscalar
      · obtain ⟨rfl, rfl⟩ := List.cons.inj hb
        obtain ⟨ts, hts⟩ := hin
        exact ⟨.array ts, rest, hs ▸ hts, by omega, hend⟩
      · obtain ⟨rfl, rfl⟩ := List.cons.inj hb
        obtain ⟨ms, hms⟩ := hin
        exact ⟨.object ms, rest, hs ▸ hms, by omega, hend⟩
termination_by (s.length, 0)
decreasing_by all_goals omega

theorem opened_sound {frame : Skip.Frame} {frames : List Skip.Frame} {s out : List Char}
    (h : Skip.opened frame frames s = .ok out) :
    ∃ rest, Inside frame s rest ∧ rest.length < s.length ∧ Skip.ended frames rest = .ok out := by
  unfold Skip.opened at h
  split at h
  · cases h
  · rename_i c r hs
    have hr := length_of_skipSpace hs
    split at h
    · rename_i hc
      exact ⟨r, inside_close (hc ▸ hs), hr, h⟩
    · split at h
      · cases h
      · rename_i m hm
        have hlm : m.length ≤ r.length + 1 := Skip.length_of_enter hm
        obtain ⟨t, r', ht, hlr, hend⟩ := value_sound h
        obtain ⟨rest, hmore, hlrest, hout⟩ := ended_sound hend
        have hi := enter_sound hm ht
        rw [← hs, skipSpace_skipSpace] at hi
        exact ⟨rest, inside_item hi hmore, by omega, hout⟩
termination_by (s.length, 1)
decreasing_by all_goals omega

theorem ended_sound {frame : Skip.Frame} {frames : List Skip.Frame} {s out : List Char}
    (h : Skip.ended (frame :: frames) s = .ok out) :
    ∃ rest, More frame s rest ∧ rest.length < s.length ∧ Skip.ended frames rest = .ok out := by
  unfold Skip.ended at h
  split at h
  · cases h
  · rename_i c r hs
    have hr := length_of_skipSpace hs
    split at h
    · rename_i hc
      split at h
      · cases h
      · rename_i m hm
        have hlm := Skip.length_of_enter hm
        obtain ⟨t, r', ht, hlr, hend⟩ := value_sound h
        obtain ⟨rest, hmore, hlrest, hout⟩ := ended_sound hend
        exact ⟨rest, more_item (hc ▸ hs) (enter_sound hm ht) hmore, by omega, hout⟩
    · split at h
      · rename_i hc
        exact ⟨r, more_close (hc ▸ hs), hr, h⟩
      · cases h
termination_by (s.length, 0)
decreasing_by all_goals omega

end

theorem value_of_scalar {s v rest : List Char} (hs : skipSpace s = v)
    (h : Skip.scalar v = some (.ok rest)) (frames : List Skip.Frame) :
    Skip.value frames s = Skip.ended frames rest := by
  subst hs
  rw [Skip.value]
  split
  · rename_i he
    rw [h] at he
    cases he
  · rename_i he
    rw [h] at he
    cases he
    rfl
  · rename_i he
    rw [h] at he
    cases he

theorem value_of_bracket (frame : Skip.Frame) {c : Char} {s r : List Char}
    (hs : skipSpace s = c :: r) (hnone : Skip.scalar (c :: r) = none)
    (hc : (if c = '[' then .array else .object) = frame) (frames : List Skip.Frame) :
    Skip.value frames s = Skip.opened frame frames r := by
  rw [Skip.value]
  split
  · rename_i he
    rw [hs, hnone] at he
    cases he
  · rename_i he
    rw [hs, hnone] at he
    cases he
  · split
    · rename_i he
      rw [hs] at he
      cases he
    · rename_i he
      rw [hs] at he
      obtain ⟨rfl, rfl⟩ := List.cons.inj he
      rw [hc]

theorem opened_close {frame : Skip.Frame} {s rest : List Char}
    (hs : skipSpace s = frame.close :: rest) (frames : List Skip.Frame) :
    Skip.opened frame frames s = Skip.ended frames rest := by
  rw [Skip.opened]
  split
  · rename_i he
    rw [hs] at he
    cases he
  · rename_i he
    rw [hs] at he
    obtain ⟨rfl, rfl⟩ := List.cons.inj he
    rw [if_pos rfl]

theorem opened_enter {frame : Skip.Frame} {c : Char} {s r m : List Char}
    (hs : skipSpace s = c :: r) (hc : c ≠ frame.close) (hm : Skip.enter frame (c :: r) = .ok m)
    (frames : List Skip.Frame) :
    Skip.opened frame frames s = Skip.value (frame :: frames) m := by
  rw [Skip.opened]
  split
  · rename_i he
    rw [hs] at he
    cases he
  · rename_i he
    rw [hs] at he
    obtain ⟨rfl, rfl⟩ := List.cons.inj he
    rw [if_neg hc]
    split
    · rename_i he
      rw [hm] at he
      cases he
    · rename_i he
      rw [hm] at he
      cases he
      rfl

theorem ended_close {frame : Skip.Frame} {s rest : List Char}
    (hs : skipSpace s = frame.close :: rest) (frames : List Skip.Frame) :
    Skip.ended (frame :: frames) s = Skip.ended frames rest := by
  have hcomma : frame.close ≠ ',' := by cases frame <;> decide
  rw [Skip.ended]
  split
  · rename_i he
    rw [hs] at he
    cases he
  · rename_i he
    rw [hs] at he
    obtain ⟨rfl, rfl⟩ := List.cons.inj he
    rw [if_neg hcomma, if_pos rfl]

theorem ended_next {frame : Skip.Frame} {s r m : List Char} (hs : skipSpace s = ',' :: r)
    (hm : Skip.enter frame r = .ok m) (frames : List Skip.Frame) :
    Skip.ended (frame :: frames) s = Skip.value (frame :: frames) m := by
  rw [Skip.ended]
  split
  · rename_i he
    rw [hs] at he
    cases he
  · rename_i he
    rw [hs] at he
    obtain ⟨rfl, rfl⟩ := List.cons.inj he
    rw [if_pos rfl]
    split
    · rename_i he
      rw [hm] at he
      cases he
    · rename_i he
      rw [hm] at he
      cases he
      rfl

theorem name_complete {s k s' s'' : List Char} {points : List Nat} (hs : skipSpace s = '"' :: k)
    (hk : Chars k points s') (hc : Blanks s' (':' :: s'')) : Skip.enter .object s = .ok s'' := by
  change Skip.name s = .ok s''
  simp only [Skip.name, hs, skip_string_complete hk, hc.skipSpace_eq_cons (by decide)]

theorem Member.skipSpace_eq {v rest : List Char} {m : List Nat × Raw} (h : Member v m rest) :
    skipSpace v = v := by
  cases h
  exact skipSpace_cons (by decide) _

theorem Member.head {v rest : List Char} {m : List Nat × Raw} (h : Member v m rest) :
    ∃ s, v = '"' :: s := by
  cases h
  exact ⟨_, rfl⟩

theorem not_close_of_mem_starts {c : Char} (h : c ∈ starts) (frame : Skip.Frame) :
    c ≠ frame.close := by
  have hall : ∀ c ∈ starts, c ≠ ']' ∧ c ≠ '}' := List.all_iff_forall_prop.1 (by decide)
  cases frame with
  | array => exact (hall c h).1
  | object => exact (hall c h).2

mutual

/-- What is skipped ends where the value ends, whatever is open around it. -/
theorem value_complete {s v rest : List Char} {t : Raw} (frames : List Skip.Frame)
    (h : Value v t rest) (hs : skipSpace s = v) (hrest : Delimited rest) :
    Skip.value frames s = Skip.ended frames rest := by
  cases h with
  | null => exact value_of_scalar hs rfl frames
  | true => exact value_of_scalar hs rfl frames
  | false => exact value_of_scalar hs rfl frames
  | number hn => exact value_of_scalar hs (scalar_number hn hrest) frames
  | string hp => exact value_of_scalar hs (congrArg some (skip_string_complete hp)) frames
  | emptyArray hb =>
      rw [value_of_bracket .array hs rfl rfl,
        opened_close (hb.skipSpace_eq_cons (by decide))]
  | array hb hv hm =>
      obtain ⟨c, r, rfl, hc⟩ := hv.head
      have hskip := hb.skipSpace_eq.trans hv.skipSpace_eq
      rw [value_of_bracket .array hs rfl rfl,
        opened_enter hskip (not_close_of_mem_starts hc .array) rfl,
        value_complete _ hv hv.skipSpace_eq hm.delimited, elements_complete frames hm]
  | emptyObject hb =>
      rw [value_of_bracket .object hs rfl rfl,
        opened_close (hb.skipSpace_eq_cons (by decide))]
  | object hb hv hm =>
      obtain ⟨r, rfl⟩ := hv.head
      have hskip := hb.skipSpace_eq.trans hv.skipSpace_eq
      obtain ⟨s', hs', hval⟩ := member_complete frames hv hv.skipSpace_eq hm.delimited
      rw [value_of_bracket .object hs rfl rfl,
        opened_enter hskip (by decide) hs', hval, members_complete frames hm]

theorem elements_complete {s rest : List Char} {ts : List Raw} (frames : List Skip.Frame)
    (h : MoreElements s ts rest) :
    Skip.ended (.array :: frames) s = Skip.ended frames rest := by
  cases h with
  | close hb => exact ended_close (hb.skipSpace_eq_cons (by decide)) frames
  | next hb hv ht hm =>
      rw [ended_next (hb.skipSpace_eq_cons (by decide)) rfl,
        value_complete _ ht (hv.skipSpace_eq.trans ht.skipSpace_eq) hm.delimited,
        elements_complete frames hm]

theorem member_complete {s v rest : List Char} {m : List Nat × Raw} (frames : List Skip.Frame)
    (h : Member v m rest) (hs : skipSpace s = v) (hrest : Delimited rest) :
    ∃ s', Skip.enter .object s = .ok s' ∧
      Skip.value (.object :: frames) s' = Skip.ended (.object :: frames) rest := by
  cases h with
  | mk hk hc hv ht =>
      exact ⟨_, name_complete hs hk hc,
        value_complete _ ht (hv.skipSpace_eq.trans ht.skipSpace_eq) hrest⟩

theorem members_complete {s rest : List Char} {ms : List (List Nat × Raw)}
    (frames : List Skip.Frame) (h : MoreMembers s ms rest) :
    Skip.ended (.object :: frames) s = Skip.ended frames rest := by
  cases h with
  | close hb => exact ended_close (hb.skipSpace_eq_cons (by decide)) frames
  | next hb hv hm hms =>
      obtain ⟨s', hs', hval⟩ := member_complete frames hm
        (hv.skipSpace_eq.trans hm.skipSpace_eq) hms.delimited
      rw [ended_next (hb.skipSpace_eq_cons (by decide)) hs', hval, members_complete frames hms]

end

theorem exists_value_of_skip {s rest : List Char} (h : Skip.value [] s = .ok rest) :
    ∃ t, Value (skipSpace s) t rest := by
  obtain ⟨t, rest', ht, -, hend⟩ := value_sound h
  rw [Skip.ended] at hend
  cases hend
  exact ⟨t, ht⟩

theorem skip_of_value {s rest : List Char} {t : Raw} (h : Value (skipSpace s) t rest)
    (hrest : Delimited rest) : Skip.value [] s = .ok rest := by
  rw [value_complete [] h rfl hrest, Skip.ended]

end PermitTypes.Json.Grammar
