import PermitTypes.Json.Form
import PermitTypes.Proofs.Json.Meaning
import PermitTypes.Proofs.Json.Skipping

namespace PermitTypes.Json

open Grammar Meaning

variable {α β : Type}

/-- What a step gives for a value that has a meaning, or that has none for want of room. -/
def Answers (meaning : Option α) (rest : List Char) (step : Step α) : Prop :=
  match meaning with
  | some a => step = .ok (a, rest)
  | none => ∃ left, step = .error ⟨.tooDeep, left⟩

theorem Answers.map {meaning : Option α} {rest s : List Char} {r : Reader α}
    (h : Answers meaning rest (r.run s)) (f : α → β) :
    Answers (meaning.map f) rest ((r.map f).run s) := by
  cases meaning with
  | none =>
      obtain ⟨left, hleft⟩ := h
      exact ⟨left, by simp only [Reader.map, hleft]⟩
  | some a =>
      change r.run s = .ok (a, rest) at h
      simp only [Answers, Option.map_some, Reader.map, h]

/-- A reader takes the values that have a meaning within its room for brackets, and refuses as too
deep those that would have one in more room. -/
structure Reads (r : Reader α) (within ever : Raw → Option α) : Prop where
  below : ∀ {t a}, within t = some a → ever t = some a
  sound : ∀ {s a rest}, r.run s = .ok (a, rest) →
    ∃ t, Value (skipSpace s) t rest ∧ within t = some a
  answers : ∀ {s t a rest}, Value (skipSpace s) t rest → Delimited rest → ever t = some a →
    Answers (within t) rest (r.run s)

namespace Reads

variable {r : Reader α} {D E : Raw → Option α}

theorem map (h : Reads r D E) (f : α → β) :
    Reads (r.map f) (fun t => (D t).map f) (fun t => (E t).map f) where
  below {t b} hb := by
    obtain ⟨a, ha, rfl⟩ := Option.map_eq_some_iff.1 hb
    exact Option.map_eq_some_iff.2 ⟨a, h.below ha, rfl⟩
  sound {s b rest} hb := by
    simp only [Reader.map] at hb
    split at hb
    · cases hb
    · rename_i a rest' ha
      cases hb
      obtain ⟨t, ht, hm⟩ := h.sound ha
      exact ⟨t, ht, Option.map_eq_some_iff.2 ⟨a, hm, rfl⟩⟩
  answers {s t b rest} ht hrest hb := by
    obtain ⟨a, ha, rfl⟩ := Option.map_eq_some_iff.1 hb
    exact (h.answers ht hrest ha).map f

theorem ignored (a : α) : Reads (Reader.ignored a) (fun _ => some a) (fun _ => some a) where
  below h := h
  sound {s b rest} hb := by
    simp only [Reader.ignored] at hb
    split at hb
    · cases hb
    · rename_i hv
      cases hb
      obtain ⟨t, ht⟩ := exists_value_of_skip hv
      exact ⟨t, ht, rfl⟩
  answers {s t b rest} ht hrest _ := by
    simp only [Answers, Reader.ignored, skip_of_value ht hrest]

theorem nullable_of_ne {t : Raw} (ht : t ≠ .null) (D : Raw → Option α) :
    Meaning.nullable D t = (D t).map some := by
  cases t with
  | null => exact absurd rfl ht
  | _ => rfl

theorem eq_null_of_value {s rest : List Char} {t : Raw} (h : Value ('n' :: s) t rest) :
    t = .null := by
  generalize hv : 'n' :: s = v at h
  cases h with
  | null => rfl
  | number hn => exact absurd (hn.mem_of_cons_eq hv) (by decide)
  | _ => cases hv

theorem nullable (h : Reads r D E) :
    Reads r.nullable (Meaning.nullable D) (Meaning.nullable E) where
  below {t a} ha := by
    by_cases ht : t = .null
    · subst ht
      exact ha
    · rw [nullable_of_ne ht] at ha ⊢
      exact (h.map some).below ha
  sound {s a rest} ha := by
    simp only [Reader.nullable] at ha
    split at ha
    · rename_i hs
      split at ha
      · cases ha
      · rename_i hl
        cases ha
        obtain rfl := readLiteral_eq_ok hl
        exact ⟨.null, by rw [hs]; exact .null, rfl⟩
    · rename_i hs
      obtain ⟨t, ht, hm⟩ := (h.map some).sound ha
      have hne : t ≠ .null := by
        rintro rfl
        generalize hv : skipSpace s = v at ht
        cases ht
        exact hs _ hv
      exact ⟨t, ht, by rwa [nullable_of_ne hne]⟩
  answers {s t a rest} ht hrest ha := by
    by_cases hnull : t = .null
    · subst hnull
      generalize hv : skipSpace s = v at ht
      cases ht
      simp only [Answers, Meaning.nullable, Reader.nullable, hv]
      rfl
    · rw [nullable_of_ne hnull] at ha ⊢
      have hrun : r.nullable.run s = (r.map some).run s := by
        simp only [Reader.nullable]
        split
        · rename_i hs
          rw [hs] at ht
          exact absurd (eq_null_of_value ht) hnull
        · rfl
      rw [hrun]
      exact (h.map some).answers ht hrest ha

end Reads

/-- The same of what reads the inside of a bracket. -/
structure ReadsInside (bracket : Char) (r : Reader α) (within ever : Raw → Option α) : Prop where
  sound : ∀ {s a rest}, r.run s = .ok (a, rest) →
    ∃ t, Value (bracket :: s) t rest ∧ within t = some a
  answers : ∀ {s t a rest}, Value (bracket :: s) t rest → ever t = some a →
    Answers (within t) rest (r.run s)

theorem ReadsInside.map {bracket : Char} {r : Reader α} {D E : Raw → Option α}
    (h : ReadsInside bracket r D E) (f : α → β) :
    ReadsInside bracket (r.map f) (fun t => (D t).map f) (fun t => (E t).map f) where
  sound {s b rest} hb := by
    simp only [Reader.map] at hb
    split at hb
    · cases hb
    · rename_i a rest' ha
      cases hb
      obtain ⟨t, ht, hm⟩ := h.sound ha
      exact ⟨t, ht, Option.map_eq_some_iff.2 ⟨a, hm, rfl⟩⟩
  answers {s t b rest} ht hb := by
    obtain ⟨a, ha, rfl⟩ := Option.map_eq_some_iff.1 hb
    exact Answers.map (h.answers ht ha) f

theorem ReadsInside.congr {bracket : Char} {r : Reader α} {D E D' E' : Raw → Option α}
    (h : ReadsInside bracket r D E)
    (heq : ∀ {s t rest}, Value (bracket :: s) t rest → D t = D' t ∧ E t = E' t) :
    ReadsInside bracket r D' E' where
  sound {s a rest} ha := by
    obtain ⟨t, ht, hm⟩ := h.sound ha
    exact ⟨t, ht, (heq ht).1 ▸ hm⟩
  answers {s t a rest} ht ha := by
    rw [← (heq ht).2] at ha
    rw [← (heq ht).1]
    exact h.answers ht ha

theorem exists_array_of_value {s rest : List Char} {t : Raw} (h : Value ('[' :: s) t rest) :
    ∃ ts, t = .array ts := by
  generalize hv : '[' :: s = v at h
  cases h with
  | number hn => exact absurd (hn.mem_of_cons_eq hv) (by decide)
  | emptyArray hb => exact ⟨_, rfl⟩
  | array hb ht hts => exact ⟨_, rfl⟩
  | _ => cases hv

theorem exists_object_of_value {s rest : List Char} {t : Raw} (h : Value ('{' :: s) t rest) :
    ∃ ms, t = .object ms := by
  generalize hv : '{' :: s = v at h
  cases h with
  | number hn => exact absurd (hn.mem_of_cons_eq hv) (by decide)
  | emptyObject hb => exact ⟨_, rfl⟩
  | object hb hm hms => exact ⟨_, rfl⟩
  | _ => cases hv

/-- What a form does where a bracket opens. -/
def Opens (bracket : Char) (opening : Opening α) (within ever : Raw → Option α) : Prop :=
  match opening with
  | .refused => ∀ {s t rest}, Value (bracket :: s) t rest → ever t = none
  | .tooDeep => ∀ {s t rest}, Value (bracket :: s) t rest → within t = none
  | .inside body => ReadsInside bracket body within ever

namespace Form

variable {f : Form α} {D E : Raw → Option α}

/-- A meaning that takes the form's view of values without brackets. -/
structure Means (f : Form α) (meaning : Raw → Option α) : Prop where
  null : meaning .null = none
  number : ∀ lexeme, meaning (.number lexeme) = none
  bool : ∀ b, meaning (.bool b) = f.truth b
  string : ∀ points, meaning (.string points) = (text? points).bind f.text

/-- A meaning that values without brackets do not have. -/
structure Bracketed (meaning : Raw → Option α) : Prop where
  null : meaning .null = none
  number : ∀ lexeme, meaning (.number lexeme) = none
  bool : ∀ b, meaning (.bool b) = none
  string : ∀ points, meaning (.string points) = none

theorem Bracketed.means {meaning : Raw → Option α} (h : Bracketed meaning)
    (htext : f.text = fun _ => none) (htruth : f.truth = fun _ => none) : f.Means meaning where
  null := h.null
  number := h.number
  bool b := by rw [h.bool, htruth]
  string points := by rw [h.string, htext, Option.bind_fun_none]

theorem settle_eq_ok {meaning : Option α} {found : Found} {s rest : List Char} {a : α}
    (h : f.settle meaning found s = .ok (a, rest)) : meaning = some a ∧ rest = s := by
  unfold settle at h
  split at h
  · cases h
    exact ⟨rfl, rfl⟩
  · cases h

theorem readWord_eq_ok {letters : String} {meaning : Option α} {found : Found}
    {s rest : List Char} {a : α} (h : f.readWord letters meaning found s = .ok (a, rest)) :
    meaning = some a ∧ s = letters.toList ++ rest := by
  unfold readWord at h
  split at h
  · cases h
  · rename_i hl
    obtain ⟨hm, rfl⟩ := settle_eq_ok h
    exact ⟨hm, readLiteral_eq_ok hl⟩

theorem readWord_of_meaning {a : α} (letters : String) (found : Found) (rest : List Char) :
    f.readWord letters (some a) found (letters.toList ++ rest) = .ok (a, rest) := by
  simp only [readWord, readLiteral_append, settle]

theorem openBracket_sound {opening : Opening α} {found : Found} {bracket : Char}
    {s rest : List Char} {a : α} (ho : Opens bracket opening D E)
    (h : f.openBracket opening found bracket s = .ok (a, rest)) :
    ∃ t, Value (bracket :: s) t rest ∧ D t = some a := by
  cases opening with
  | refused => cases h
  | tooDeep => cases h
  | inside body => exact ho.sound h

theorem openBracket_answers {opening : Opening α} {found : Found} {bracket : Char}
    {s rest : List Char} {t : Raw} {a : α} (ho : Opens bracket opening D E)
    (ht : Value (bracket :: s) t rest) (ha : E t = some a) :
    Answers (D t) rest (f.openBracket opening found bracket s) := by
  cases opening with
  | refused => rw [ho ht] at ha; cases ha
  | tooDeep => rw [ho ht]; exact ⟨_, rfl⟩
  | inside body => exact ho.answers ht ha

theorem reads (hbelow : ∀ {t a}, D t = some a → E t = some a) (hD : f.Means D) (hE : f.Means E)
    (harray : Opens '[' f.array D E) (hobject : Opens '{' f.object D E) : Reads f.reader D E where
  below := hbelow
  sound {s a rest} h := by
    change f.run s = .ok (a, rest) at h
    unfold run at h
    split at h
    · cases h
    · cases (readWord_eq_ok h).1
    · rename_i hs
      obtain ⟨hm, rfl⟩ := readWord_eq_ok h
      exact ⟨.bool true, by rw [hs]; exact .true, by rw [hD.bool, hm]⟩
    · rename_i hs
      obtain ⟨hm, rfl⟩ := readWord_eq_ok h
      exact ⟨.bool false, by rw [hs]; exact .false, by rw [hD.bool, hm]⟩
    · rename_i hs
      split at h
      · cases h
      · rename_i text r htext
        obtain ⟨points, hp, ht⟩ := readString_eq_ok_iff.1 htext
        obtain ⟨hm, rfl⟩ := settle_eq_ok h
        exact ⟨.string points, by rw [hs]; exact .string hp, by rw [hD.string, ht]; exact hm⟩
    · rename_i hs
      rw [hs]
      exact openBracket_sound harray h
    · rename_i hs
      rw [hs]
      exact openBracket_sound hobject h
    · split at h
      · split at h <;> cases h
      · cases h
  answers {s t a rest} ht hrest ha := by
    change Answers (D t) rest (f.run s)
    generalize hv : skipSpace s = v at ht
    cases ht with
    | null => rw [hE.null] at ha; cases ha
    | true =>
        rw [hE.bool] at ha
        simp only [run, hv, hD.bool, ha]
        exact readWord_of_meaning "rue" _ rest
    | false =>
        rw [hE.bool] at ha
        simp only [run, hv, hD.bool, ha]
        exact readWord_of_meaning "alse" _ rest
    | number hn => rw [hE.number] at ha; cases ha
    | string hp =>
        rw [hE.string] at ha
        obtain ⟨text, htext, hm⟩ := Option.bind_eq_some_iff.1 ha
        simp only [run, hv, readString_eq_ok_iff.2 ⟨_, hp, htext⟩, hD.string, htext,
          Option.bind_some, hm]
        rfl
    | emptyArray hb =>
        simp only [run, hv]
        exact openBracket_answers harray (.emptyArray hb) ha
    | array hb ht hm =>
        simp only [run, hv]
        exact openBracket_answers harray (.array hb ht hm) ha
    | emptyObject hb =>
        simp only [run, hv]
        exact openBracket_answers hobject (.emptyObject hb) ha
    | object hb ht hm =>
        simp only [run, hv]
        exact openBracket_answers hobject (.object hb ht hm) ha

end Form

theorem Reader.read_eq_ok_iff {r : Reader α} {source : String} {a : α} :
    r.read source = .ok a ↔ ∃ rest, r.run source.toList = .ok (a, rest) ∧ skipSpace rest = [] := by
  unfold Reader.read Reader.readAll
  constructor
  · intro h
    split at h
    · cases h
    · rename_i hall
      cases h
      split at hall
      · cases hall
      · rename_i hrun
        split at hall
        · rename_i hrest
          cases hall
          exact ⟨_, hrun, hrest⟩
        · cases hall
  · rintro ⟨rest, hrun, hrest⟩
    simp only [hrun, hrest]

/-- A text is read to what it means, and to nothing if it is no JSON value or means nothing. -/
theorem Reads.read_eq_ok_iff {r : Reader α} {D : Raw → Option α} (h : Reads r D D)
    {source : String} {a : α} :
    r.read source = .ok a ↔ ∃ t, Text source.toList t ∧ D t = some a := by
  rw [Reader.read_eq_ok_iff]
  constructor
  · rintro ⟨rest, hrun, hrest⟩
    obtain ⟨t, ht, ha⟩ := h.sound hrun
    exact ⟨t, text_iff.2 ⟨rest, ht, hrest⟩, ha⟩
  · rintro ⟨t, htext, ha⟩
    obtain ⟨rest, ht, hrest⟩ := text_iff.1 htext
    have hrun := h.answers ht (delimited_of_skipSpace (by simp [hrest])) ha
    rw [ha] at hrun
    exact ⟨rest, hrun, hrest⟩

end PermitTypes.Json
