import Mathlib.Data.List.Forall2
import PermitTypes.Json.Record
import PermitTypes.Proofs.Json.Nesting
import PermitTypes.Proofs.Json.Objects

namespace PermitTypes.Json

open Grammar Scan

/-- At most `room` brackets are opened in a text above those that are open before it. -/
def Fits (room now : Nat) (s : List Char) : Prop := outside.most now s ≤ now + room

section

variable {room now : Nat} {s rest : List Char}

theorem fits_congr (h : outside.most now s = outside.most now rest) :
    Fits room now s ↔ Fits room now rest := by
  rw [Fits, Fits, h]

theorem fits_of_skipSpace (h : skipSpace s = rest) : Fits room now s ↔ Fits room now rest :=
  fits_congr ((blanks_of_skipSpace h).most_eq now)

theorem fits_plain {c : Char} (h : Plain c) : Fits room now (c :: rest) ↔ Fits room now rest :=
  fits_congr (most_plain h now rest)

theorem fits_word {word : List Char} (h : ∀ c ∈ word, Plain c) :
    Fits room now (word ++ rest) ↔ Fits room now rest :=
  fits_congr (most_append h now rest)

theorem fits_string {text : String} (h : readString s = .ok (text, rest)) :
    Fits room now ('"' :: s) ↔ Fits room now rest := by
  obtain ⟨points, hpoints, -⟩ := readString_eq_ok_iff.1 h
  exact fits_congr (most_string hpoints now)

theorem fits_value {t : Grammar.Raw} (h : Value (skipSpace s) t rest) (hs : Fits room now s) :
    Fits room now rest := by
  have hmost := h.most_eq now
  rw [fits_of_skipSpace rfl] at hs
  unfold Fits at hs ⊢
  omega

theorem not_fits_open {c : Char} (h : c ∈ ['[', '{']) : ¬ Fits 0 now (c :: s) := by
  have hle := le_most outside (now + 1) s
  rw [Fits, most_open h]
  omega

theorem fits_open {c : Char} (h : c ∈ ['[', '{']) :
    Fits (room + 1) now (c :: s) ↔ Fits room (now + 1) s := by
  rw [Fits, Fits, most_open h, Nat.add_assoc, Nat.add_comm room 1]

theorem fits_close {c : Char} (h : c ∈ [']', '}']) (hc : skipSpace s = c :: rest)
    (hs : Fits room (now + 1) s) : Fits (room + 1) now rest := by
  have hmost := most_close h now rest
  rw [fits_of_skipSpace hc] at hs
  unfold Fits at hs ⊢
  omega

theorem fits_readName {name : Option String} (h : readName s = .ok (name, rest)) :
    Fits room now ('"' :: s) ↔ Fits room now rest := by
  obtain ⟨text, -, htext⟩ := Members.readName_eq_ok.1 h
  exact fits_string htext

theorem fits_nextName {first : Bool} {name : String}
    (h : nextName first s = .ok (some name, rest)) (hs : Fits room now s) :
    Fits room now rest := by
  unfold nextName at h
  split at h
  · cases h
  · cases h
  · next c r _ hc =>
      rw [fits_of_skipSpace hc] at hs
      split at h
      · split at h
        · next hquote =>
            subst hquote
            exact (fits_readName h).1 hs
        · cases h
      · split at h
        · next hcomma =>
            subst hcomma
            rw [fits_plain (by decide)] at hs
            split at h
            · cases h
            · next hc' =>
                rw [fits_of_skipSpace hc'] at hs
                exact (fits_readName h).1 hs
            · cases h
            · cases h
        · cases h

theorem fits_readColon (h : readColon s = .ok rest) (hs : Fits room now s) :
    Fits room now rest := by
  rw [fits_of_skipSpace (Members.readColon_eq_ok.1 h), fits_plain (by decide)] at hs
  exact hs

theorem fits_nextElement {first : Bool} (h : nextElement first s = .ok (true, rest))
    (hs : Fits room now s) : Fits room now rest := by
  unfold nextElement at h
  split at h
  · cases h
  · cases h
  · next c r _ hc =>
      rw [fits_of_skipSpace hc] at hs
      split at h
      · cases h
        exact hs
      · split at h
        · next hcomma =>
            subst hcomma
            rw [fits_plain (by decide)] at hs
            split at h
            · cases h
            · cases h
            · cases h
              exact (fits_of_skipSpace rfl).1 hs
        · cases h

end

/-- Two steps do the same, up to their results, and leave a text of the given kind. -/
inductive Alike {α β : Type} (rel : α → β → Prop) (left : List Char → Prop) :
    Step α → Step β → Prop
  | error (fault : Fault) : Alike rel left (.error fault) (.error fault)
  | ok {a : α} {b : β} {rest : List Char} : rel a b → left rest →
      Alike rel left (.ok (a, rest)) (.ok (b, rest))

theorem Alike.eq {α : Type} {left : List Char → Prop} {x y : Step α} (h : Alike Eq left x y) :
    x = y := by
  cases h with
  | error fault => rfl
  | ok hab => rw [hab]

/-- Two readers do the same with a text that fits the room, and what they leave fits as well. -/
def Reader.Agree {α β : Type} (room : Nat) (rel : α → β → Prop) (r : Reader α)
    (r' : Reader β) : Prop :=
  ∀ ⦃now s⦄, Fits room now s → Alike rel (Fits room now) (r.run s) (r'.run s)

/-- The same of what reads the inside of a bracket: it leaves what follows the bracket. -/
def Reader.AgreeInside {α β : Type} (room : Nat) (rel : α → β → Prop) (r : Reader α)
    (r' : Reader β) : Prop :=
  ∀ ⦃now s⦄, Fits room (now + 1) s → Alike rel (Fits (room + 1) now) (r.run s) (r'.run s)

section

variable {α β γ δ : Type} {left : List Char → Prop} {r : Reader α} {r' : Reader β} {room : Nat}
  {rel : α → β → Prop} {rel' : γ → δ → Prop} {f : α → γ} {f' : β → δ}

theorem Alike.map {s : List Char} (h : Alike rel left (r.run s) (r'.run s))
    (hf : ∀ {a b}, rel a b → rel' (f a) (f' b)) :
    Alike rel' left ((r.map f).run s) ((r'.map f').run s) := by
  unfold Reader.map
  dsimp only
  generalize r.run s = x at h
  generalize r'.run s = y at h
  cases h with
  | error fault => exact .error fault
  | ok hab hrest => exact .ok (hf hab) hrest

namespace Reader

theorem Agree.map (h : Agree room rel r r') (hf : ∀ {a b}, rel a b → rel' (f a) (f' b)) :
    Agree room rel' (r.map f) (r'.map f') :=
  fun _ _ hs => (h hs).map hf

theorem Agree.map_eq {r r' : Reader α} (h : Agree room Eq r r') (f : α → γ) :
    Agree room Eq (r.map f) (r'.map f) :=
  h.map (congrArg f)

theorem Agree.ignored {a : α} {b : β} (hab : rel a b) :
    Agree room rel (.ignored a) (.ignored b) := by
  intro now s hs
  unfold Reader.ignored
  dsimp only
  cases hv : Skip.value [] s with
  | error fault => exact .error fault
  | ok rest =>
      obtain ⟨t, ht⟩ := exists_value_of_skip hv
      exact .ok hab (fits_value ht hs)

theorem Agree.nullable {r r' : Reader α} (h : Agree room Eq r r') :
    Agree room Eq r.nullable r'.nullable := by
  intro now s hs
  unfold Reader.nullable
  dsimp only
  split
  · next letters hn =>
      cases hl : readLiteral "ull".toList letters with
      | error fault => exact .error fault
      | ok rest =>
          obtain rfl := readLiteral_eq_ok hl
          rw [fits_of_skipSpace hn, fits_plain (by decide),
            fits_word (List.all_iff_forall_prop.1 (by decide))] at hs
          exact .ok rfl hs
  · exact h.map_eq some hs

end Reader

end

section

variable {σ σ' α : Type} {room : Nat} {rel : σ → σ' → Prop}

/-- Two ways to make up a value of members that go on alike. -/
structure Members.Agree (room : Nat) (rel : σ → σ' → Prop) (m : Members σ α)
    (m' : Members σ' α) : Prop where
  start : rel m.start m'.start
  finish : ∀ {st st'}, rel st st' → m.finish st = m'.finish st'
  member : ∀ {st st'}, rel st st' → ∀ name,
    (∃ cause, m.member st name = .error cause ∧ m'.member st' name = .error cause) ∨
      ∃ r r', m.member st name = .ok r ∧ m'.member st' name = .ok r' ∧
        Reader.Agree room rel r r'

namespace Members.Agree

variable {m : Members σ α} {m' : Members σ' α} (h : m.Agree room rel m')
include h

theorem ended {left : List Char → Prop} {st : σ} {st' : σ'} (hst : rel st st')
    {rest : List Char} (hrest : left rest) :
    Alike Eq left (m.ended st rest) (m'.ended st' rest) := by
  unfold Members.ended
  rw [h.finish hst]
  cases m'.finish st' with
  | error cause => exact .error _
  | ok a => exact .ok rfl hrest

theorem loop {now : Nat} (first : Bool) {st : σ} {st' : σ'} (hst : rel st st') {s : List Char}
    (hs : Fits room (now + 1) s) :
    Alike Eq (Fits (room + 1) now) (m.loop first st s) (m'.loop first st' s) := by
  rw [Members.loop_eq, Members.loop_eq]
  match hn : nextName first s with
  | .error fault => exact .error fault
  | .ok (none, rest) => exact h.ended hst (fits_close (by decide) (nextName_eq_none hn) hs)
  | .ok (some name, rest) =>
      have hrest := fits_nextName hn hs
      rcases h.member hst name with ⟨cause, hm, hm'⟩ | ⟨r, r', hm, hm', hr⟩
      · simp only [hm, hm']
        exact .error _
      · simp only [hm, hm']
        cases hc : readColon rest with
        | error fault => exact .error fault
        | ok value =>
            have hread := hr (fits_readColon hc hrest)
            dsimp only
            generalize hv : r.run value = x at hread
            generalize r'.run value = y at hread
            cases hread with
            | error fault => exact .error fault
            | ok hnext hafter =>
                have := length_of_nextName hn
                have := length_of_readColon hc
                have := r.shrinks hv
                exact loop false hnext hafter
termination_by s.length

theorem inside : Reader.AgreeInside room Eq m.reader m'.reader :=
  fun _ _ hs => h.loop true h.start hs

end Members.Agree

/-- Two ways to make up a value of elements that go on alike. -/
structure Elements.Agree (room : Nat) (rel : σ → σ' → Prop) (e : Elements σ α)
    (e' : Elements σ' α) : Prop where
  start : rel e.start e'.start
  finish : ∀ {st st'}, rel st st' → e.finish st = e'.finish st'
  element : ∀ {st st'}, rel st st' →
    Option.Rel (Reader.Agree room rel) (e.element st) (e'.element st')

namespace Elements.Agree

variable {e : Elements σ α} {e' : Elements σ' α} (h : e.Agree room rel e')
include h

theorem ended {left : List Char → Prop} {st : σ} {st' : σ'} (hst : rel st st')
    {rest : List Char} (hrest : left rest) :
    Alike Eq left (e.ended st rest) (e'.ended st' rest) := by
  unfold Elements.ended
  rw [h.finish hst]
  cases e'.finish st' with
  | error cause => exact .error _
  | ok a => exact .ok rfl hrest

theorem loop {now : Nat} (first : Bool) {st : σ} {st' : σ'} (hst : rel st st') {s : List Char}
    (hs : Fits room (now + 1) s) :
    Alike Eq (Fits (room + 1) now) (e.loop first st s) (e'.loop first st' s) := by
  rw [Elements.loop_eq, Elements.loop_eq]
  have helement := h.element hst
  generalize e.element st = x at helement
  generalize e'.element st' = y at helement
  cases helement with
  | none =>
      cases he : endElements s with
      | error fault => exact .error fault
      | ok rest => exact h.ended hst (fits_close (by decide) (endElements_eq_ok.1 he) hs)
  | @some r r' hr =>
      match hn : nextElement first s with
      | .error fault => exact .error fault
      | .ok (false, rest) =>
          exact h.ended hst (fits_close (by decide) (nextElement_eq_false hn) hs)
      | .ok (true, value) =>
          have hread := hr (fits_nextElement hn hs)
          dsimp only
          generalize hv : r.run value = x at hread
          generalize r'.run value = y at hread
          cases hread with
          | error fault => exact .error fault
          | ok hnext hafter =>
              have := length_of_nextElement hn
              have := r.shrinks hv
              exact loop false hnext hafter
termination_by s.length
decreasing_by simp only [if_true] at *; omega

theorem inside : Reader.AgreeInside room Eq e.reader e'.reader :=
  fun _ _ hs => h.loop true h.start hs

end Elements.Agree

end

/-- Two openings do the same; without room for the bracket they may be any. -/
inductive Opening.Agree {α : Type} : Nat → Opening α → Opening α → Prop
  | noRoom {o o' : Opening α} : Agree 0 o o'
  | refused {room : Nat} : Agree room .refused .refused
  | inside {room : Nat} {body body' : Reader α} : Reader.AgreeInside room Eq body body' →
      Agree (room + 1) (.inside body) (.inside body')

namespace Form

variable {α : Type} {room now : Nat} {expected : String} {text : String → Option α}
  {truth : Bool → Option α} {array array' object object' : Opening α}

theorem settle_alike {meaning : Option α} {found : Found} {rest : List Char}
    (hrest : Fits room now rest) :
    Alike Eq (Fits room now)
      (settle ⟨expected, text, truth, array, object⟩ meaning found rest)
      (settle ⟨expected, text, truth, array', object'⟩ meaning found rest) := by
  cases meaning with
  | none => exact .error _
  | some a => exact .ok rfl hrest

theorem readWord_alike {letters : String} (hletters : ∀ c ∈ letters.toList, Plain c)
    {meaning : Option α} {found : Found} {s : List Char} (hs : Fits room now s) :
    Alike Eq (Fits room now)
      (readWord ⟨expected, text, truth, array, object⟩ letters meaning found s)
      (readWord ⟨expected, text, truth, array', object'⟩ letters meaning found s) := by
  unfold readWord
  cases hl : readLiteral letters.toList s with
  | error fault => exact .error fault
  | ok rest =>
      obtain rfl := readLiteral_eq_ok hl
      exact settle_alike ((fits_word hletters).1 hs)

theorem openBracket_alike {opening opening' : Opening α} (h : Opening.Agree room opening opening')
    {found : Found} {bracket : Char} (hb : bracket ∈ ['[', '{']) {s : List Char}
    (hs : Fits room now (bracket :: s)) :
    Alike Eq (Fits room now)
      (openBracket ⟨expected, text, truth, array, object⟩ opening found bracket s)
      (openBracket ⟨expected, text, truth, array', object'⟩ opening' found bracket s) := by
  cases h with
  | noRoom => exact absurd hs (not_fits_open hb)
  | refused => exact .error _
  | inside h => exact h ((fits_open hb).1 hs)

theorem agree (harray : Opening.Agree room array array')
    (hobject : Opening.Agree room object object') :
    Reader.Agree room Eq (reader ⟨expected, text, truth, array, object⟩)
      (reader ⟨expected, text, truth, array', object'⟩) := by
  intro now s hs
  change Alike Eq _ (run _ s) (run _ s)
  unfold run
  split
  · exact .error _
  · next hc =>
      rw [fits_of_skipSpace hc, fits_plain (by decide)] at hs
      exact readWord_alike (List.all_iff_forall_prop.1 (by decide)) hs
  · next hc =>
      rw [fits_of_skipSpace hc, fits_plain (by decide)] at hs
      exact readWord_alike (List.all_iff_forall_prop.1 (by decide)) hs
  · next hc =>
      rw [fits_of_skipSpace hc, fits_plain (by decide)] at hs
      exact readWord_alike (List.all_iff_forall_prop.1 (by decide)) hs
  · next quoted hc =>
      rw [fits_of_skipSpace hc] at hs
      cases ht : readString quoted with
      | error fault => exact .error fault
      | ok found => exact settle_alike ((fits_string ht).1 hs)
  · next hc => exact openBracket_alike harray (by decide) ((fits_of_skipSpace hc).1 hs)
  · next hc => exact openBracket_alike hobject (by decide) ((fits_of_skipSpace hc).1 hs)
  · next c rest _ _ _ _ _ _ hc =>
      split
      · cases readNumber (c :: rest) with
        | error fault => exact .error fault
        | ok found => exact .error _
      · exact .error _

end Form

section

variable {α : Type} {room : Nat} {r r' : Reader α}

theorem mapMembers_agree (h : Reader.Agree room Eq r r') :
    Members.Agree room Eq (mapMembers r) (mapMembers r') where
  start := rfl
  finish {st st'} hst := by
    subst hst
    rfl
  member {st st'} hst name := by
    subst hst
    exact .inr ⟨_, _, rfl, rfl, h.map_eq _⟩

end

/-- Two parts of one name that are read alike. -/
structure Field.Agree {δ : Type} (room : Nat) (f f' : Field δ) : Prop where
  name : f.name = f'.name
  value : Reader.Agree room Eq f.value f'.value

/-- Two records whose parts are read alike. -/
structure Record.Agree {δ α : Type} (room : Nat) (r r' : Record δ α) : Prop where
  expected : r.expected = r'.expected
  draft : r.draft = r'.draft
  finish : r.finish = r'.finish
  fields : List.Forall₂ (Field.Agree room) r.fields r'.fields

namespace Record.Agree

variable {δ α : Type} {room : Nat} {fs fs' : List (Field δ)} {r r' : Record δ α}

theorem find? (h : List.Forall₂ (Field.Agree room) fs fs') (name : String) :
    Option.Rel (Field.Agree room) (fs.find? (·.name = name)) (fs'.find? (·.name = name)) := by
  induction h with
  | nil => exact .none
  | cons hf _ ih =>
      rw [List.find?_cons, List.find?_cons, hf.name]
      split
      · exact .some hf
      · exact ih

theorem findIdx (h : List.Forall₂ (Field.Agree room) fs fs') (name : String) :
    fs.findIdx (·.name = name) = fs'.findIdx (·.name = name) := by
  induction h with
  | nil => rfl
  | cons hf _ ih => rw [List.findIdx_cons, List.findIdx_cons, hf.name, ih]

theorem members (h : r.Agree room r') : Members.Agree room Eq r.members r'.members where
  start := by rw [Record.members, Record.members, h.draft]
  finish {st st'} hst := by
    subst hst
    simp only [Record.members, h.finish]
  member {st st'} hst name := by
    subst hst
    have hfind := find? h.fields name
    simp only [Record.members]
    generalize r.fields.find? (·.name = name) = x at hfind
    generalize r'.fields.find? (·.name = name) = y at hfind
    cases hfind with
    | none => exact .inr ⟨_, _, rfl, rfl, Reader.Agree.ignored rfl⟩
    | some hf =>
        dsimp only
        split
        · exact .inl ⟨_, rfl, rfl⟩
        · exact .inr ⟨_, _, rfl, rfl, hf.value.map fun hset => by rw [hset]⟩

/-- What is left of two records to be listed, after drafts that are the same. -/
def Going (room : Nat) (st st' : Listed δ) : Prop :=
  st.draft = st'.draft ∧ List.Forall₂ (Field.Agree room) st.remaining st'.remaining

theorem elements (h : r.Agree room r') :
    Elements.Agree room (Going room) r.elements r'.elements where
  start := ⟨h.draft, h.fields⟩
  finish {st st'} hst := by
    have hlength := h.fields.length_eq
    simp only [Record.elements, h.finish, hst.1, h.expected, hlength, findIdx h.fields]
  element {st st'} hst := by
    obtain ⟨draft, remaining⟩ := st
    obtain ⟨draft', remaining'⟩ := st'
    obtain ⟨hdraft, hremaining⟩ := hst
    dsimp only at hdraft hremaining
    subst hdraft
    cases hremaining with
    | nil => exact .none
    | cons hf hothers => exact .some (hf.value.map fun hset => ⟨by rw [hset], hothers⟩)

theorem form (h : r.Agree room r') :
    Reader.Agree (room + 1) Eq r.form.reader r'.form.reader := by
  have hexpected : r.form = ⟨r'.expected, fun _ => none, fun _ => none,
      .inside r.elements.reader, .inside r.members.reader⟩ := by
    rw [Record.form, h.expected]
  rw [hexpected]
  exact Form.agree (.inside h.elements.inside) (.inside h.members.inside)

end Record.Agree

end PermitTypes.Json
