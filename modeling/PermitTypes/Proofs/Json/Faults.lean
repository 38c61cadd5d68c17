import PermitTypes.Json.Record
import PermitTypes.Json.Skip.Nested

namespace PermitTypes.Json

theorem size_cons (c : Char) (s : List Char) : size (c :: s) = c.utf8Size + size s :=
  rfl

theorem size_append (a b : List Char) : size (a ++ b) = size a + size b := by
  induction a with
  | nil => exact (Nat.zero_add _).symm
  | cons c a ih => rw [List.cons_append, size_cons, size_cons, ih, Nat.add_assoc]

theorem size_le_of_suffix {s rest : List Char} (h : rest <:+ s) : size rest ≤ size s := by
  obtain ⟨front, rfl⟩ := h
  rw [size_append]
  omega

theorem suffix_of_cons_suffix {c : Char} {s rest : List Char} (h : c :: rest <:+ s) : rest <:+ s :=
  (List.suffix_cons c rest).trans h

theorem suffix_of_skipSpace {s rest : List Char} (h : skipSpace s = rest) : rest <:+ s :=
  h ▸ List.dropWhile_suffix isSpace

/-- What a step leaves is an end of its text, and what is wrong lies within the text. -/
def Inside {β : Type} (left : β → List Char) (s : List Char) : Except Fault β → Prop
  | .ok b => left b <:+ s
  | .error fault => fault.left ≤ size s

section

variable {β γ : Type} {left : β → List Char} {left' : γ → List Char} {s rest : List Char}

theorem inside_before (h : rest <:+ s) (cause : Cause) :
    Inside left s (.error (.before cause rest)) :=
  size_le_of_suffix h

theorem inside_within (h : rest <:+ s) (cause : Cause) :
    Inside left s (.error (.within cause rest)) :=
  Nat.le_trans (Nat.sub_le _ _) (size_le_of_suffix h)

theorem inside_end (cause : Cause) : Inside left s (.error ⟨cause, 0⟩) :=
  Nat.zero_le _

namespace Inside

variable {x : Except Fault β}

theorem of_suffix (hx : Inside left rest x) (h : rest <:+ s) : Inside left s x := by
  cases x with
  | error fault => exact Nat.le_trans hx (size_le_of_suffix h)
  | ok b => exact List.IsSuffix.trans hx h

theorem error (hx : Inside left s x) {fault : Fault} (h : x = .error fault) :
    Inside left' s (.error fault) := by
  rw [h] at hx
  exact hx

theorem left_le (hx : Inside left s x) {fault : Fault} (h : x = .error fault) :
    fault.left ≤ size s := by
  rw [h] at hx
  exact hx

theorem ok (hx : Inside left s x) {b : β} (h : x = .ok b) : left b <:+ s := by
  rw [h] at hx
  exact hx

end Inside

end

theorem inside_readLiteral (letters s : List Char) : Inside id s (readLiteral letters s) := by
  fun_induction readLiteral letters s with
  | case1 => exact List.suffix_rfl
  | case2 => exact inside_end _
  | case3 l letters s ih => exact ih.of_suffix (List.suffix_cons ..)
  | case4 => exact inside_within List.suffix_rfl _

theorem hexFault_left_le (s : List Char) : (hexFault s).left ≤ size s := by
  unfold hexFault
  split
  · exact Nat.zero_le _
  · exact Nat.sub_le _ _

theorem inside_readHex (s : List Char) : Inside Prod.snd s (readHex s) := by
  unfold readHex
  split
  · split
    · exact ⟨[_, _, _, _], rfl⟩
    · exact hexFault_left_le _
  · exact hexFault_left_le s

theorem inside_readLow (high : Nat) (s : List Char) : Inside Prod.snd s (readLow high s) := by
  unfold readLow
  split
  · next digits =>
      have hdigits : digits <:+ '\\' :: 'u' :: digits := ⟨['\\', 'u'], rfl⟩
      split
      · next hd => exact ((inside_readHex digits).error hd).of_suffix hdigits
      · next n rest hd =>
          have hrest : rest <:+ _ := ((inside_readHex digits).ok hd).trans hdigits
          split
          · exact hrest
          · exact inside_before hrest _
  · exact inside_end _
  · exact inside_end _
  · exact inside_within (List.suffix_cons ..) _
  · exact inside_within List.suffix_rfl _

theorem inside_readCodePoint (s : List Char) : Inside Prod.snd s (readCodePoint s) := by
  unfold readCodePoint
  split
  · next hd => exact (inside_readHex s).error hd
  · next n rest hd =>
      have hrest : rest <:+ s := (inside_readHex s).ok hd
      split
      · exact inside_before hrest _
      · split
        · exact (inside_readLow n rest).of_suffix hrest
        · exact hrest

theorem inside_readEscape (s : List Char) : Inside Prod.snd s (readEscape s) := by
  unfold readEscape
  split
  · exact inside_end _
  · exact (inside_readCodePoint _).of_suffix (List.suffix_cons ..)
  · split
    · exact List.suffix_cons ..
    · exact inside_within List.suffix_rfl _

theorem inside_readChars (taken s : List Char) : Inside Prod.snd s (readChars taken s) := by
  fun_induction readChars taken s with
  | case1 => exact inside_end _
  | case2 => exact List.suffix_cons ..
  | case3 taken escape f he =>
      exact ((inside_readEscape escape).error he).of_suffix (List.suffix_cons ..)
  | case4 taken escape c rest he _ ih =>
      have hrest : rest <:+ escape := (inside_readEscape escape).ok he
      exact ih.of_suffix (hrest.trans (List.suffix_cons ..))
  | case5 => exact inside_before (List.suffix_cons ..) _
  | case6 taken c rest _ _ _ ih => exact ih.of_suffix (List.suffix_cons ..)

theorem inside_readString (s : List Char) : Inside Prod.snd s (readString s) := by
  unfold readString
  split
  · next hc => exact (inside_readChars [] s).error hc
  · next hc => exact (inside_readChars [] s).ok hc

section Number

theorem inside_readExponentDigits (huge : Bool) (exponent : Nat) (s : List Char) :
    Inside Prod.snd s (readExponentDigits huge exponent s) := by
  induction s generalizing exponent with
  | nil => exact List.suffix_rfl
  | cons c s ih =>
      rw [readExponentDigits]
      split
      · dsimp only
        split
        · exact inside_before (List.suffix_cons ..) _
        · exact (ih _).of_suffix (List.suffix_cons ..)
      · exact List.suffix_rfl

theorem inside_readExponent (nonzero : Bool) (s : List Char) :
    Inside Prod.snd s (readExponent nonzero s) := by
  unfold readExponent
  split
  next negative t hsign =>
  have ht : t <:+ s := by
    split at hsign <;> cases hsign
    · exact List.suffix_cons ..
    · exact List.suffix_cons ..
    · exact List.suffix_rfl
  split
  · exact inside_end _
  · next c rest =>
      split
      · split
        · next hd =>
            exact ((inside_readExponentDigits ..).error hd).of_suffix (suffix_of_cons_suffix ht)
        · next hd => exact ((inside_readExponentDigits ..).ok hd).trans (suffix_of_cons_suffix ht)
      · exact inside_within ht _

theorem inside_readFraction (s : List Char) : Inside Prod.snd s (readFraction s) := by
  unfold readFraction
  split
  · exact inside_end _
  · split
    · exact (List.dropWhile_suffix _).trans (List.suffix_cons ..)
    · exact inside_within List.suffix_rfl _

theorem inside_readWhole (s : List Char) : Inside Prod.snd s (readWhole s) := by
  unfold readWhole
  split
  · exact inside_end _
  · split
    · exact inside_within (List.suffix_cons ..) _
    · exact List.suffix_cons ..
  · split
    · exact (List.dropWhile_suffix _).trans (List.suffix_cons ..)
    · exact inside_within List.suffix_rfl _

theorem inside_readTail (n : Numeral) (s : List Char) : Inside Prod.snd s (readTail n s) := by
  unfold readTail
  split
  · split
    · next he => exact ((inside_readExponent ..).error he).of_suffix (List.suffix_cons ..)
    · next he => exact ((inside_readExponent ..).ok he).trans (List.suffix_cons ..)
  · split
    · next he => exact ((inside_readExponent ..).error he).of_suffix (List.suffix_cons ..)
    · next he => exact ((inside_readExponent ..).ok he).trans (List.suffix_cons ..)
  · exact List.suffix_rfl

theorem inside_readUnsigned (negative : Bool) (s : List Char) :
    Inside Prod.snd s (readUnsigned negative s) := by
  unfold readUnsigned
  split
  · next hw => exact (inside_readWhole s).error hw
  · next digits rest hw =>
      have hrest : rest <:+ s := (inside_readWhole s).ok hw
      dsimp only
      split
      · next point =>
          have hpoint : point <:+ s := suffix_of_cons_suffix hrest
          split
          · next hf => exact ((inside_readFraction point).error hf).of_suffix hpoint
          · next fraction after hf =>
              have hafter : after <:+ point := (inside_readFraction point).ok hf
              exact (inside_readTail _ after).of_suffix (hafter.trans hpoint)
      · exact (inside_readTail _ rest).of_suffix hrest

theorem inside_readNumber (s : List Char) : Inside Prod.snd s (readNumber s) := by
  unfold readNumber
  dsimp only
  split
  · next hn =>
      split at hn
      · exact ((inside_readUnsigned true _).error hn).of_suffix (List.suffix_cons ..)
      · exact (inside_readUnsigned false s).error hn
  · next n rest hn =>
      have hrest : rest <:+ s := by
        split at hn
        · exact ((inside_readUnsigned true _).ok hn).trans (List.suffix_cons ..)
        · exact (inside_readUnsigned false s).ok hn
      split
      · exact inside_before hrest _
      · exact hrest

end Number

namespace Skip

theorem inside_escape (s : List Char) : Inside id s (escape s) := by
  unfold escape
  split
  · exact inside_end _
  · split
    · next hd => exact ((inside_readHex _).error hd).of_suffix (List.suffix_cons ..)
    · next hd => exact ((inside_readHex _).ok hd).trans (List.suffix_cons ..)
  · split
    · exact List.suffix_cons ..
    · exact inside_within List.suffix_rfl _

theorem inside_string (s : List Char) : Inside id s (string s) := by
  fun_induction string s with
  | case1 => exact inside_end _
  | case2 => exact List.suffix_cons ..
  | case3 escaped f he =>
      exact ((inside_escape escaped).error he).of_suffix (List.suffix_cons ..)
  | case4 escaped rest he _ ih =>
      have hrest : rest <:+ escaped := (inside_escape escaped).ok he
      exact ih.of_suffix (hrest.trans (List.suffix_cons ..))
  | case5 => exact inside_before List.suffix_rfl _
  | case6 c rest _ _ _ ih => exact ih.of_suffix (List.suffix_cons ..)

theorem inside_someDigits (s : List Char) : Inside id s (someDigits s) := by
  unfold someDigits
  split
  · exact inside_end _
  · split
    · exact (List.dropWhile_suffix _).trans (List.suffix_cons ..)
    · exact inside_within List.suffix_rfl _

theorem sign_suffix (s : List Char) : sign s <:+ s := by
  unfold sign
  split
  · exact List.suffix_cons ..
  · exact List.suffix_cons ..
  · exact List.suffix_rfl

theorem inside_exponent (s : List Char) : Inside id s (exponent s) := by
  unfold exponent
  split
  · exact (inside_someDigits _).of_suffix ((sign_suffix _).trans (List.suffix_cons ..))
  · exact (inside_someDigits _).of_suffix ((sign_suffix _).trans (List.suffix_cons ..))
  · exact List.suffix_rfl

theorem inside_fraction (s : List Char) : Inside id s (fraction s) := by
  unfold fraction
  split
  · next point =>
      split
      · next hd => exact ((inside_someDigits point).error hd).of_suffix (List.suffix_cons ..)
      · next rest hd =>
          have hrest : rest <:+ point := (inside_someDigits point).ok hd
          exact (inside_exponent rest).of_suffix (hrest.trans (List.suffix_cons ..))
  · exact inside_exponent s

theorem inside_number (s : List Char) : Inside id s (number s) := by
  unfold number
  split
  · split
    · exact inside_within (List.suffix_cons ..) _
    · exact (inside_fraction _).of_suffix (List.suffix_cons ..)
  · split
    · next hd => exact (inside_someDigits s).error hd
    · next rest hd => exact (inside_fraction rest).of_suffix ((inside_someDigits s).ok hd)

theorem inside_scalar {s : List Char} {x : Skip} (h : scalar s = some x) : Inside id s x := by
  unfold scalar at h
  split at h <;> cases h
  · exact inside_end _
  · exact (inside_readLiteral _ _).of_suffix (List.suffix_cons ..)
  · exact (inside_readLiteral _ _).of_suffix (List.suffix_cons ..)
  · exact (inside_readLiteral _ _).of_suffix (List.suffix_cons ..)
  · exact (inside_string _).of_suffix (List.suffix_cons ..)
  · exact (inside_number _).of_suffix (List.suffix_cons ..)
  · split
    · exact inside_number _
    · exact inside_within List.suffix_rfl _

theorem inside_name (s : List Char) : Inside id s (name s) := by
  unfold name
  split
  · exact inside_end _
  · next quoted hs =>
      have hquoted := suffix_of_cons_suffix (suffix_of_skipSpace hs)
      split
      · next hr => exact ((inside_string quoted).error hr).of_suffix hquoted
      · next rest hr =>
          have hrest : rest <:+ s := ((inside_string quoted).ok hr).trans hquoted
          split
          · exact inside_end _
          · next hc => exact (suffix_of_cons_suffix (suffix_of_skipSpace hc)).trans hrest
          · exact inside_within ((suffix_of_skipSpace rfl).trans hrest) _
  · exact inside_within (suffix_of_skipSpace rfl) _

theorem inside_enter (frame : Frame) (s : List Char) : Inside id s (enter frame s) := by
  cases frame with
  | array => exact List.suffix_rfl
  | object => exact inside_name s

mutual

theorem inside_value (frames : List Frame) (s : List Char) : Inside id s (value frames s) := by
  unfold value
  split
  · next h => exact (inside_scalar h).of_suffix (suffix_of_skipSpace rfl)
  · next rest h =>
      have hrest : rest <:+ s := ((inside_scalar h).ok rfl).trans (suffix_of_skipSpace rfl)
      have := length_of_scalar h
      have := length_skipSpace_le s
      exact (inside_ended frames rest).of_suffix hrest
  · split
    · exact inside_end _
    · next c rest hs =>
        have := length_of_skipSpace hs
        exact (inside_opened _ frames rest).of_suffix
          (suffix_of_cons_suffix (suffix_of_skipSpace hs))
termination_by (s.length, 0)
decreasing_by all_goals omega

theorem inside_opened (frame : Frame) (frames : List Frame) (s : List Char) :
    Inside id s (opened frame frames s) := by
  unfold opened
  split
  · exact inside_end _
  · next c rest hs =>
      have hcons := suffix_of_skipSpace hs
      have := length_of_skipSpace hs
      split
      · exact (inside_ended frames rest).of_suffix (suffix_of_cons_suffix hcons)
      · split
        · next he => exact ((inside_enter frame _).error he).of_suffix hcons
        · next member he =>
            have hmember : member <:+ c :: rest := (inside_enter frame _).ok he
            have : member.length ≤ rest.length + 1 := length_of_enter he
            exact (inside_value (frame :: frames) member).of_suffix (hmember.trans hcons)
termination_by (s.length, 1)
decreasing_by all_goals omega

theorem inside_ended (frames : List Frame) (s : List Char) : Inside id s (ended frames s) := by
  unfold ended
  split
  · exact List.suffix_rfl
  · next frame frames =>
      split
      · exact inside_end _
      · next c rest hs =>
          have hcons := suffix_of_skipSpace hs
          have hrest := suffix_of_cons_suffix hcons
          have := length_of_skipSpace hs
          split
          · split
            · next he => exact ((inside_enter frame rest).error he).of_suffix hrest
            · next member he =>
                have hmember : member <:+ rest := (inside_enter frame rest).ok he
                have := length_of_enter he
                exact (inside_value (frame :: frames) member).of_suffix (hmember.trans hrest)
          · split
            · exact (inside_ended frames rest).of_suffix hrest
            · exact inside_within hcons _
termination_by (s.length, 0)
decreasing_by all_goals omega

end

end Skip

/-- A reader leaves an end of its text, or finds what is wrong within the text. -/
def Reader.Stays {α : Type} (r : Reader α) : Prop := ∀ s, Inside Prod.snd s (r.run s)

namespace Reader.Stays

variable {α β : Type} {r : Reader α}

theorem map (h : r.Stays) (f : α → β) : (r.map f).Stays := by
  intro s
  unfold Reader.map
  dsimp only
  split
  · next hr => exact (h s).error hr
  · next hr => exact (h s).ok hr

theorem ignored (a : α) : (Reader.ignored a).Stays := by
  intro s
  unfold Reader.ignored
  dsimp only
  split
  · next hr => exact (Skip.inside_value [] s).error hr
  · next hr => exact (Skip.inside_value [] s).ok hr

theorem nullable (h : r.Stays) : r.nullable.Stays := by
  intro s
  unfold Reader.nullable
  dsimp only
  split
  · next letters hs =>
      have hletters := suffix_of_cons_suffix (suffix_of_skipSpace hs)
      split
      · next hl => exact ((inside_readLiteral _ letters).error hl).of_suffix hletters
      · next hl => exact ((inside_readLiteral _ letters).ok hl).trans hletters
  · exact h.map some s

end Reader.Stays

section Brackets

theorem inside_nextElement (first : Bool) (s : List Char) :
    Inside Prod.snd s (nextElement first s) := by
  unfold nextElement
  split
  · exact inside_end _
  · next hs => exact suffix_of_cons_suffix (suffix_of_skipSpace hs)
  · next c rest _ hs =>
      have hcons := suffix_of_skipSpace hs
      have hrest := suffix_of_cons_suffix hcons
      split
      · exact hcons
      · split
        · split
          · exact inside_end _
          · next hs' => exact inside_within ((suffix_of_skipSpace hs').trans hrest) _
          · exact (suffix_of_skipSpace rfl).trans hrest
        · exact inside_within hcons _

theorem inside_endElements (s : List Char) : Inside id s (endElements s) := by
  unfold endElements
  split
  · exact inside_end _
  · next hs => exact suffix_of_cons_suffix (suffix_of_skipSpace hs)
  · next rest hs =>
      have hrest := suffix_of_cons_suffix (suffix_of_skipSpace hs)
      split
      · next hs' => exact inside_within ((suffix_of_skipSpace hs').trans hrest) _
      · exact inside_within ((suffix_of_skipSpace rfl).trans hrest) _
  · exact inside_within (suffix_of_skipSpace rfl) _

theorem inside_readName (s : List Char) : Inside Prod.snd s (readName s) := by
  unfold readName
  split
  · next hs => exact (inside_readString s).error hs
  · next hs => exact (inside_readString s).ok hs

theorem inside_nextName (first : Bool) (s : List Char) : Inside Prod.snd s (nextName first s) := by
  unfold nextName
  split
  · exact inside_end _
  · next hs => exact suffix_of_cons_suffix (suffix_of_skipSpace hs)
  · next c rest _ hs =>
      have hcons := suffix_of_skipSpace hs
      have hrest := suffix_of_cons_suffix hcons
      split
      · split
        · exact (inside_readName rest).of_suffix hrest
        · exact inside_within hcons _
      · split
        · split
          · exact inside_end _
          · next hs' =>
              exact (inside_readName _).of_suffix
                ((suffix_of_cons_suffix (suffix_of_skipSpace hs')).trans hrest)
          · next hs' => exact inside_within ((suffix_of_skipSpace hs').trans hrest) _
          · exact inside_within ((suffix_of_skipSpace rfl).trans hrest) _
        · exact inside_within hcons _

theorem inside_readColon (s : List Char) : Inside id s (readColon s) := by
  unfold readColon
  split
  · exact inside_end _
  · next hs => exact suffix_of_cons_suffix (suffix_of_skipSpace hs)
  · exact inside_within (suffix_of_skipSpace rfl) _

theorem closeObject_suffix (s : List Char) : closeObject s <:+ s := by
  unfold closeObject
  split
  · next hs => exact suffix_of_cons_suffix (suffix_of_skipSpace hs)
  · exact suffix_of_skipSpace rfl

variable {σ α : Type}

theorem Elements.inside_ended (e : Elements σ α) (state : σ) (s : List Char) :
    Inside Prod.snd s (e.ended state s) := by
  unfold Elements.ended
  split
  · exact inside_before List.suffix_rfl _
  · exact List.suffix_rfl

/-- What the states of a run have in common, so that its readers stay inside their texts. -/
structure Elements.Stays (e : Elements σ α) (valid : σ → Prop) : Prop where
  reads : ∀ {state reader}, valid state → e.element state = some reader → reader.Stays
  keeps : ∀ {state reader s next rest}, valid state → e.element state = some reader →
    reader.run s = .ok (next, rest) → valid next

theorem Elements.Stays.inside_loop {e : Elements σ α} {valid : σ → Prop} (h : e.Stays valid)
    (first : Bool) {state : σ} (hstate : valid state) (s : List Char) :
    Inside Prod.snd s (e.loop first state s) := by
  unfold Elements.loop
  split
  · split
    · next he => exact (inside_endElements s).error he
    · next rest he => exact (e.inside_ended state rest).of_suffix ((inside_endElements s).ok he)
  · next reader hreader =>
      split
      · next hn => exact (inside_nextElement first s).error hn
      · next rest hn =>
          exact (e.inside_ended state rest).of_suffix ((inside_nextElement first s).ok hn)
      · next value hn =>
          have hvalue : value <:+ s := (inside_nextElement first s).ok hn
          split
          · next hv => exact ((h.reads hstate hreader value).error hv).of_suffix hvalue
          · next after hv =>
              have hafter : after <:+ value := (h.reads hstate hreader value).ok hv
              have := length_of_nextElement hn
              have := reader.shrinks hv
              exact (h.inside_loop false (h.keeps hstate hreader hv) after).of_suffix
                (hafter.trans hvalue)
termination_by s.length
decreasing_by simp only [if_true] at *; omega

theorem Members.inside_ended (m : Members σ α) (state : σ) (s : List Char) :
    Inside Prod.snd s (m.ended state s) := by
  unfold Members.ended
  split
  · exact inside_before List.suffix_rfl _
  · exact List.suffix_rfl

theorem Members.inside_loop {m : Members σ α}
    (h : ∀ {state name reader}, m.member state name = .ok reader → reader.Stays) (first : Bool)
    (state : σ) (s : List Char) : Inside Prod.snd s (m.loop first state s) := by
  unfold Members.loop
  split
  · next hn => exact (inside_nextName first s).error hn
  · next rest hn =>
      exact (m.inside_ended state rest).of_suffix ((inside_nextName first s).ok hn)
  · next name rest hn =>
      have hrest : rest <:+ s := (inside_nextName first s).ok hn
      split
      · exact inside_before ((closeObject_suffix rest).trans hrest) _
      · next reader hreader =>
          split
          · next hc => exact ((inside_readColon rest).error hc).of_suffix hrest
          · next value hc =>
              have hvalue : value <:+ s := ((inside_readColon rest).ok hc).trans hrest
              split
              · next hv => exact ((h hreader value).error hv).of_suffix hvalue
              · next after hv =>
                  have hafter : after <:+ value := (h hreader value).ok hv
                  have := length_of_nextName hn
                  have := length_of_readColon hc
                  have := reader.shrinks hv
                  exact (inside_loop h false _ after).of_suffix (hafter.trans hvalue)
termination_by s.length

end Brackets

/-- What reads the inside of a bracket stays inside, if the bracket may be opened. -/
def Opening.Stays {α : Type} (opening : Opening α) : Prop :=
  ∀ body, opening = .inside body → body.Stays

namespace Form

variable {α : Type} {f : Form α}

theorem inside_settle (meaning : Option α) (found : Found) (s : List Char) :
    Inside Prod.snd s (f.settle meaning found s) := by
  unfold settle
  split
  · exact List.suffix_rfl
  · exact inside_before List.suffix_rfl _

theorem inside_openBracket {opening : Opening α} (h : opening.Stays) (found : Found)
    (bracket : Char) (s : List Char) :
    Inside Prod.snd (bracket :: s) (f.openBracket opening found bracket s) := by
  unfold openBracket
  split
  · exact inside_before List.suffix_rfl _
  · exact inside_within List.suffix_rfl _
  · exact (h _ rfl s).of_suffix (List.suffix_cons ..)

theorem inside_readWord (letters : String) (meaning : Option α) (found : Found) (s : List Char) :
    Inside Prod.snd s (f.readWord letters meaning found s) := by
  unfold readWord
  split
  · next hl => exact (inside_readLiteral _ s).error hl
  · next rest hl =>
      exact (inside_settle meaning found rest).of_suffix ((inside_readLiteral _ s).ok hl)

theorem stays (harray : f.array.Stays) (hobject : f.object.Stays) : f.reader.Stays := by
  intro s
  change Inside Prod.snd s (f.run s)
  have hword : ∀ {c : Char} {rest : List Char} (letters : String) (meaning : Option α)
      (found : Found), skipSpace s = c :: rest →
        Inside Prod.snd s (f.readWord letters meaning found rest) :=
    fun _ _ _ hs => (inside_readWord ..).of_suffix (suffix_of_cons_suffix (suffix_of_skipSpace hs))
  unfold run
  split
  · exact inside_end _
  · next hs => exact hword _ _ _ hs
  · next hs => exact hword _ _ _ hs
  · next hs => exact hword _ _ _ hs
  · next quoted hs =>
      have hquoted := suffix_of_cons_suffix (suffix_of_skipSpace hs)
      split
      · next ht => exact ((inside_readString quoted).error ht).of_suffix hquoted
      · next text rest ht =>
          have hrest : rest <:+ quoted := (inside_readString quoted).ok ht
          exact (inside_settle _ _ rest).of_suffix (hrest.trans hquoted)
  · next hs => exact (inside_openBracket harray ..).of_suffix (suffix_of_skipSpace hs)
  · next hs => exact (inside_openBracket hobject ..).of_suffix (suffix_of_skipSpace hs)
  · next c rest _ _ _ _ _ _ hs =>
      have hcons := suffix_of_skipSpace hs
      split
      · split
        · next hn => exact ((inside_readNumber (c :: rest)).error hn).of_suffix hcons
        · next found after hn =>
            have hafter : after <:+ c :: rest := (inside_readNumber (c :: rest)).ok hn
            exact inside_before (hafter.trans hcons) _
      · exact inside_within hcons _

end Form

theorem mapMembers_stays {α : Type} {r : Reader α} (h : r.Stays) :
    (mapMembers r).reader.Stays := by
  refine Members.inside_loop (fun {_ _ _} hr => ?_) true []
  cases hr
  exact h.map _

namespace Record

variable {δ α : Type} {r : Record δ α}

theorem elements_stays (r : Record δ α) :
    r.elements.Stays fun state => ∀ field ∈ state.remaining, field.value.Stays where
  reads {state reader} hstate hr := by
    obtain ⟨draft, remaining⟩ := state
    cases remaining with
    | nil => cases hr
    | cons field others =>
        cases hr
        exact (hstate field List.mem_cons_self).map _
  keeps {state reader s next rest} hstate hr hrun := by
    obtain ⟨draft, remaining⟩ := state
    cases remaining with
    | nil => cases hr
    | cons field others =>
        cases hr
        simp only [Reader.map] at hrun
        split at hrun
        · cases hrun
        · cases hrun
          intro field hfield
          exact hstate field (List.mem_cons_of_mem _ hfield)

theorem members_stays (h : ∀ field ∈ r.fields, field.value.Stays) : r.members.reader.Stays := by
  refine Members.inside_loop (fun {state name reader} hr => ?_) true _
  simp only [members] at hr
  split at hr
  · cases hr
    exact .ignored state
  · next field hfind =>
      split at hr
      · cases hr
      · cases hr
        exact (h field (List.mem_of_find?_eq_some hfind)).map _

theorem stays (h : ∀ field ∈ r.fields, field.value.Stays) : r.form.reader.Stays := by
  refine Form.stays (fun body hbody => ?_) (fun body hbody => ?_)
  · cases hbody
    exact r.elements_stays.inside_loop true h
  · cases hbody
    exact members_stays h

end Record

end PermitTypes.Json
