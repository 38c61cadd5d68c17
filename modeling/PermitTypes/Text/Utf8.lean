namespace PermitTypes.Text.Utf8

/-- What bytes hold, from left to right: characters, and bytes that are part of none. The bytes of a
character that is cut short are one part. -/
inductive Part where
  | char (c : Char)
  | broken (bytes : List UInt8)

/-- The least and the greatest of the bytes that may follow, one after the other. -/
abbrev Due := List (Nat × Nat)

def later : Nat × Nat := (0x80, 0xBF)

/-- The digits in the first byte of a character, and what is due after it. Of the second bytes, some
would only repeat a shorter form, and some lead to no character. -/
def lead? (b : UInt8) : Option (Nat × Due) :=
  let n := b.toNat
  if n < 0x80 then some (n, [])
  else if n < 0xC2 then none
  else if n < 0xE0 then some (n - 0xC0, [later])
  else if n = 0xE0 then some (0, [(0xA0, 0xBF), later])
  else if n = 0xED then some (0xD, [(0x80, 0x9F), later])
  else if n < 0xF0 then some (n - 0xE0, [later, later])
  else if n = 0xF0 then some (0, [(0x90, 0xBF), later, later])
  else if n < 0xF4 then some (n - 0xF0, [later, later, later])
  else if n = 0xF4 then some (4, [(0x80, 0x8F), later, later])
  else none

/-- A character of which not all bytes have been seen, if there is one. -/
structure State where
  seen : List UInt8 := []
  value : Nat := 0
  due : Due := []

def first (b : UInt8) : List Part × State :=
  match lead? b with
  | none => ([.broken [b]], {})
  | some (value, []) => ([.char (.ofNat value)], {})
  | some (value, due) => ([], ⟨[b], value, due⟩)

/-- The parts that end before or with a byte. -/
def State.step (s : State) (b : UInt8) : List Part × State :=
  match s.due with
  | [] => first b
  | (low, high) :: due =>
    if low ≤ b.toNat && b.toNat ≤ high then
      let value := s.value * 64 + (b.toNat - 0x80)
      if due.isEmpty then ([.char (.ofNat value)], {}) else ([], ⟨s.seen ++ [b], value, due⟩)
    else
      let (parts, next) := first b
      (.broken s.seen :: parts, next)

def State.parts (s : State) : List UInt8 → List Part
  | [] => if s.seen.isEmpty then [] else [.broken s.seen]
  | b :: bytes =>
    let (parts, next) := s.step b
    parts ++ next.parts bytes

def parts (bytes : List UInt8) : List Part := ({} : State).parts bytes

/-- Broken bytes are shown by one character in their place. -/
def Part.shown : Part → Char
  | char c => c
  | broken _ => '\uFFFD'

theorem fromUTF8?_eq_some_iff {bytes : ByteArray} {text : String} :
    String.fromUTF8? bytes = some text ↔ bytes = text.toUTF8 := by
  constructor
  · intro h
    rw [String.fromUTF8?, Option.dite_none_right_eq_some] at h
    obtain ⟨hvalid, h⟩ := h
    rw [← Option.some.inj h]
    rfl
  · rintro rfl
    exact dif_pos text.isValidUTF8

end PermitTypes.Text.Utf8
