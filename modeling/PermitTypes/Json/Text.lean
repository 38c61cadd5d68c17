import PermitTypes.Json.Fault

namespace PermitTypes.Json

/-- What a step of a reader gives: its result and the rest of the text. -/
abbrev Step (α : Type) := Except Fault (α × List Char)

def isSpace (c : Char) : Bool := c == ' ' || c == '\n' || c == '\t' || c == '\r'

def skipSpace (s : List Char) : List Char := s.dropWhile isSpace

theorem length_skipSpace_le (s : List Char) : (skipSpace s).length ≤ s.length :=
  (List.dropWhile_sublist isSpace).length_le

theorem length_of_skipSpace {s rest : List Char} {c : Char} (h : skipSpace s = c :: rest) :
    rest.length < s.length := by
  have hl := length_skipSpace_le s
  rw [h] at hl
  exact hl

/-- The rest of a literal whose first letter has been read. -/
def readLiteral : List Char → List Char → Except Fault (List Char)
  | [], s => .ok s
  | _ :: _, [] => .error ⟨.endInValue, 0⟩
  | l :: letters, c :: s =>
    if c = l then readLiteral letters s else .error (.within .noLiteral (c :: s))

theorem readLiteral_eq_ok {letters s rest : List Char} (h : readLiteral letters s = .ok rest) :
    s = letters ++ rest := by
  fun_induction readLiteral letters s with
  | case1 => simp_all
  | case2 => simp at h
  | case3 l letters s ih => simp [ih h]
  | case4 => simp at h

def isDigit (c : Char) : Bool := '0' ≤ c && c ≤ '9'

def hexDigit (c : Char) : Option Nat :=
  if '0' ≤ c ∧ c ≤ '9' then some (c.toNat - '0'.toNat)
  else if 'a' ≤ c ∧ c ≤ 'f' then some (c.toNat - 'a'.toNat + 10)
  else if 'A' ≤ c ∧ c ≤ 'F' then some (c.toNat - 'A'.toNat + 10)
  else none

def hexValue (a b c d : Char) : Option Nat := do
  return (((← hexDigit a) * 16 + (← hexDigit b)) * 16 + (← hexDigit c)) * 16 + (← hexDigit d)

/-- Four bytes are taken, whatever they are. -/
def hexFault (s : List Char) : Fault :=
  if size s < 4 then ⟨.endInString, 0⟩ else ⟨.badEscape, size s - 4⟩

/-- The four digits of a `\u` escape. -/
def readHex (s : List Char) : Step Nat :=
  match s with
  | a :: b :: c :: d :: rest =>
    match hexValue a b c d with
    | some n => .ok (n, rest)
    | none => .error (hexFault s)
  | _ => .error (hexFault s)

def isHighSurrogate (n : Nat) : Bool := 0xd800 ≤ n && n < 0xdc00

def isLowSurrogate (n : Nat) : Bool := 0xdc00 ≤ n && n < 0xe000

def pairSurrogates (high low : Nat) : Char :=
  Char.ofNat (0x10000 + (high - 0xd800) * 0x400 + (low - 0xdc00))

/-- The second half of a pair of surrogates. -/
def readLow (high : Nat) (s : List Char) : Step Char :=
  match s with
  | '\\' :: 'u' :: digits =>
    match readHex digits with
    | .error f => .error f
    | .ok (n, rest) =>
      if isLowSurrogate n then .ok (pairSurrogates high n, rest)
      else .error (.before .loneSurrogate rest)
  | [] | ['\\'] => .error ⟨.endInString, 0⟩
  | '\\' :: other => .error (.within .brokenHexEscape other)
  | other => .error (.within .brokenHexEscape other)

def readCodePoint (s : List Char) : Step Char :=
  match readHex s with
  | .error f => .error f
  | .ok (n, rest) =>
    if isLowSurrogate n then .error (.before .loneSurrogate rest)
    else if isHighSurrogate n then readLow n rest
    else .ok (Char.ofNat n, rest)

def unescape (c : Char) : Option Char :=
  match c with
  | '"' => some '"'
  | '\\' => some '\\'
  | '/' => some '/'
  | 'b' => some '\x08'
  | 'f' => some '\x0c'
  | 'n' => some '\n'
  | 'r' => some '\r'
  | 't' => some '\t'
  | _ => none

/-- What follows a backslash. -/
def readEscape (s : List Char) : Step Char :=
  match s with
  | [] => .error ⟨.endInString, 0⟩
  | 'u' :: digits => readCodePoint digits
  | c :: rest =>
    match unescape c with
    | some d => .ok (d, rest)
    | none => .error (.within .badEscape s)

theorem length_of_readHex {s rest : List Char} {n : Nat} (h : readHex s = .ok (n, rest)) :
    rest.length + 4 = s.length := by
  unfold readHex at h
  split at h
  · split at h
    · cases h; simp
    · cases h
  · cases h

theorem length_of_readLow {high : Nat} {s rest : List Char} {c : Char}
    (h : readLow high s = .ok (c, rest)) : rest.length < s.length := by
  unfold readLow at h
  split at h
  · split at h
    · cases h
    · rename_i hd
      have hl := length_of_readHex hd
      split at h
      · simp only [Except.ok.injEq, Prod.mk.injEq] at h
        obtain ⟨_, rfl⟩ := h
        simp only [List.length_cons]; omega
      · cases h
  all_goals cases h

theorem length_of_readCodePoint {s rest : List Char} {c : Char}
    (h : readCodePoint s = .ok (c, rest)) : rest.length < s.length := by
  unfold readCodePoint at h
  split at h
  · cases h
  · rename_i hd
    have hl := length_of_readHex hd
    split at h
    · cases h
    · split at h
      · have := length_of_readLow h; omega
      · simp only [Except.ok.injEq, Prod.mk.injEq] at h
        obtain ⟨_, rfl⟩ := h
        omega

theorem length_of_readEscape {s rest : List Char} {c : Char} (h : readEscape s = .ok (c, rest)) :
    rest.length < s.length := by
  unfold readEscape at h
  split at h
  · cases h
  · have := length_of_readCodePoint h
    simp only [List.length_cons]; omega
  · split at h
    · cases h; simp
    · cases h

/-- The characters of a string up to its closing quote, in reverse before those of `taken`. -/
def readChars (taken : List Char) (s : List Char) : Step (List Char) :=
  match s with
  | [] => .error ⟨.endInString, 0⟩
  | '"' :: rest => .ok (taken, rest)
  | '\\' :: escape =>
    match h : readEscape escape with
    | .error f => .error f
    | .ok (c, rest) =>
      have := length_of_readEscape h
      readChars (c :: taken) rest
  | c :: rest =>
    if c.toNat < 0x20 then .error (.before .controlCharacter rest) else readChars (c :: taken) rest
termination_by s.length
decreasing_by all_goals simp only [List.length_cons]; omega

theorem length_of_readChars {taken s cs rest : List Char}
    (h : readChars taken s = .ok (cs, rest)) : rest.length < s.length := by
  fun_induction readChars taken s with
  | case1 => simp at h
  | case2 => cases h; simp
  | case3 => simp at h
  | case4 taken escape c r he h1 ih =>
    have h2 := ih h
    simp only [List.length_cons]; omega
  | case5 => simp at h
  | case6 taken c r h1 h2 h3 ih =>
    have := ih h
    simp only [List.length_cons]; omega

/-- A string whose opening quote has been read. -/
def readString (s : List Char) : Step String :=
  match readChars [] s with
  | .error f => .error f
  | .ok (cs, rest) => .ok (String.ofList cs.reverse, rest)

theorem length_of_readString {s rest : List Char} {t : String} (h : readString s = .ok (t, rest)) :
    rest.length < s.length := by
  unfold readString at h
  split at h
  · cases h
  · rename_i hc
    cases h
    exact length_of_readChars hc

end PermitTypes.Json
