import PermitTypes.Json.Text

namespace PermitTypes.Json

/-- A reader without a result gives the rest of the text. -/
abbrev Skip := Except Fault (List Char)

namespace Skip

/-- An escape in a string that is not kept: surrogates may stand alone. -/
def escape (s : List Char) : Skip :=
  match s with
  | [] => .error ⟨.endInString, 0⟩
  | 'u' :: digits =>
    match readHex digits with
    | .error f => .error f
    | .ok (_, rest) => .ok rest
  | c :: rest => if (unescape c).isSome then .ok rest else .error (.within .badEscape s)

theorem length_of_escape {s rest : List Char} (h : escape s = .ok rest) :
    rest.length < s.length := by
  unfold escape at h
  split at h
  · cases h
  · split at h
    · cases h
    · rename_i hd
      have := length_of_readHex hd
      cases h
      simp only [List.length_cons]; omega
  · split at h
    · cases h; simp
    · cases h

/-- A string that is not kept, after its opening quote. -/
def string (s : List Char) : Skip :=
  match s with
  | [] => .error ⟨.endInString, 0⟩
  | '"' :: rest => .ok rest
  | '\\' :: escaped =>
    match h : escape escaped with
    | .error f => .error f
    | .ok rest =>
      have := length_of_escape h
      string rest
  | c :: rest => if c.toNat < 0x20 then .error (.before .controlCharacter s) else string rest
termination_by s.length
decreasing_by all_goals simp only [List.length_cons]; omega

theorem length_of_string {s rest : List Char} (h : string s = .ok rest) :
    rest.length < s.length := by
  fun_induction string s with
  | case1 => simp at h
  | case2 => cases h; simp
  | case3 => simp at h
  | case4 escaped r he hl ih =>
    have := ih h
    simp only [List.length_cons]; omega
  | case5 => simp at h
  | case6 c r h1 h2 h3 ih =>
    have := ih h
    simp only [List.length_cons]; omega

def digits (s : List Char) : List Char := s.dropWhile isDigit

theorem length_digits_le (s : List Char) : (digits s).length ≤ s.length :=
  (List.dropWhile_sublist _).length_le

/-- At least one digit. -/
def someDigits (s : List Char) : Skip :=
  match s with
  | [] => .error ⟨.badNumber, 0⟩
  | c :: rest => if isDigit c then .ok (digits rest) else .error (.within .badNumber s)

theorem length_of_someDigits {s rest : List Char} (h : someDigits s = .ok rest) :
    rest.length < s.length := by
  unfold someDigits at h
  split at h
  · cases h
  · rename_i r
    split at h
    · cases h
      have := length_digits_le r
      simp only [List.length_cons]; omega
    · cases h

def sign (s : List Char) : List Char :=
  match s with
  | '+' :: rest | '-' :: rest => rest
  | _ => s

def exponent (s : List Char) : Skip :=
  match s with
  | 'e' :: rest | 'E' :: rest => someDigits (sign rest)
  | _ => .ok s

def fraction (s : List Char) : Skip :=
  match s with
  | '.' :: rest =>
    match someDigits rest with
    | .error f => .error f
    | .ok rest => exponent rest
  | _ => exponent s

/-- A number that is not kept, after its sign. -/
def number (s : List Char) : Skip :=
  match s with
  | '0' :: c :: rest =>
    if isDigit c then .error (.within .badNumber (c :: rest)) else fraction (c :: rest)
  | _ =>
    match someDigits s with
    | .error f => .error f
    | .ok rest => fraction rest

theorem length_sign_le (s : List Char) : (sign s).length ≤ s.length := by
  unfold sign
  split <;> simp

theorem length_of_exponent {s rest : List Char} (h : exponent s = .ok rest) :
    rest.length ≤ s.length := by
  unfold exponent at h
  split at h
  · have := length_of_someDigits h
    rename_i r
    have := length_sign_le r
    simp only [List.length_cons]; omega
  · have := length_of_someDigits h
    rename_i r
    have := length_sign_le r
    simp only [List.length_cons]; omega
  · cases h; exact Nat.le_refl _

theorem length_of_fraction {s rest : List Char} (h : fraction s = .ok rest) :
    rest.length ≤ s.length := by
  unfold fraction at h
  split at h
  · split at h
    · cases h
    · rename_i hd
      have := length_of_someDigits hd
      have := length_of_exponent h
      simp only [List.length_cons]; omega
  · exact length_of_exponent h

theorem length_of_number {s rest : List Char} (h : number s = .ok rest) :
    rest.length < s.length := by
  unfold number at h
  split at h
  · split at h
    · cases h
    · have := length_of_fraction h
      simp only [List.length_cons] at *; omega
  · split at h
    · cases h
    · rename_i hd
      have := length_of_someDigits hd
      have := length_of_fraction h
      omega

/-- A value without parts of its own; none where a bracket opens. -/
def scalar (s : List Char) : Option Skip :=
  match s with
  | [] => some (.error ⟨.endInValue, 0⟩)
  | 'n' :: rest => some (readLiteral "ull".toList rest)
  | 't' :: rest => some (readLiteral "rue".toList rest)
  | 'f' :: rest => some (readLiteral "alse".toList rest)
  | '"' :: rest => some (string rest)
  | '-' :: rest => some (number rest)
  | '[' :: _ | '{' :: _ => none
  | c :: _ => some (if isDigit c then number s else .error (.within .noValue s))

theorem length_of_readLiteral {letters s rest : List Char} (h : readLiteral letters s = .ok rest) :
    rest.length ≤ s.length := by
  rw [readLiteral_eq_ok h]; simp

theorem length_of_scalar {s rest : List Char} (h : scalar s = some (.ok rest)) :
    rest.length < s.length := by
  unfold scalar at h
  split at h
  · cases h
  · have := length_of_readLiteral (Option.some.inj h)
    simp only [List.length_cons]; omega
  · have := length_of_readLiteral (Option.some.inj h)
    simp only [List.length_cons]; omega
  · have := length_of_readLiteral (Option.some.inj h)
    simp only [List.length_cons]; omega
  · have := length_of_string (Option.some.inj h)
    simp only [List.length_cons]; omega
  · have := length_of_number (Option.some.inj h)
    simp only [List.length_cons]; omega
  · cases h
  · cases h
  · split at h
    · exact length_of_number (Option.some.inj h)
    · cases h

end Skip

end PermitTypes.Json
