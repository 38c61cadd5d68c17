import PermitTypes.Json.Skip.Scalar

namespace PermitTypes.Json.Skip

/-- What is open around the value that is skipped. -/
inductive Frame where
  | array | object
  deriving DecidableEq

namespace Frame

def close : Frame → Char
  | array => ']'
  | object => '}'

def unended : Frame → Cause
  | array => .endInArray
  | object => .endInObject

def noEnd : Frame → Cause
  | array => .noElementEnd
  | object => .noMemberEnd

end Frame

/-- The name of a member with its colon. -/
def name (s : List Char) : Skip :=
  match skipSpace s with
  | [] => .error ⟨.endInObject, 0⟩
  | '"' :: rest =>
    match string rest with
    | .error f => .error f
    | .ok rest =>
      match skipSpace rest with
      | [] => .error ⟨.endInObject, 0⟩
      | ':' :: rest => .ok rest
      | other => .error (.within .noColon other)
  | other => .error (.within .keyNotString other)

theorem length_of_name {s rest : List Char} (h : name s = .ok rest) : rest.length < s.length := by
  unfold name at h
  split at h
  · cases h
  · rename_i hs
    have h1 := length_of_skipSpace hs
    split at h
    · cases h
    · rename_i hr
      have h2 := length_of_string hr
      split at h
      · cases h
      · rename_i hc
        have h3 := length_of_skipSpace hc
        cases h
        omega
      · cases h
  · cases h

/-- Where the next value of a frame begins. -/
def enter (frame : Frame) (s : List Char) : Skip :=
  match frame with
  | .array => .ok s
  | .object => name s

theorem length_of_enter {frame : Frame} {s rest : List Char} (h : enter frame s = .ok rest) :
    rest.length ≤ s.length := by
  cases frame with
  | array => cases h; exact Nat.le_refl _
  | object => exact Nat.le_of_lt (length_of_name h)

mutual

/-- A value between frames of which the innermost stands first. -/
def value (frames : List Frame) (s : List Char) : Skip :=
  match h : scalar (skipSpace s) with
  | some (.error f) => .error f
  | some (.ok rest) =>
    have := length_of_scalar h
    have := length_skipSpace_le s
    ended frames rest
  | none =>
    match hs : skipSpace s with
    | [] => .error ⟨.endInValue, 0⟩
    | c :: rest =>
      have := length_of_skipSpace hs
      opened (if c = '[' then .array else .object) frames rest
termination_by (s.length, 0)
decreasing_by all_goals omega

/-- After an opening bracket. -/
def opened (frame : Frame) (frames : List Frame) (s : List Char) : Skip :=
  match hs : skipSpace s with
  | [] => .error ⟨frame.unended, 0⟩
  | c :: rest =>
    have := length_of_skipSpace hs
    if c = frame.close then ended frames rest
    else
      match he : enter frame (c :: rest) with
      | .error f => .error f
      | .ok member =>
        have : member.length ≤ rest.length + 1 := length_of_enter he
        value (frame :: frames) member
termination_by (s.length, 1)
decreasing_by all_goals omega

/-- After a value. -/
def ended (frames : List Frame) (s : List Char) : Skip :=
  match frames with
  | [] => .ok s
  | frame :: frames =>
    match hs : skipSpace s with
    | [] => .error ⟨frame.unended, 0⟩
    | c :: rest =>
      have := length_of_skipSpace hs
      if c = ',' then
        match he : enter frame rest with
        | .error f => .error f
        | .ok rest =>
          have := length_of_enter he
          value (frame :: frames) rest
      else if c = frame.close then ended frames rest
      else .error (.within frame.noEnd (c :: rest))
termination_by (s.length, 0)
decreasing_by all_goals omega

end

mutual

theorem length_of_value {frames : List Frame} {s rest : List Char}
    (h : value frames s = .ok rest) : rest.length < s.length := by
  unfold value at h
  split at h
  · cases h
  · rename_i hr
    have h1 := length_of_scalar hr
    have h2 := length_skipSpace_le s
    have h3 := length_of_ended h
    omega
  · split at h
    · cases h
    · rename_i hs
      have h1 := length_of_skipSpace hs
      have h2 := length_of_opened h
      omega
termination_by (s.length, 0)
decreasing_by all_goals omega

theorem length_of_opened {frame : Frame} {frames : List Frame} {s rest : List Char}
    (h : opened frame frames s = .ok rest) : rest.length < s.length := by
  unfold opened at h
  split at h
  · cases h
  · rename_i c r hs
    have h1 := length_of_skipSpace hs
    split at h
    · have h2 := length_of_ended h
      omega
    · split at h
      · cases h
      · rename_i member he
        have h2 : member.length ≤ r.length + 1 := length_of_enter he
        have h3 := length_of_value h
        omega
termination_by (s.length, 1)
decreasing_by all_goals omega

theorem length_of_ended {frames : List Frame} {s rest : List Char}
    (h : ended frames s = .ok rest) : rest.length ≤ s.length := by
  unfold ended at h
  split at h
  · cases h; exact Nat.le_refl _
  · split at h
    · cases h
    · rename_i hs
      have h1 := length_of_skipSpace hs
      split at h
      · split at h
        · cases h
        · rename_i he
          have h2 := length_of_enter he
          have h3 := length_of_value h
          omega
      · split at h
        · have h2 := length_of_ended h
          omega
        · cases h
termination_by (s.length, 0)
decreasing_by all_goals omega

end

end PermitTypes.Json.Skip
