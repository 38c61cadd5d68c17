import PermitTypes.Json.Reader

namespace PermitTypes.Json

/-- The name that follows in an object, after its opening quote. -/
def readName (s : List Char) : Step (Option String) :=
  match readString s with
  | .error fault => .error fault
  | .ok (name, rest) => .ok (some name, rest)

/-- The name of the next member; none at the end of the object, which is taken. -/
def nextName (first : Bool) (s : List Char) : Step (Option String) :=
  match skipSpace s with
  | [] => .error ⟨.endInObject, 0⟩
  | '}' :: rest => .ok (none, rest)
  | c :: rest =>
    if first then
      if c = '"' then readName rest else .error (.within .keyNotString (c :: rest))
    else if c = ',' then
      match skipSpace rest with
      | [] => .error ⟨.endInValue, 0⟩
      | '"' :: rest => readName rest
      | '}' :: rest => .error (.within .trailingComma ('}' :: rest))
      | other => .error (.within .keyNotString other)
    else .error (.within .noMemberEnd (c :: rest))

def readColon (s : List Char) : Except Fault (List Char) :=
  match skipSpace s with
  | [] => .error ⟨.endInObject, 0⟩
  | ':' :: rest => .ok rest
  | other => .error (.within .noColon other)

/-- Where a complaint about a member is placed: behind the object if it ends here. -/
def closeObject (s : List Char) : List Char :=
  match skipSpace s with
  | '}' :: rest => rest
  | other => other

theorem length_of_readName {s rest : List Char} {name : Option String}
    (h : readName s = .ok (name, rest)) : rest.length < s.length := by
  unfold readName at h
  split at h
  · cases h
  · rename_i hs
    cases h
    exact length_of_readString hs

theorem length_of_nextName {first : Bool} {s rest : List Char} {name : Option String}
    (h : nextName first s = .ok (name, rest)) : rest.length < s.length := by
  unfold nextName at h
  split at h
  · cases h
  · rename_i hs
    cases h
    exact length_of_skipSpace hs
  · rename_i hs
    have h1 := length_of_skipSpace hs
    split at h
    · split at h
      · have := length_of_readName h
        omega
      · cases h
    · split at h
      · split at h
        · cases h
        · rename_i hq
          have h2 := length_of_skipSpace hq
          have h3 := length_of_readName h
          omega
        · cases h
        · cases h
      · cases h

theorem length_of_readColon {s rest : List Char} (h : readColon s = .ok rest) :
    rest.length < s.length := by
  unfold readColon at h
  split at h
  · cases h
  · rename_i hs
    cases h
    exact length_of_skipSpace hs
  · cases h

/-- How the members of an object make up a value. -/
structure Members (σ α : Type) where
  start : σ
  member : σ → String → Except Cause (Reader σ)
  finish : σ → Except Cause α

namespace Members

variable {σ α : Type}

def ended (m : Members σ α) (state : σ) (rest : List Char) : Step α :=
  match m.finish state with
  | .error cause => .error (.before cause rest)
  | .ok a => .ok (a, rest)

def loop (m : Members σ α) (first : Bool) (state : σ) (s : List Char) : Step α :=
  match hn : nextName first s with
  | .error fault => .error fault
  | .ok (none, rest) => m.ended state rest
  | .ok (some name, rest) =>
    match m.member state name with
    | .error cause => .error (.before cause (closeObject rest))
    | .ok reader =>
      match hc : readColon rest with
      | .error fault => .error fault
      | .ok value =>
        match hv : reader.run value with
        | .error fault => .error fault
        | .ok (state, after) =>
          have := length_of_nextName hn
          have := length_of_readColon hc
          have := reader.shrinks hv
          m.loop false state after
termination_by s.length

theorem rest_eq_of_ended {m : Members σ α} {state : σ} {s rest : List Char} {a : α}
    (h : m.ended state s = .ok (a, rest)) : rest = s := by
  unfold ended at h
  split at h
  · cases h
  · cases h; rfl

theorem length_of_loop {m : Members σ α} {first : Bool} {state : σ} {s rest : List Char} {a : α}
    (h : m.loop first state s = .ok (a, rest)) : rest.length < s.length := by
  unfold loop at h
  split at h
  · cases h
  · rename_i hn
    have := length_of_nextName hn
    rw [rest_eq_of_ended h]
    exact this
  · rename_i hn
    have h1 := length_of_nextName hn
    split at h
    · cases h
    · rename_i reader _
      split at h
      · cases h
      · rename_i hc
        have h2 := length_of_readColon hc
        split at h
        · cases h
        · rename_i hv
          have h3 := reader.shrinks hv
          have := length_of_loop h
          omega
termination_by s.length

/-- Reads what follows an opening brace. -/
def reader (m : Members σ α) : Reader α := ⟨m.loop true m.start, length_of_loop⟩

end Members

end PermitTypes.Json
