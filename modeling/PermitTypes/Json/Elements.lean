import PermitTypes.Json.Reader

namespace PermitTypes.Json

/-- Whether another element follows in an array; if not, the end of the array is taken. -/
def nextElement (first : Bool) (s : List Char) : Step Bool :=
  match skipSpace s with
  | [] => .error ⟨.endInArray, 0⟩
  | ']' :: rest => .ok (false, rest)
  | c :: rest =>
    if first then .ok (true, c :: rest)
    else if c = ',' then
      match skipSpace rest with
      | [] => .error ⟨.endInValue, 0⟩
      | ']' :: rest => .error (.within .trailingComma (']' :: rest))
      | other => .ok (true, other)
    else .error (.within .noElementEnd (c :: rest))

/-- The end of an array that may hold no further element. -/
def endElements (s : List Char) : Except Fault (List Char) :=
  match skipSpace s with
  | [] => .error ⟨.endInArray, 0⟩
  | ']' :: rest => .ok rest
  | ',' :: rest =>
    match skipSpace rest with
    | ']' :: rest => .error (.within .trailingComma (']' :: rest))
    | other => .error (.within .trailingCharacters other)
  | other => .error (.within .trailingCharacters other)

theorem length_of_nextElement {first more : Bool} {s rest : List Char}
    (h : nextElement first s = .ok (more, rest)) :
    rest.length + (if more then 0 else 1) ≤ s.length := by
  have hl := length_skipSpace_le s
  unfold nextElement at h
  split at h
  · cases h
  · rename_i hs
    rw [hs] at hl
    cases h
    simpa using hl
  · rename_i c r _ hs
    rw [hs] at hl
    split at h
    · cases h
      simpa using hl
    · split at h
      · have hr := length_skipSpace_le r
        simp only [List.length_cons] at hl
        split at h
        · cases h
        · cases h
        · cases h
          simp only [if_true]
          omega
      · cases h

theorem length_of_endElements {s rest : List Char} (h : endElements s = .ok rest) :
    rest.length < s.length := by
  unfold endElements at h
  split at h
  · cases h
  · rename_i hs
    cases h
    exact length_of_skipSpace hs
  · split at h <;> cases h
  · cases h

/-- How the elements of an array make up a value. No reader means that no element may follow. -/
structure Elements (σ α : Type) where
  start : σ
  element : σ → Option (Reader σ)
  finish : σ → Except Cause α

namespace Elements

variable {σ α : Type}

def ended (e : Elements σ α) (state : σ) (rest : List Char) : Step α :=
  match e.finish state with
  | .error cause => .error (.before cause rest)
  | .ok a => .ok (a, rest)

def loop (e : Elements σ α) (first : Bool) (state : σ) (s : List Char) : Step α :=
  match e.element state with
  | none =>
    match endElements s with
    | .error fault => .error fault
    | .ok rest => e.ended state rest
  | some reader =>
    match hn : nextElement first s with
    | .error fault => .error fault
    | .ok (false, rest) => e.ended state rest
    | .ok (true, value) =>
      match hv : reader.run value with
      | .error fault => .error fault
      | .ok (state, after) =>
        have := length_of_nextElement hn
        have := reader.shrinks hv
        e.loop false state after
termination_by s.length
decreasing_by simp only [if_true] at *; omega

theorem rest_eq_of_ended {e : Elements σ α} {state : σ} {s rest : List Char} {a : α}
    (h : e.ended state s = .ok (a, rest)) : rest = s := by
  unfold ended at h
  split at h
  · cases h
  · cases h; rfl

theorem length_of_loop {e : Elements σ α} {first : Bool} {state : σ} {s rest : List Char} {a : α}
    (h : e.loop first state s = .ok (a, rest)) : rest.length < s.length := by
  unfold loop at h
  split at h
  · split at h
    · cases h
    · rename_i he
      rw [rest_eq_of_ended h]
      exact length_of_endElements he
  · rename_i reader _
    split at h
    · cases h
    · rename_i after hn
      have hl : after.length + 1 ≤ s.length := length_of_nextElement hn
      rw [rest_eq_of_ended h]
      exact hl
    · rename_i hn
      have hl := length_of_nextElement hn
      split at h
      · cases h
      · rename_i hv
        have h1 := reader.shrinks hv
        have := length_of_loop h
        simp only [if_true] at hl
        omega
termination_by s.length
decreasing_by simp only [if_true] at *; omega

/-- Reads what follows an opening bracket. -/
def reader (e : Elements σ α) : Reader α := ⟨e.loop true e.start, length_of_loop⟩

end Elements

end PermitTypes.Json
