import PermitTypes.Proofs.Json.Faults

namespace PermitTypes.Json

namespace Place

theorem advance_zero (p : Place) (s : List Char) : p.advance s 0 = p := by
  cases s <;> rfl

theorem advance_cons (p : Place) (c : Char) (s : List Char) (bytes : Nat) :
    p.advance (c :: s) (bytes + 1) =
      if c = '\n' then advance ⟨p.line + 1, 0⟩ s bytes
      else advance ⟨p.line, p.column + min (bytes + 1) c.utf8Size⟩ s (bytes + 1 - c.utf8Size) :=
  rfl

/-- All of a character's bytes, and some more. -/
theorem advance_char (p : Place) (c : Char) (s : List Char) (bytes : Nat) :
    p.advance (c :: s) (c.utf8Size + bytes) =
      (if c = '\n' then ⟨p.line + 1, 0⟩ else ⟨p.line, p.column + c.utf8Size⟩ : Place).advance s
        bytes := by
  have hpos := c.utf8Size_pos
  obtain ⟨n, hn⟩ : ∃ n, c.utf8Size + bytes = n + 1 := ⟨c.utf8Size + bytes - 1, by omega⟩
  have hmin : min (n + 1) c.utf8Size = c.utf8Size := by omega
  have hsub : n + 1 - c.utf8Size = bytes := by omega
  rw [hn, advance_cons]
  by_cases hc : c = '\n'
  · subst hc
    rw [if_pos rfl, if_pos rfl]
    exact congrArg _ hsub
  · rw [if_neg hc, if_neg hc, hmin, hsub]

theorem advance_append (p : Place) (front s : List Char) (bytes : Nat) :
    p.advance (front ++ s) (size front + bytes) =
      (p.advance front (size front)).advance s bytes := by
  induction front generalizing p with
  | nil =>
      rw [show size [] = 0 from rfl, advance_zero, Nat.zero_add]
      rfl
  | cons c front ih =>
      rw [List.cons_append, size_cons, Nat.add_assoc, advance_char, advance_char, ih]

theorem advance_line {front : List Char} (h : '\n' ∉ front) (p : Place) :
    p.advance front (size front) = ⟨p.line, p.column + size front⟩ := by
  induction front generalizing p with
  | nil => rfl
  | cons c front ih =>
      obtain ⟨hc, hfront⟩ := not_or.1 (mt List.mem_cons.2 h)
      rw [size_cons, advance_char, if_neg (Ne.symm hc), ih hfront, Nat.add_assoc]

theorem line_le_advance (p : Place) (s : List Char) (bytes : Nat) :
    p.line ≤ (p.advance s bytes).line := by
  induction s generalizing p bytes with
  | nil => cases bytes <;> exact Nat.le_refl _
  | cons c s ih =>
      cases bytes with
      | zero => exact Nat.le_refl _
      | succ bytes =>
          rw [advance_cons]
          split
          · exact Nat.le_trans (Nat.le_succ _) (ih ⟨p.line + 1, 0⟩ _)
          · exact ih ⟨p.line, p.column + min (bytes + 1) c.utf8Size⟩ _

/-- A place with its column moved, if it is on the given line. -/
def shift (p : Place) (line columns : Nat) : Place :=
  ⟨p.line, if p.line = line then columns + p.column else p.column⟩

/-- What stands before a text on its first line moves places on that line alone. -/
theorem advance_shift (line column columns : Nat) (s : List Char) (bytes : Nat) :
    advance ⟨line, columns + column⟩ s bytes =
      (advance ⟨line, column⟩ s bytes).shift line columns := by
  have hhere : ∀ column, (⟨line, columns + column⟩ : Place) = shift ⟨line, column⟩ line columns :=
    fun column => congrArg _ (if_pos rfl).symm
  induction s generalizing column bytes with
  | nil => cases bytes <;> exact hhere column
  | cons c s ih =>
      cases bytes with
      | zero => exact hhere column
      | succ bytes =>
          rw [advance_cons, advance_cons]
          split
          · have hle := line_le_advance ⟨line + 1, 0⟩ s bytes
            have hne : (advance ⟨line + 1, 0⟩ s bytes).line ≠ line := by
              dsimp only at hle
              omega
            rw [shift, if_neg hne]
          · rw [Nat.add_assoc]
            exact ih _ _

end Place

/-- A fault within a text keeps its place when something is put in front of the first line. -/
theorem Fault.place_append {f : Fault} {front s : List Char} (hfront : '\n' ∉ front)
    (hf : f.left ≤ size s) : f.place (front ++ s) = (f.place s).shift 1 (size front) := by
  have hbytes : size (front ++ s) - f.left = size front + (size s - f.left) := by
    rw [size_append]
    omega
  rw [Fault.place, hbytes, Place.advance_append, Place.advance_line hfront, Fault.place]
  have hstart : (⟨Place.start.line, Place.start.column + size front⟩ : Place) =
      ⟨1, size front + 0⟩ := by
    rw [Place.start, Nat.add_comm]
  rw [hstart, Place.advance_shift]
  rfl

end PermitTypes.Json
