import PermitTypes.Proofs.Files.Effects

namespace PermitTypes.Files

open PermitTypes.Path (IsName isIdle)
open View

section Dot

variable {v : View} {p q : Path} {place : Place}

theorem base_joinText_dot (p : Path) : (p.joinText ".").base = p.base ++ [.text "."] := by
  have hpieces : (p.joinText ".").pieces = p.base ++ [.text "."] := p.pieces_joinName "."
  rw [Path.base_of_concat_name hpieces (by decide), hpieces]

/-- A dot leads nowhere. -/
theorem spelled_join_dot (p q : Path) : spelled ((p.joinText ".").join q) = spelled (p.join q) := by
  cases ha : q.isAbsolute with
  | true => rw [Path.join, Path.join, if_pos ha, if_pos ha]
  | false =>
      have hdot : (p.joinText ".").steps = p.steps := by
        rw [← Path.stepsOf_base, base_joinText_dot, Path.stepsOf_append, Path.stepsOf_base]
        exact List.append_nil _
      rw [spelled, spelled, Path.steps_join ha, Path.steps_join ha, hdot]

theorem refusal?_join_dot (h : Node.refusal? (p.join q) = none)
    (hlong : isLongPath ((p.joinText ".").join q) = false) :
    Node.refusal? ((p.joinText ".").join q) = none := by
  cases ha : q.isAbsolute with
  | true => rwa [Path.join, if_pos ha] at h ⊢
  | false =>
      rw [Node.refusal?_eq_none_iff] at h ⊢
      have hpieces := Path.pieces_join (p := p.joinText ".") ha
      rw [base_joinText_dot] at hpieces
      refine ⟨Node.hasZero_eq_false h.1 fun x hx => ?_, fun he => ?_, hlong⟩
      · rw [Path.pieces_join ha]
        rw [hpieces] at hx
        simp only [List.mem_append, List.mem_singleton] at hx ⊢
        rcases hx with (hx | rfl) | hx
        · exact .inl (.inl hx)
        · exact .inr rfl
        · exact .inl (.inr hx)
      · have hdot : .text "." ∈ ((p.joinText ".").join q).pieces := by simp [hpieces]
        rw [he] at hdot
        exact absurd hdot (by decide)

/-- What is found from a directory is found from it with a dot behind. -/
theorem find_join_dot (hdir : v (spelled p) = some .directory)
    (hlong : isLongPath ((p.joinText ".").join q) = false) (h : v.find (p.join q) = .ok place) :
    v.find ((p.joinText ".").join q) = .ok place := by
  cases ha : q.isAbsolute with
  | true => rwa [Path.join, if_pos ha] at h ⊢
  | false =>
      obtain ⟨hr, hwalk⟩ := find_eq_ok_iff.1 h
      refine find_eq_ok_iff.2 ⟨refusal?_join_dot hr hlong, ?_⟩
      rw [Path.pieces_join ha, walk_append] at hwalk
      rw [Path.pieces_join ha, base_joinText_dot, walk_append, walk_append]
      cases hw : v.walk [] p.base with
      | error t => rw [hw] at hwalk; cases hwalk
      | ok other =>
          have hother : other = spelled p := by
            rw [walk_eq_settle hw, spelled, ← Path.stepsOf_base, settle_stepsOf]
          subst hother
          simp only [hw] at hwalk ⊢
          rw [walk_singleton, step_idle hdir rfl]
          exact hwalk

end Dot

section Beside

variable {f above : Path} {front : List Name} {last name : Name}

/-- The way to the last step of a path is the way to its neighbours. -/
theorem prefix_of_above (hf : f.pieces = front ++ [last]) (hl : isIdle last = false)
    (habove : Path.Above f above) (hs : above.steps ≠ []) :
    above.base = above.pieces ∧ above.pieces <+: front := by
  constructor
  · obtain ⟨init, final, hp, hfinal⟩ := habove.trimmed hs
    refine Path.base_of_concat_name hp ?_
    rintro rfl
    exact absurd hfinal (by decide)
  · have hprefix := habove.front hs
    rw [hf, List.prefix_concat_iff] at hprefix
    refine hprefix.resolve_left fun he => ?_
    have hsteps := congrArg List.length habove.steps
    rw [Path.steps, Path.steps, hf, he, List.length_dropLast, Path.stepsOf_append,
      Path.stepsOf_cons_step hl, List.length_append, List.length_cons] at hsteps
    omega

theorem refusal?_single {front : List Name}
    (hfront : front = [] ∨ front = [.text ""] ∨ front = [.text "."]) (hname : IsName name)
    (hzero : name.has '\x00' = false) (hlong : Spot.isLongName name = false) :
    Node.refusal? ⟨front ++ [name]⟩ = none := by
  rw [Node.refusal?_eq_none_iff]
  rw [Spot.isLongName, decide_eq_false_iff_not, Spot.longestName] at hlong
  have hsize : (Path.mk (front ++ [name])).size ≤ name.size + 2 := by
    have hspan : Path.span front ≤ 2 := by
      rcases hfront with rfl | rfl | rfl <;> decide
    have hlast : Path.span [name] = name.size + 1 := rfl
    rw [Path.size, Path.span_append, hlast]
    omega
  refine ⟨?_, ?_, ?_⟩
  · have hfree : Node.hasZero ⟨front⟩ = false := by
      rcases hfront with rfl | rfl | rfl <;> decide
    rw [Node.hasZero, List.any_append, Bool.or_eq_false_iff]
    exact ⟨hfree, by simpa using hzero⟩
  · have hne := hname.ne_empty
    rcases hfront with rfl | rfl | rfl <;> simp [hne]
  · rw [isLongPath, decide_eq_false_iff_not, longestPath]
    omega

/-- A neighbour with a name that is no longer is not refused either. -/
theorem refusal?_beside (hf : f.pieces = front ++ [last]) (hl : isIdle last = false)
    (habove : Path.Above f above) (hr : Node.refusal? f = none) (hname : IsName name)
    (hzero : name.has '\x00' = false) (hlong : Spot.isLongName name = false)
    (hsize : name.size ≤ last.size) :
    Node.refusal? (above.joinName name) = none := by
  have hpath : above.joinName name = ⟨above.base ++ [name]⟩ := by
    rw [Path.mk.injEq, Path.pieces_joinName]
  rw [hpath]
  by_cases hs : above.steps = []
  · refine refusal?_single ?_ hname hzero hlong
    rw [Path.base]
    rcases habove.empty hs with he | he | he
    · rw [he]
      exact .inr (.inl rfl)
    · rw [he]
      exact .inr (.inr rfl)
    · rw [he]
      exact .inl rfl
  · obtain ⟨hbase, hprefix⟩ := prefix_of_above hf hl habove hs
    rw [hbase]
    obtain ⟨rest, rfl⟩ := hprefix
    have hne : above.pieces ≠ [] := by
      intro he
      rw [Path.steps, he] at hs
      exact hs rfl
    rw [Node.refusal?_eq_none_iff] at hr ⊢
    obtain ⟨hz, -, hfits⟩ := hr
    refine ⟨?_, by simp [List.append_eq_singleton_iff, hne], Node.isLongPath_eq_false hfits ?_⟩
    · rw [Node.hasZero, List.any_append, Bool.or_eq_false_iff]
      refine ⟨Node.hasZero_eq_false (q := above) hz fun x hx => .inl ?_, by simpa using hzero⟩
      rw [hf]
      exact List.mem_append_left _ (List.mem_append_left _ hx)
    · rw [Path.size, Path.size, hf]
      simp only [Path.span_append, Path.span_cons]
      omega

/-- The directory above a path that is not refused is ready if its steps reach it. -/
theorem ready_of_above {v : View} {place : Place} (habove : Path.Above f above)
    (hr : Node.refusal? f = none) (hreach : v.reach [] above.steps = .directory place) :
    Ready v above := by
  refine ⟨?_, place, hreach⟩
  by_cases hs : above.steps = []
  · obtain ⟨pieces⟩ := above
    rcases habove.empty hs with rfl | rfl | rfl
    · exact .inr (by decide)
    · exact .inr (by decide)
    · exact .inl rfl
  · refine .inr (Node.refusal?_of_front hr (habove.front hs) fun he => hs ?_)
    rw [Path.steps, he]
    rfl

end Beside

end PermitTypes.Files
