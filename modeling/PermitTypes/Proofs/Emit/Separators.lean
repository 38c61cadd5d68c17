import PermitTypes.Emit.Naming

namespace PermitTypes.Emit

def separators : List Char := ['-', '_', '.', '/'] ++ Text.blanks

theorem isSeparator_iff (c : Char) : isSeparator c = true ↔ c ∈ separators := by
  simp only [isSeparator, Text.isBlank, separators, Bool.or_eq_true, beq_iff_eq,
    List.contains_iff_mem, List.mem_append, List.mem_cons, List.not_mem_nil, or_false, or_assoc]

theorem toNat_ofNat (n : Nat) : (Char.ofNat n).toNat = n ∨ (Char.ofNat n).toNat = 0 := by
  rw [Char.ofNat]
  by_cases h : n.isValidChar
  · rw [dif_pos h]
    exact .inl rfl
  · rw [dif_neg h]
    exact .inr rfl

/-- The images of the runs lie between the separators. -/
theorem apply_not_separator {r : Text.UpperRun} (hr : r ∈ Text.upperRuns) {n : Nat}
    (h : r.covers n = true) : r.apply n ∉ separators := by
  have hruns : (Text.upperRuns.all fun r => separators.all fun s => 0 < s.toNat ∧
      ((r.last + r.shift).toNat < s.toNat ∨ s.toNat < (r.first + r.shift).toNat)) = true := by
    decide +kernel
  intro hs
  obtain ⟨hpos, hbetween⟩ := of_decide_eq_true
    (List.all_eq_true.1 (List.all_eq_true.1 hruns r hr) _ hs)
  simp only [Text.UpperRun.covers, Bool.and_eq_true, decide_eq_true_eq] at h
  have hn := toNat_ofNat (n + r.shift).toNat
  rw [Text.UpperRun.apply] at hpos hbetween
  omega

/-- The upper-case form of what belongs to a word belongs to it as well. -/
theorem upper_not_separator {c d : Char} (hc : c ∉ separators) (hd : d ∈ Text.upper c) :
    d ∉ separators := by
  have hexpansions : (Text.upperExpansions.all fun e => e.2.all (· ∉ separators)) = true := by
    decide +kernel
  rw [Text.upper] at hd
  split at hd
  · rename_i cs hcs
    obtain ⟨before, after, hsplit, -⟩ := List.lookup_eq_some_iff.1 hcs
    have hmem : (c, cs) ∈ Text.upperExpansions := by
      rw [hsplit]
      exact List.mem_append_right _ List.mem_cons_self
    exact of_decide_eq_true (List.all_eq_true.1 (List.all_eq_true.1 hexpansions _ hmem) d hd)
  · split at hd
    · rename_i r hr
      obtain rfl := List.mem_singleton.1 hd
      have hcovers := List.find?_some hr
      exact apply_not_separator (List.mem_of_find?_eq_some hr) hcovers
    · obtain rfl := List.mem_singleton.1 hd
      exact hc

theorem joinWords_not_separator {fresh : Bool} {cs : List Char} {d : Char}
    (hd : d ∈ joinWords fresh cs) : d ∉ separators := by
  induction cs generalizing fresh with
  | nil => cases hd
  | cons c cs ih =>
      rw [joinWords] at hd
      split at hd
      · exact ih hd
      · rename_i hc
        have hword : c ∉ separators := mt (isSeparator_iff c).2 hc
        split at hd
        · rcases List.mem_append.1 hd with hd | hd
          · exact upper_not_separator hword hd
          · exact ih hd
        · rcases List.mem_cons.1 hd with rfl | hd
          · exact hword
          · exact ih hd

theorem pascalCase_not_separator {name : String} {d : Char} (hd : d ∈ (pascalCase name).toList) :
    d ∉ separators := by
  rw [pascalCase, String.toList_ofList] at hd
  exact joinWords_not_separator hd

end PermitTypes.Emit
