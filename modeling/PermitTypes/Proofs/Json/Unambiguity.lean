import PermitTypes.Proofs.Json.Skipping

namespace PermitTypes.Json.Grammar

theorem shortEscapes_unique :
    ∀ p ∈ shortEscapes, p.1 ≠ 'u' ∧ ∀ q ∈ shortEscapes, p.1 = q.1 → p.2 = q.2 := by
  decide

theorem Chars.unique {s rest rest' : List Char} {points points' : List Nat}
    (h : Chars s points rest) (h' : Chars s points' rest') : points = points' ∧ rest = rest' := by
  induction h generalizing points' with
  | close =>
      cases h' with
      | close => exact ⟨rfl, rfl⟩
      | plain _ hquote => exact absurd rfl hquote
  | plain _ hquote hslash _ ih =>
      cases h' with
      | close => exact absurd rfl hquote
      | plain _ _ _ h' =>
          obtain ⟨rfl, rfl⟩ := ih h'
          exact ⟨rfl, rfl⟩
      | short => exact absurd rfl hslash
      | unit => exact absurd rfl hslash
  | short hc _ ih =>
      cases h' with
      | plain _ _ hslash => exact absurd rfl hslash
      | short hc' h' =>
          obtain ⟨rfl, rfl⟩ := ih h'
          exact ⟨congrArg (· :: _) ((shortEscapes_unique _ hc).2 _ hc' rfl), rfl⟩
      | unit => exact absurd rfl (shortEscapes_unique _ hc).1
  | unit hn _ ih =>
      cases h' with
      | plain _ _ hslash => exact absurd rfl hslash
      | short hc' => exact absurd rfl (shortEscapes_unique _ hc').1
      | unit hn' h' =>
          obtain ⟨rfl, rfl⟩ := ih h'
          exact ⟨congrArg (· :: _) (Option.some.inj (hn.symm.trans hn')), rfl⟩

theorem Value.rest_unique {v rest rest' : List Char} {t t' : Raw} (h : Value v t rest)
    (h' : Value v t' rest') (hrest : Delimited rest) (hrest' : Delimited rest') : rest = rest' := by
  have hskip := value_complete [] h h.skipSpace_eq hrest
  have hskip' := value_complete [] h' h'.skipSpace_eq hrest'
  rw [Skip.ended] at hskip hskip'
  cases hskip.symm.trans hskip'
  rfl

/-- What begins as no number does is none. -/
theorem Value.not_number {c : Char} {s lexeme rest : List Char} (hc : c ∉ '-' :: digits)
    (h : Number lexeme) : c :: s ≠ lexeme ++ rest :=
  fun heq => hc (h.mem_of_cons_eq heq)

theorem Blanks.unique {s v v' : List Char} (hb : Blanks s v) (hb' : Blanks s v')
    (hv : skipSpace v = v) (hv' : skipSpace v' = v') : v = v' := by
  rw [← hv, ← hv', ← hb.skipSpace_eq, ← hb'.skipSpace_eq]

/-- What stands between values or behind the last one. -/
def marks : List Char := [',', ':', ']', '}']

theorem skipSpace_mark {c : Char} (hc : c ∈ marks) (s : List Char) :
    skipSpace (c :: s) = c :: s := by
  have hne : ∀ c ∈ marks, c ∉ [' ', '\t', '\n', '\r'] := List.all_iff_forall_prop.1 (by decide)
  exact skipSpace_cons (hne c hc) s

theorem Blanks.marks_unique {c d : Char} {s r r' : List Char} (hb : Blanks s (c :: r))
    (hb' : Blanks s (d :: r')) (hc : c ∈ marks) (hd : d ∈ marks) : c :: r = d :: r' :=
  hb.unique hb' (skipSpace_mark hc r) (skipSpace_mark hd r')

theorem Value.not_mark {c : Char} {s rest : List Char} {t : Raw} (hc : c ∈ marks) :
    ¬ Value (c :: s) t rest := by
  intro h
  have hne : ∀ c ∈ marks, c ∉ starts := List.all_iff_forall_prop.1 (by decide)
  obtain ⟨d, r, heq, hd⟩ := h.head
  obtain ⟨rfl, -⟩ := List.cons.inj heq
  exact hne c hc hd

theorem Value.array_cases {s rest : List Char} {t : Raw} (h : Value ('[' :: s) t rest) :
    (t = .array [] ∧ Blanks s (']' :: rest)) ∨
      ∃ v u r ts, t = .array (u :: ts) ∧ Blanks s v ∧ Value v u r ∧ MoreElements r ts rest := by
  generalize hv : '[' :: s = v at h
  cases h with
  | emptyArray hb =>
      obtain rfl := (List.cons.inj hv).2
      exact .inl ⟨rfl, hb⟩
  | array hb hu hts =>
      obtain rfl := (List.cons.inj hv).2
      exact .inr ⟨_, _, _, _, rfl, hb, hu, hts⟩
  | number hn => exact absurd hv (Value.not_number (by decide) hn)
  | _ => cases hv

theorem Value.object_cases {s rest : List Char} {t : Raw} (h : Value ('{' :: s) t rest) :
    (t = .object [] ∧ Blanks s ('}' :: rest)) ∨
      ∃ v m r ms, t = .object (m :: ms) ∧ Blanks s v ∧ Member v m r ∧ MoreMembers r ms rest := by
  generalize hv : '{' :: s = v at h
  cases h with
  | emptyObject hb =>
      obtain rfl := (List.cons.inj hv).2
      exact .inl ⟨rfl, hb⟩
  | object hb hm hms =>
      obtain rfl := (List.cons.inj hv).2
      exact .inr ⟨_, _, _, _, rfl, hb, hm, hms⟩
  | number hn => exact absurd hv (Value.not_number (by decide) hn)
  | _ => cases hv

-- The recursion follows the first derivation. A second one of the same text is taken apart beside it,
-- and the first character that is not blank says which of its constructors are left.
mutual

/-- A text is at most one value, given that the rest cannot make a number go on. -/
theorem Value.unique {v rest rest' : List Char} {t t' : Raw} (h : Value v t rest)
    (h' : Value v t' rest') (hrest : Delimited rest) (hrest' : Delimited rest') : t = t' := by
  cases h with
  | number hn =>
      obtain rfl := (Value.number hn).rest_unique h' hrest hrest'
      generalize hv : _ ++ rest = v at h'
      cases h' with
      | number => exact congrArg Raw.number (List.append_cancel_right hv)
      | _ => exact absurd hv.symm (Value.not_number (by decide) hn)
  | null =>
      generalize hv : _ :: _ = v at h'
      cases h' with
      | null => rfl
      | number hn => exact absurd hv (Value.not_number (by decide) hn)
      | _ => cases hv
  | true =>
      generalize hv : _ :: _ = v at h'
      cases h' with
      | true => rfl
      | number hn => exact absurd hv (Value.not_number (by decide) hn)
      | _ => cases hv
  | false =>
      generalize hv : _ :: _ = v at h'
      cases h' with
      | false => rfl
      | number hn => exact absurd hv (Value.not_number (by decide) hn)
      | _ => cases hv
  | string hp =>
      generalize hv : _ :: _ = v at h'
      cases h' with
      | string hp' =>
          obtain rfl := (List.cons.inj hv).2
          exact congrArg Raw.string (hp.unique hp').1
      | number hn => exact absurd hv (Value.not_number (by decide) hn)
      | _ => cases hv
  | emptyArray hb =>
      rcases h'.array_cases with ⟨rfl, -⟩ | ⟨v', t', r', ts', rfl, hb', ht', hts'⟩
      · rfl
      · obtain rfl := hb.unique hb' (skipSpace_mark (by decide) _) ht'.skipSpace_eq
        exact absurd ht' (Value.not_mark (by decide))
  | array hb ht hts =>
      rcases h'.array_cases with ⟨rfl, hb'⟩ | ⟨v', t', r', ts', rfl, hb', ht', hts'⟩
      · obtain rfl := hb.unique hb' ht.skipSpace_eq (skipSpace_mark (by decide) _)
        exact absurd ht (Value.not_mark (by decide))
      · obtain rfl := hb.unique hb' ht.skipSpace_eq ht'.skipSpace_eq
        obtain rfl := ht.rest_unique ht' hts.delimited hts'.delimited
        rw [ht.unique ht' hts.delimited hts'.delimited, hts.unique hts']
  | emptyObject hb =>
      rcases h'.object_cases with ⟨rfl, -⟩ | ⟨v', m', r', ms', rfl, hb', hm', hms'⟩
      · rfl
      · have hv := hb.unique hb' (skipSpace_mark (by decide) _) hm'.skipSpace_eq
        cases hm'
        cases hv
  | object hb hm hms =>
      rcases h'.object_cases with ⟨rfl, hb'⟩ | ⟨v', m', r', ms', rfl, hb', hm', hms'⟩
      · have hv := hb.unique hb' hm.skipSpace_eq (skipSpace_mark (by decide) _)
        cases hm
        cases hv
      · obtain rfl := hb.unique hb' hm.skipSpace_eq hm'.skipSpace_eq
        obtain ⟨rfl, rfl⟩ := hm.unique hm' hms.delimited hms'.delimited
        rw [hms.unique hms']

theorem MoreElements.unique {s rest rest' : List Char} {ts ts' : List Raw}
    (h : MoreElements s ts rest) (h' : MoreElements s ts' rest') : ts = ts' := by
  cases h with
  | close hb =>
      cases h' with
      | close => rfl
      | next hb' =>
          cases hb.marks_unique hb' (by decide) (by decide)
  | next hb hv ht hts =>
      cases h' with
      | close hb' =>
          cases hb.marks_unique hb' (by decide) (by decide)
      | next hb' hv' ht' hts' =>
          cases hb.marks_unique hb' (by decide) (by decide)
          obtain rfl := hv.unique hv' ht.skipSpace_eq ht'.skipSpace_eq
          obtain rfl := ht.rest_unique ht' hts.delimited hts'.delimited
          rw [ht.unique ht' hts.delimited hts'.delimited, hts.unique hts']

theorem Member.unique {v rest rest' : List Char} {m m' : List Nat × Raw} (h : Member v m rest)
    (h' : Member v m' rest') (hrest : Delimited rest) (hrest' : Delimited rest') :
    m = m' ∧ rest = rest' := by
  cases h with
  | mk hn hb hv ht =>
      cases h' with
      | mk hn' hb' hv' ht' =>
          obtain ⟨rfl, rfl⟩ := hn.unique hn'
          cases hb.marks_unique hb' (by decide) (by decide)
          obtain rfl := hv.unique hv' ht.skipSpace_eq ht'.skipSpace_eq
          obtain rfl := ht.rest_unique ht' hrest hrest'
          exact ⟨congrArg _ (ht.unique ht' hrest hrest'), rfl⟩

theorem MoreMembers.unique {s rest rest' : List Char} {ms ms' : List (List Nat × Raw)}
    (h : MoreMembers s ms rest) (h' : MoreMembers s ms' rest') : ms = ms' := by
  cases h with
  | close hb =>
      cases h' with
      | close => rfl
      | next hb' =>
          cases hb.marks_unique hb' (by decide) (by decide)
  | next hb hv hm hms =>
      cases h' with
      | close hb' =>
          cases hb.marks_unique hb' (by decide) (by decide)
      | next hb' hv' hm' hms' =>
          cases hb.marks_unique hb' (by decide) (by decide)
          obtain rfl := hv.unique hv' hm.skipSpace_eq hm'.skipSpace_eq
          obtain ⟨rfl, rfl⟩ := hm.unique hm' hms.delimited hms'.delimited
          rw [hms.unique hms']

end

theorem Text.unique {s : List Char} {t t' : Raw} (h : Text s t) (h' : Text s t') : t = t' := by
  obtain ⟨v, r, hb, hv, hr⟩ := h
  obtain ⟨v', r', hb', hv', hr'⟩ := h'
  have hdelimited {r : List Char} (hr : Blanks r []) : Delimited r := by
    refine delimited_of_skipSpace ?_
    rw [skipSpace_of_blanks_nil hr]
    exact fun _ h => nomatch h
  obtain rfl := hb.unique hb' hv.skipSpace_eq hv'.skipSpace_eq
  exact hv.unique hv' (hdelimited hr) (hdelimited hr')

end PermitTypes.Json.Grammar
