import PermitTypes.Proofs.Emit.Separators
import PermitTypes.Proofs.Emit.TypeNames

namespace PermitTypes.Text

namespace UpperRun

variable {r q : UpperRun} {n : Nat}

/-- The bounds of the images of a run. -/
def low (r : UpperRun) : Nat := (r.first + r.shift).toNat

def high (r : UpperRun) : Nat := (r.last + r.shift).toNat

/-- The images of one run and the characters of another lie apart, or they interleave in steps of
two. -/
def misses (r q : UpperRun) : Bool :=
  Nat.blt r.high q.first || Nat.blt q.last r.low ||
    ((Nat.beq r.step 2 || Nat.beq r.first r.last) && Nat.beq q.step 2 &&
      Nat.beq ((r.low + q.first) % 2) 1)

/-- One run begins after another one has ended. -/
def Before (r q : UpperRun) : Prop := r.last < q.first ∧ q.first ≤ q.last

instance (r q : UpperRun) : Decidable (r.Before q) := inferInstanceAs (Decidable (_ ∧ _))

instance : Trans Before Before Before where
  trans h h' := ⟨Nat.lt_of_lt_of_le h.1 (Nat.le_trans h.2 (Nat.le_of_lt h'.1)), h'.2⟩

/-- The same for runs in ascending order, of which those are passed over that end too low. -/
def missesAll (r : UpperRun) : List UpperRun → Bool
  | [] => true
  | q :: qs => if Nat.blt q.last r.low then r.missesAll qs else r.misses q && Nat.ble r.high q.last

theorem misses_of_missesAll {qs : List UpperRun} (hqs : qs.Pairwise Before)
    (h : r.missesAll qs = true) : ∀ q ∈ qs, r.misses q = true := by
  induction qs with
  | nil => exact fun q hq => nomatch hq
  | cons q qs ih =>
      rw [List.pairwise_cons] at hqs
      rw [List.forall_mem_cons]
      rw [missesAll] at h
      split at h
      · next hlow =>
          exact ⟨by simp [misses, hlow], ih hqs.2 h⟩
      · rw [Bool.and_eq_true, Nat.ble_eq] at h
        refine ⟨h.1, fun q' hq' => ?_⟩
        have hhigh : r.high < q'.first := Nat.lt_of_le_of_lt h.2 (hqs.1 q' hq').1
        simp [misses, hhigh]

theorem covers_iff : r.covers n = true ↔ r.first ≤ n ∧ n ≤ r.last ∧ (n - r.first) % r.step = 0 := by
  simp only [covers, Bool.and_eq_true, decide_eq_true_eq, beq_iff_eq, and_assoc]

theorem not_covers_of_misses (h : r.misses q = true) (hlow : 0 < r.low) (hn : r.covers n = true) :
    ¬ q.covers (n + r.shift).toNat = true := by
  simp only [misses, Bool.or_eq_true, Bool.and_eq_true, Nat.blt_eq, Nat.beq_eq] at h
  rw [covers_iff] at hn ⊢
  rw [low] at h hlow
  rintro ⟨hfirst, hlast, hstep⟩
  rcases h with (h | h) | ⟨⟨hr | hr, hq⟩, hodd⟩
  · rw [high] at h
    omega
  · omega
  · rw [hq] at hstep
    rw [hr] at hn
    omega
  · rw [hq] at hstep
    omega

end UpperRun

/-- The images of the runs are characters. -/
theorem toNat_apply {r : UpperRun} (hr : r ∈ upperRuns) {n : Nat} (hn : r.covers n = true) :
    (r.apply n).toNat = (n + r.shift).toNat := by
  have hvalid : ∀ r ∈ upperRuns, r.high < 0xd800 ∨ 0xdfff < r.low ∧ r.high < 0x110000 := by
    decide +kernel
  have hbounds : r.low ≤ (n + r.shift).toNat ∧ (n + r.shift).toNat ≤ r.high := by
    rw [UpperRun.covers_iff] at hn
    rw [UpperRun.low, UpperRun.high]
    omega
  have hchar : (n + r.shift).toNat.isValidChar := by
    rcases hvalid r hr with h | h
    · exact .inl (Nat.lt_of_le_of_lt hbounds.2 h)
    · exact .inr ⟨Nat.lt_of_lt_of_le h.1 hbounds.1, Nat.lt_of_le_of_lt hbounds.2 h.2⟩
  rw [UpperRun.apply, Char.ofNat, dif_pos hchar]
  rfl

/-- No image of a run has another upper-case form. -/
theorem upper_apply {r : UpperRun} (hr : r ∈ upperRuns) {n : Nat} (hn : r.covers n = true) :
    upper (r.apply n) = [r.apply n] := by
  have hlow : ∀ r ∈ upperRuns, 0 < r.low := by decide +kernel
  have hruns : ∀ r ∈ upperRuns, r.missesAll upperRuns = true := by decide +kernel
  have hascending : upperRuns.IsChain UpperRun.Before := by decide +kernel
  have hkeys : (upperRuns.all fun r => upperExpansions.all fun e =>
      Nat.blt r.high e.1.toNat || Nat.blt e.1.toNat r.low) = true := by
    decide +kernel
  have hlookup : upperExpansions.lookup (r.apply n) = none := by
    refine List.lookup_eq_none_iff.2 fun e he => bne_iff_ne.2 fun heq => ?_
    have hapart := List.all_eq_true.1 (List.all_eq_true.1 hkeys r hr) e he
    simp only [Bool.or_eq_true, Nat.blt_eq, ← heq, toNat_apply hr hn, UpperRun.low,
      UpperRun.high] at hapart
    rw [UpperRun.covers_iff] at hn
    omega
  have hfind : upperRuns.find? (·.covers (r.apply n).toNat) = none := by
    refine List.find?_eq_none.2 fun q hq => ?_
    have hmisses := UpperRun.misses_of_missesAll hascending.pairwise (hruns r hr) q hq
    rw [toNat_apply hr hn]
    exact UpperRun.not_covers_of_misses hmisses (hlow r hr) hn
  rw [upper, hlookup, hfind]

/-- The first character of an upper-case form is its own upper-case form. -/
theorem exists_upper (c : Char) : ∃ d ds, upper c = d :: ds ∧ upper d = [d] := by
  have hexpansions :
      (upperExpansions.all fun e => e.2.head?.any fun d => upper d == [d]) = true := by
    decide +kernel
  cases hl : upperExpansions.lookup c with
  | some cs =>
      obtain ⟨before, after, hsplit, -⟩ := List.lookup_eq_some_iff.1 hl
      have hmem : (c, cs) ∈ upperExpansions := by
        rw [hsplit]
        exact List.mem_append_right _ List.mem_cons_self
      have hfirst := List.all_eq_true.1 hexpansions _ hmem
      obtain ⟨d, hd, hupper⟩ := (Option.any_eq_true _ _).1 hfirst
      obtain ⟨ds, rfl⟩ := List.head?_eq_some_iff.1 hd
      exact ⟨d, ds, by rw [upper, hl], eq_of_beq hupper⟩
  | none =>
      cases hf : upperRuns.find? (·.covers c.toNat) with
      | some r =>
          have hcovers := List.find?_some hf
          exact ⟨_, [], by rw [upper, hl, hf], upper_apply (List.mem_of_find?_eq_some hf) hcovers⟩
      | none =>
          have hself : upper c = [c] := by rw [upper, hl, hf]
          exact ⟨c, [], hself, hself⟩

end PermitTypes.Text

namespace PermitTypes.Emit

/-- What names are joined to: no separator is in it, and its first character is in upper case. -/
structure IsJoined (cs : List Char) : Prop where
  unbroken : ∀ c ∈ cs, isSeparator c = false
  raised : ∀ c ∈ cs.head?, Text.upper c = [c]

theorem joinWords_of_unbroken {cs : List Char} (h : ∀ c ∈ cs, isSeparator c = false) :
    joinWords false cs = cs := by
  induction cs with
  | nil => rfl
  | cons c cs ih =>
      rw [List.forall_mem_cons] at h
      rw [joinWords, h.1, if_neg Bool.false_ne_true, if_neg Bool.false_ne_true, ih h.2]

theorem IsJoined.joinWords_eq {cs : List Char} (h : IsJoined cs) : joinWords true cs = cs := by
  cases cs with
  | nil => rfl
  | cons c cs =>
      have hbreak := List.forall_mem_cons.1 h.unbroken
      rw [joinWords, hbreak.1, if_neg Bool.false_ne_true, if_pos rfl, h.raised c rfl,
        joinWords_of_unbroken hbreak.2]
      rfl

theorem unbroken_joinWords (fresh : Bool) (cs : List Char) :
    ∀ c ∈ joinWords fresh cs, isSeparator c = false := by
  intro c hc
  rw [Bool.eq_false_iff, ne_eq, isSeparator_iff]
  exact joinWords_not_separator hc

theorem isJoined_joinWords (cs : List Char) : IsJoined (joinWords true cs) := by
  refine ⟨unbroken_joinWords true cs, ?_⟩
  induction cs with
  | nil => exact fun c hc => nomatch hc
  | cons c cs ih =>
      rw [joinWords]
      split
      · exact ih
      · obtain ⟨d, ds, hc, hd⟩ := Text.exists_upper c
        intro x hx
        rw [if_pos rfl, hc] at hx
        obtain rfl := Option.some.inj hx
        exact hd

theorem pascalCase_append_separator (a b : String) {c : Char} (h : isSeparator c) :
    pascalCase (a ++ String.singleton c ++ b) = pascalCase a ++ pascalCase b := by
  have hlist : (a ++ String.singleton c ++ b).toList = a.toList ++ c :: b.toList := by simp
  rw [pascalCase, hlist, joinWords_append_separator true _ _ h, String.ofList_append]
  rfl

theorem pascalCase_idem (name : String) : pascalCase (pascalCase name) = pascalCase name := by
  rw [pascalCase, pascalCase, String.toList_ofList, (isJoined_joinWords _).joinWords_eq]

/-- The parts of a line between white space. -/
def partsOfLine (line : String) : List String :=
  (line.toList.splitOnP Text.isBlank).map String.ofList

theorem partsOfLine_of_unbroken {part : String} (h : part.toList.any Text.isBlank = false) :
    partsOfLine part = [part] := by
  have hsplit : part.toList.splitOnP Text.isBlank = [part.toList] :=
    List.splitOnP_eq_singleton fun c hc => Bool.eq_false_iff.2 (List.any_eq_false.1 h c hc)
  rw [partsOfLine, hsplit, List.map_singleton, String.ofList_toList]

theorem partsOfLine_space {part : String} (h : part.toList.any Text.isBlank = false)
    (rest : String) : partsOfLine (part ++ " " ++ rest) = part :: partsOfLine rest := by
  have hlist : (part ++ " " ++ rest).toList = part.toList ++ ' ' :: rest.toList := by simp
  rw [partsOfLine, hlist, List.splitOnP_append_cons _ _ (by decide), List.map_append]
  exact congrArg (· ++ _) (partsOfLine_of_unbroken h)

theorem unbroken_pascalCase (name : String) :
    ∀ c ∈ (pascalCase name).toList, isSeparator c = false := by
  rw [pascalCase, String.toList_ofList]
  exact unbroken_joinWords true name.toList

/-- A type name is not broken by white space. -/
theorem unbroken_typeName (name : String) {suffix : String}
    (h : suffix.toList.any Text.isBlank = false) :
    (pascalCase name ++ suffix).toList.any Text.isBlank = false := by
  rw [String.toList_append, List.any_append, h, Bool.or_false, List.any_eq_false]
  intro c hc
  have hsep := unbroken_pascalCase name c hc
  rw [isSeparator, Bool.or_eq_false_iff] at hsep
  exact Bool.eq_false_iff.1 hsep.2

theorem unbroken_permitTypeName (name : String) :
    (permitTypeName name).toList.any Text.isBlank = false :=
  unbroken_typeName name (by decide)

theorem unbroken_extendTypeName (schema : String) :
    (extendTypeName schema).toList.any Text.isBlank = false :=
  unbroken_typeName schema (by decide)

theorem partsOfLine_declarationHead (name : String) :
    partsOfLine (declarationHead (permitTypeName name)) =
      ["export", "type", permitTypeName name, "=", "\x7b"] := by
  have hline : declarationHead (permitTypeName name) =
      "export" ++ " " ++
        ("type" ++ " " ++ (permitTypeName name ++ " " ++ ("=" ++ " " ++ "\x7b"))) := by
    simp [declarationHead, ← String.toList_inj]
  rw [hline, partsOfLine_space (by decide), partsOfLine_space (by decide),
    partsOfLine_space (unbroken_permitTypeName name), partsOfLine_space (by decide),
    partsOfLine_of_unbroken (by decide)]

theorem partsOfLine_extendLine (schema : String) :
    partsOfLine (extendLine schema) = ["extend:", extendTypeName schema] := by
  rw [extendLine, show "extend: " = "extend:" ++ " " from rfl, partsOfLine_space (by decide),
    partsOfLine_of_unbroken (unbroken_extendTypeName schema)]

/-- A name is joined from its words: a separator cuts it in two wherever it stands, no separator is
left, so that the lines with type names in them keep their parts, and what has been joined stays as
it is. -/
theorem pascalCase_by_words (a b : String) {c : Char} (h : isSeparator c) :
    pascalCase a = String.ofList ((words a).flatMap capitalise) ∧
      pascalCase (a ++ String.singleton c ++ b) = pascalCase a ++ pascalCase b ∧
      (∀ d ∈ (pascalCase a).toList, isSeparator d = false) ∧
      partsOfLine (declarationHead (permitTypeName a)) =
        ["export", "type", permitTypeName a, "=", "\x7b"] ∧
      partsOfLine (extendLine a) = ["extend:", extendTypeName a] ∧
      pascalCase (pascalCase a) = pascalCase a :=
  ⟨pascalCase_eq a, pascalCase_append_separator a b h, unbroken_pascalCase a,
    partsOfLine_declarationHead a, partsOfLine_extendLine a, pascalCase_idem a⟩

/-- The first word begins with a character whose upper-case form is two, and so does the second. -/
theorem ligatures_joined :
    isSeparator '\u2003' = true ∧ pascalCase "\u0149-\u00e9t\u00e9" = "\u02bcN\u00c9t\u00e9" ∧
      pascalCase "\ufb01x" = "FIx" ∧
      pascalCase ("\u0149-\u00e9t\u00e9" ++ String.singleton '\u2003' ++ "\ufb01x") =
        "\u02bcN\u00c9t\u00e9FIx" ∧
      pascalCase "\u02bcN\u00c9t\u00e9" = "\u02bcN\u00c9t\u00e9" := by
  have hblank : isSeparator '\u2003' = true := by decide
  obtain ⟨-, hjoin, -, -, -, hidem⟩ := pascalCase_by_words "\u0149-\u00e9t\u00e9" "\ufb01x" hblank
  have hfirst : pascalCase "\u0149-\u00e9t\u00e9" = "\u02bcN\u00c9t\u00e9" := by decide +kernel
  have hsecond : pascalCase "\ufb01x" = "FIx" := by decide +kernel
  rw [hfirst] at hidem
  rw [hfirst, hsecond] at hjoin
  exact ⟨hblank, hfirst, hsecond, hjoin, hidem⟩

end PermitTypes.Emit
