import PermitTypes.Json.Skip.Scalar
import PermitTypes.Proofs.Json.Grammar

namespace PermitTypes.Json.Grammar

theorem hexDigit_eq (c : Char) : hexDigit c = hexit c := by
  by_cases hc : c.toNat < 128
  · have hall : ∀ n < 128, hexDigit (Char.ofNat n) = hexit (Char.ofNat n) := by decide +kernel
    simpa using hall c.toNat hc
  · have hval : 128 ≤ c.val.toNat := Nat.le_of_not_lt hc
    have hdigit : hexDigit c = none := by
      simp only [hexDigit, Char.le_def, UInt32.le_iff_toNat_le]
      rw [if_neg, if_neg, if_neg] <;> exact fun h => absurd (Nat.le_trans hval h.2) (by decide)
    have hlower : c.toLower = c := by
      refine dif_neg fun h => ?_
      exact absurd (Nat.le_trans hval (UInt32.le_iff_toNat_le.1 h.2)) (by decide)
    rw [hdigit, hexit, hlower, eq_comm, List.idxOf?_eq_none_iff]
    intro hmem
    have hall : ∀ d ∈ ['0', '1', '2', '3', '4', '5', '6', '7', '8', '9', 'a', 'b', 'c', 'd', 'e',
      'f'], d.toNat < 128 := List.all_iff_forall_prop.1 (by decide)
    exact hc (hall c hmem)

theorem hexValue_eq (a b c d : Char) : hexValue a b c d = codeUnit a b c d := by
  simp only [hexValue, codeUnit, hexDigit_eq]
  cases hexit a <;> cases hexit b <;> cases hexit c <;> cases hexit d <;> simp
  omega

theorem readHex_eq_ok_iff {s rest : List Char} {n : Nat} :
    readHex s = .ok (n, rest) ↔
      ∃ a b c d, s = a :: b :: c :: d :: rest ∧ codeUnit a b c d = some n := by
  constructor
  · intro h
    unfold readHex at h
    split at h
    · rename_i a b c d r
      split at h
      · rename_i m hm
        cases h
        exact ⟨a, b, c, d, rfl, by rw [← hexValue_eq, hm]⟩
      · cases h
    · cases h
  · rintro ⟨a, b, c, d, rfl, h⟩
    simp only [readHex, hexValue_eq, h]

theorem readHex_of_codeUnit {a b c d : Char} {n : Nat} (h : codeUnit a b c d = some n)
    (s : List Char) : readHex (a :: b :: c :: d :: s) = .ok (n, s) :=
  readHex_eq_ok_iff.2 ⟨a, b, c, d, rfl, h⟩

theorem unescape_eq_some_iff {c d : Char} :
    unescape c = some d ↔ (c, d.toNat) ∈ shortEscapes := by
  constructor
  · intro h
    unfold unescape at h
    split at h <;> cases h <;> decide
  · intro h
    simp only [shortEscapes, List.mem_cons, Prod.mk.injEq, List.not_mem_nil, or_false] at h
    have hd (e : Char) (he : d.toNat = e.toNat) : d = e := Char.toNat_inj.1 he
    rcases h with ⟨rfl, h⟩ | ⟨rfl, h⟩ | ⟨rfl, h⟩ | ⟨rfl, h⟩ | ⟨rfl, h⟩ | ⟨rfl, h⟩ | ⟨rfl, h⟩ | ⟨rfl, h⟩
    · rw [hd '"' h]; rfl
    · rw [hd '\\' h]; rfl
    · rw [hd '/' h]; rfl
    · rw [hd '\x08' h]; rfl
    · rw [hd '\x0c' h]; rfl
    · rw [hd '\n' h]; rfl
    · rw [hd '\r' h]; rfl
    · rw [hd '\t' h]; rfl

def IsSurrogate (n : Nat) : Prop := 0xd800 ≤ n ∧ n < 0xe000

theorem chars?_cons {n : Nat} (h : ¬ IsSurrogate n) (points : List Nat) :
    chars? (n :: points) = (chars? points).map (Char.ofNat n :: ·) := by
  have hn : n < 0xd800 ∨ 0xe000 ≤ n := by
    simp only [IsSurrogate, not_and, Nat.not_lt] at h
    omega
  rw [chars?.eq_def]
  simp only [if_pos hn]

theorem chars?_pair {high low : Nat} (hh : isHighSurrogate high) (hl : isLowSurrogate low)
    (points : List Nat) :
    chars? (high :: low :: points) = (chars? points).map (pairSurrogates high low :: ·) := by
  simp only [isHighSurrogate, isLowSurrogate, Bool.and_eq_true, decide_eq_true_eq] at hh hl
  rw [chars?.eq_def]
  simp only
  rw [if_neg (by omega), if_pos ⟨hh.2, hl⟩, Nat.mul_comm]
  rfl

theorem not_isSurrogate_toNat (c : Char) : ¬ IsSurrogate c.toNat := by
  rintro ⟨hl, hh⟩
  have hv : c.toNat.isValidChar := c.valid
  simp only [Nat.isValidChar] at hv
  omega

/-- Only a pair of surrogates begins with a surrogate. -/
theorem exists_pair_of_chars? {n : Nat} {points : List Nat} {us : List Char}
    (hn : IsSurrogate n) (h : chars? (n :: points) = some us) :
    ∃ low others vs, isHighSurrogate n ∧ isLowSurrogate low ∧ points = low :: others ∧
      chars? others = some vs ∧ us = pairSurrogates n low :: vs := by
  have hs : ¬ (n < 0xd800 ∨ 0xe000 ≤ n) := by
    obtain ⟨hl, hh⟩ := hn
    omega
  rw [chars?.eq_def] at h
  simp only [if_neg hs] at h
  cases points with
  | nil => cases h
  | cons m others =>
      simp only [Option.ite_none_right_eq_some, Option.map_eq_some_iff] at h
      obtain ⟨⟨hh, hl⟩, vs, hvs, rfl⟩ := h
      refine ⟨m, others, vs, ?_, ?_, rfl, hvs, ?_⟩
      · simpa [isHighSurrogate] using ⟨hn.1, hh⟩
      · simpa [isLowSurrogate] using hl
      · rw [pairSurrogates, Nat.mul_comm]

theorem readEscape_sound {escape rest : List Char} {c : Char}
    (h : readEscape escape = .ok (c, rest)) :
    ∃ ps, (∀ points out, Chars rest points out → Chars ('\\' :: escape) (ps ++ points) out) ∧
      ∀ points, chars? (ps ++ points) = (chars? points).map (c :: ·) := by
  unfold readEscape at h
  split at h
  · cases h
  · unfold readCodePoint at h
    split at h
    · cases h
    · rename_i n r hr
      obtain ⟨_, _, _, _, rfl, hn⟩ := readHex_eq_ok_iff.1 hr
      split at h
      · cases h
      · rename_i hlow
        split at h
        · rename_i hhigh
          unfold readLow at h
          split at h
          · split at h
            · cases h
            · rename_i m r' hm
              obtain ⟨_, _, _, _, rfl, hunit⟩ := readHex_eq_ok_iff.1 hm
              split at h
              · rename_i hl
                obtain ⟨rfl, rfl⟩ := Prod.mk.inj (Except.ok.inj h)
                exact ⟨[n, m], fun _ _ hc => .unit hn (.unit hunit hc), chars?_pair hhigh hl⟩
              · cases h
          all_goals cases h
        · rename_i hhigh
          cases h
          refine ⟨[n], fun _ _ hc => .unit hn hc, chars?_cons ?_⟩
          simp only [isLowSurrogate, isHighSurrogate, Bool.and_eq_true, decide_eq_true_eq,
            not_and, Nat.not_lt] at hlow hhigh
          rintro ⟨hl, hh⟩
          omega
  · rename_i e r _
    split at h
    · rename_i d hd
      cases h
      refine ⟨[c.toNat], fun _ _ hc => .short (unescape_eq_some_iff.1 hd) hc, fun points => ?_⟩
      have hc := chars?_cons (not_isSurrogate_toNat c) points
      rwa [Char.ofNat_toNat] at hc
    · cases h

theorem readChars_sound {taken s cs rest : List Char} (h : readChars taken s = .ok (cs, rest)) :
    ∃ points us, Chars s points rest ∧ chars? points = some us ∧ cs = us.reverse ++ taken := by
  fun_induction readChars taken s with
  | case1 => cases h
  | case2 taken r =>
      cases h
      exact ⟨[], [], .close, rfl, rfl⟩
  | case3 => cases h
  | case4 taken escape c r he _ ih =>
      obtain ⟨points, us, hp, hu, rfl⟩ := ih h
      obtain ⟨ps, hchars, hps⟩ := readEscape_sound he
      exact ⟨ps ++ points, c :: us, hchars points rest hp, by rw [hps, hu]; rfl, by simp⟩
  | case5 => cases h
  | case6 taken c s hquote hslash hc ih =>
      obtain ⟨points, us, hp, hu, rfl⟩ := ih h
      refine ⟨c.toNat :: points, c :: us, .plain (Nat.le_of_not_lt hc) ?_ ?_ hp, ?_, by simp⟩
      · exact hquote
      · exact hslash
      · rw [chars?_cons (not_isSurrogate_toNat c), hu, Char.ofNat_toNat]
        rfl

theorem readChars_escape {escape rest : List Char} {c : Char}
    (h : readEscape escape = .ok (c, rest)) (taken : List Char) :
    readChars taken ('\\' :: escape) = readChars (c :: taken) rest := by
  rw [readChars]
  split
  · rename_i he
    rw [h] at he
    cases he
  · rename_i he
    rw [h] at he
    cases he
    rfl

theorem readChars_plain {c : Char} (h : 0x20 ≤ c.toNat) (hquote : c ≠ '"') (hslash : c ≠ '\\')
    (taken s : List Char) : readChars taken (c :: s) = readChars (c :: taken) s := by
  rw [readChars.eq_def]
  split
  · rename_i he
    cases he
  · rename_i he
    cases he
    exact absurd rfl hquote
  · rename_i he
    cases he
    exact absurd rfl hslash
  · rename_i he
    cases he
    exact if_neg (Nat.not_lt.2 h)

theorem not_isSurrogate_of_mem_shortEscapes {c : Char} {n : Nat} (h : (c, n) ∈ shortEscapes) :
    ¬ IsSurrogate n ∧ c ≠ 'u' ∧ (Char.ofNat n).toNat = n := by
  have hall : ∀ e ∈ shortEscapes, ¬ (0xd800 ≤ e.2 ∧ e.2 < 0xe000) ∧ e.1 ≠ 'u' ∧
      (Char.ofNat e.2).toNat = e.2 := by decide
  exact hall (c, n) h

theorem readEscape_short {c : Char} {n : Nat} (h : (c, n) ∈ shortEscapes) (s : List Char) :
    readEscape (c :: s) = .ok (Char.ofNat n, s) := by
  obtain ⟨-, hu, hn⟩ := not_isSurrogate_of_mem_shortEscapes h
  have hd : unescape c = some (Char.ofNat n) := unescape_eq_some_iff.2 (by rwa [hn])
  unfold readEscape
  split
  · rename_i he
    cases he
  · rename_i he
    cases he
    exact absurd rfl hu
  · rename_i he
    cases he
    rw [hd]

theorem readEscape_unit {a b c d : Char} {n : Nat} (h : codeUnit a b c d = some n)
    (hn : ¬ IsSurrogate n) (s : List Char) :
    readEscape ('u' :: a :: b :: c :: d :: s) = .ok (Char.ofNat n, s) := by
  have hlow : isLowSurrogate n = false := by
    simp only [isLowSurrogate, Bool.and_eq_false_iff, decide_eq_false_iff_not]
    simp only [IsSurrogate] at hn
    omega
  have hhigh : isHighSurrogate n = false := by
    simp only [isHighSurrogate, Bool.and_eq_false_iff, decide_eq_false_iff_not]
    simp only [IsSurrogate] at hn
    omega
  simp only [readEscape, readCodePoint, readHex_of_codeUnit h, hlow, hhigh, Bool.false_eq_true,
    if_false]

theorem readEscape_pair {a b c d a' b' c' d' : Char} {high low : Nat}
    (h : codeUnit a b c d = some high) (h' : codeUnit a' b' c' d' = some low)
    (hh : isHighSurrogate high) (hl : isLowSurrogate low) (s : List Char) :
    readEscape ('u' :: a :: b :: c :: d :: '\\' :: 'u' :: a' :: b' :: c' :: d' :: s) =
      .ok (pairSurrogates high low, s) := by
  have hlow : isLowSurrogate high = false := by
    simp only [isHighSurrogate, Bool.and_eq_true, decide_eq_true_eq] at hh
    simp only [isLowSurrogate, Bool.and_eq_false_iff, decide_eq_false_iff_not]
    omega
  simp only [readEscape, readCodePoint, readHex_of_codeUnit h, hlow, hh, readLow,
    readHex_of_codeUnit h', hl, Bool.false_eq_true, if_false, if_true]

/-- A lone surrogate can only be written by an escape. -/
theorem Chars.exists_unit {s rest : List Char} {n : Nat} {points : List Nat} (hn : IsSurrogate n)
    (h : Chars s (n :: points) rest) :
    ∃ a b c d s', s = '\\' :: 'u' :: a :: b :: c :: d :: s' ∧ codeUnit a b c d = some n ∧
      Chars s' points rest := by
  cases h with
  | plain => exact absurd hn (not_isSurrogate_toNat _)
  | short he => exact absurd hn (not_isSurrogate_of_mem_shortEscapes he).1
  | unit he hs => exact ⟨_, _, _, _, _, rfl, he, hs⟩

theorem isSurrogate_of_isLowSurrogate {n : Nat} (h : isLowSurrogate n) : IsSurrogate n := by
  simp only [isLowSurrogate, Bool.and_eq_true, decide_eq_true_eq] at h
  exact ⟨by omega, h.2⟩

theorem readChars_complete {s rest us : List Char} {points : List Nat} (h : Chars s points rest)
    (hu : chars? points = some us) (taken : List Char) :
    readChars taken s = .ok (us.reverse ++ taken, rest) := by
  match h with
  | .close =>
      cases hu
      rw [readChars]
      rfl
  | .plain (c := c) hc hquote hslash hs =>
      rw [chars?_cons (not_isSurrogate_toNat c), Option.map_eq_some_iff] at hu
      obtain ⟨vs, hvs, rfl⟩ := hu
      rw [readChars_plain hc hquote hslash, readChars_complete hs hvs]
      simp
  | .short he hs =>
      rw [chars?_cons (not_isSurrogate_of_mem_shortEscapes he).1, Option.map_eq_some_iff] at hu
      obtain ⟨vs, hvs, rfl⟩ := hu
      rw [readChars_escape (readEscape_short he _), readChars_complete hs hvs]
      simp
  | .unit (n := n) he hs =>
      by_cases hn : IsSurrogate n
      · obtain ⟨low, others, vs, hhigh, hlow, rfl, hvs, rfl⟩ := exists_pair_of_chars? hn hu
        obtain ⟨_, _, _, _, s', rfl, he', hs'⟩ :=
          hs.exists_unit (isSurrogate_of_isLowSurrogate hlow)
        rw [readChars_escape (readEscape_pair he he' hhigh hlow s'), readChars_complete hs' hvs]
        simp
      · rw [chars?_cons hn, Option.map_eq_some_iff] at hu
        obtain ⟨vs, hvs, rfl⟩ := hu
        rw [readChars_escape (readEscape_unit he hn _), readChars_complete hs hvs]
        simp
termination_by points.length

theorem readString_eq_ok_iff {s rest : List Char} {text : String} :
    readString s = .ok (text, rest) ↔ ∃ points, Chars s points rest ∧ text? points = some text := by
  constructor
  · intro h
    unfold readString at h
    split at h
    · cases h
    · rename_i hr
      cases h
      obtain ⟨points, us, hp, hu, rfl⟩ := readChars_sound hr
      exact ⟨points, hp, by rw [text?, hu]; simp⟩
  · rintro ⟨points, hp, ht⟩
    rw [text?, Option.map_eq_some_iff] at ht
    obtain ⟨us, hu, rfl⟩ := ht
    simp only [readString, readChars_complete hp hu, List.append_nil, List.reverse_reverse]

theorem skip_escape_sound {escape rest : List Char} (h : Skip.escape escape = .ok rest) :
    ∃ n, ∀ points out, Chars rest points out → Chars ('\\' :: escape) (n :: points) out := by
  unfold Skip.escape at h
  split at h
  · cases h
  · split at h
    · cases h
    · rename_i hr
      cases h
      obtain ⟨_, _, _, _, rfl, hn⟩ := readHex_eq_ok_iff.1 hr
      exact ⟨_, fun _ _ hc => .unit hn hc⟩
  · split at h
    · rename_i hd
      cases h
      obtain ⟨d, hd⟩ := Option.isSome_iff_exists.1 hd
      exact ⟨_, fun _ _ hc => .short (unescape_eq_some_iff.1 hd) hc⟩
    · cases h

theorem skip_string_sound {s rest : List Char} (h : Skip.string s = .ok rest) :
    ∃ points, Chars s points rest := by
  fun_induction Skip.string s with
  | case1 => cases h
  | case2 => cases h; exact ⟨[], .close⟩
  | case3 => cases h
  | case4 escape r he _ ih =>
      obtain ⟨points, hp⟩ := ih h
      obtain ⟨n, hn⟩ := skip_escape_sound he
      exact ⟨n :: points, hn points rest hp⟩
  | case5 => cases h
  | case6 c s hquote hslash hc ih =>
      obtain ⟨points, hp⟩ := ih h
      exact ⟨c.toNat :: points, .plain (Nat.le_of_not_lt hc) hquote hslash hp⟩

theorem skip_string_escape {escape rest : List Char} (h : Skip.escape escape = .ok rest) :
    Skip.string ('\\' :: escape) = Skip.string rest := by
  rw [Skip.string]
  split
  · rename_i he
    rw [h] at he
    cases he
  · rename_i he
    rw [h] at he
    cases he
    rfl

theorem skip_escape_short {c : Char} {n : Nat} (h : (c, n) ∈ shortEscapes) (s : List Char) :
    Skip.escape (c :: s) = .ok s := by
  obtain ⟨-, hu, hn⟩ := not_isSurrogate_of_mem_shortEscapes h
  have hd : unescape c = some (Char.ofNat n) := unescape_eq_some_iff.2 (by rwa [hn])
  unfold Skip.escape
  split
  · rename_i he
    cases he
  · rename_i he
    cases he
    exact absurd rfl hu
  · rename_i he
    cases he
    rw [hd]
    rfl

theorem skip_escape_unit {a b c d : Char} {n : Nat} (h : codeUnit a b c d = some n)
    (s : List Char) : Skip.escape ('u' :: a :: b :: c :: d :: s) = .ok s := by
  simp only [Skip.escape, readHex_of_codeUnit h]

theorem skip_string_complete {s rest : List Char} {points : List Nat} (h : Chars s points rest) :
    Skip.string s = .ok rest := by
  induction h with
  | close => rw [Skip.string]
  | plain hc hquote hslash _ ih =>
      rw [Skip.string.eq_def]
      split
      · rename_i he
        cases he
      · rename_i he
        cases he
        exact absurd rfl hquote
      · rename_i he
        cases he
        exact absurd rfl hslash
      · rename_i he
        cases he
        rw [if_neg (Nat.not_lt.2 hc), ih]
  | short he _ ih => rw [skip_string_escape (skip_escape_short he _), ih]
  | unit he _ ih =>
      rw [skip_string_escape (skip_escape_unit he _), ih]

end PermitTypes.Json.Grammar
