import PermitTypes.Proofs.Json.Grammar

namespace PermitTypes.Json.Grammar

mutual

/-- How many brackets are open at once in a value. -/
def Raw.depth : Raw → Nat
  | .array ts => elementsDepth ts + 1
  | .object ms => membersDepth ms + 1
  | _ => 0

def Raw.elementsDepth : List Raw → Nat
  | [] => 0
  | t :: ts => max t.depth (elementsDepth ts)

def Raw.membersDepth : List (List Nat × Raw) → Nat
  | [] => 0
  | (_, t) :: ms => max t.depth (membersDepth ms)

end

/-- Where a scan of a text stands: outside of strings, in one, or behind a backslash in one. -/
inductive Scan where
  | outside
  | quoted
  | escaped

namespace Scan

def next (scan : Scan) (c : Char) : Scan :=
  match scan with
  | outside => if c = '"' then quoted else outside
  | quoted => if c = '"' then outside else if c = '\\' then escaped else quoted
  | escaped => quoted

def level (scan : Scan) (now : Nat) (c : Char) : Nat :=
  match scan with
  | outside => if c ∈ ['[', '{'] then now + 1 else if c ∈ [']', '}'] then now - 1 else now
  | _ => now

/-- The most brackets that are open at once in a text before which `now` are open. -/
def most (scan : Scan) (now : Nat) : List Char → Nat
  | [] => now
  | c :: s => max now ((scan.next c).most (scan.level now c) s)

theorem le_most (scan : Scan) (now : Nat) (s : List Char) : now ≤ scan.most now s := by
  cases s with
  | nil => exact Nat.le_refl now
  | cons c s => exact Nat.le_max_left _ _

theorem most_cons {scan : Scan} {now : Nat} {c : Char} (h : scan.level now c = now)
    (s : List Char) : scan.most now (c :: s) = (scan.next c).most now s := by
  rw [most, h]
  exact Nat.max_eq_right (le_most _ now s)

end Scan

open Scan

/-- The most brackets that a text has open at once. Those in strings do not count. -/
def openAtOnce (text : String) : Nat := outside.most 0 text.toList

def Plain (c : Char) : Prop := c ∉ ['"', '[', '{', ']', '}']

instance : DecidablePred Plain := fun c => inferInstanceAs (Decidable (c ∉ _))

theorem most_plain {c : Char} (h : Plain c) (now : Nat) (s : List Char) :
    outside.most now (c :: s) = outside.most now s := by
  simp only [Plain, List.mem_cons, List.not_mem_nil, or_false, not_or] at h
  have hlevel : outside.level now c = now := by simp [level, h]
  rw [most_cons hlevel, next, if_neg h.1]

theorem most_append {lexeme : List Char} (h : ∀ c ∈ lexeme, Plain c) (now : Nat)
    (rest : List Char) : outside.most now (lexeme ++ rest) = outside.most now rest := by
  induction lexeme with
  | nil => rfl
  | cons c lexeme ih =>
      rw [List.cons_append, most_plain (h c List.mem_cons_self)]
      exact ih fun c hc => h c (List.mem_cons_of_mem _ hc)

theorem Blanks.most_eq {s rest : List Char} (h : Blanks s rest) (now : Nat) :
    outside.most now s = outside.most now rest := by
  induction h with
  | none => rfl
  | cons hc _ ih =>
      have hplain : ∀ c ∈ [' ', '\t', '\n', '\r'], Plain c := List.all_iff_forall_prop.1 (by decide)
      rw [most_plain (hplain _ hc), ih]

theorem Digits.plain {s : List Char} (h : Digits s) : ∀ c ∈ s, Plain c := by
  intro c hc
  have hplain : ∀ c ∈ digits, Plain c := List.all_iff_forall_prop.1 (by decide)
  exact hplain c (h.2 c hc)

theorem plain_of_mem_sign {sign : List Char} (h : sign ∈ [[], ['+'], ['-']]) :
    ∀ c ∈ sign, Plain c := by
  simp only [List.mem_cons, List.not_mem_nil, or_false] at h
  rcases h with rfl | rfl | rfl
  · exact List.forall_mem_nil _
  · exact List.forall_mem_singleton.2 (by decide)
  · exact List.forall_mem_singleton.2 (by decide)

theorem Number.plain {s : List Char} (h : Number s) : ∀ c ∈ s, Plain c := by
  have hmarks : ∀ c ∈ ['.', 'e', 'E'], Plain c := List.all_iff_forall_prop.1 (by decide)
  obtain ⟨sign, whole, fraction, exponent, hsign, hwhole, hfraction, hexponent, rfl⟩ := h
  intro c hc
  simp only [List.mem_append] at hc
  rcases hc with hc | hc | hc | hc
  · have hsigns : [[], ['-']] ⊆ [[], ['+'], ['-']] := by decide
    exact plain_of_mem_sign (hsigns hsign) c hc
  · rcases hwhole with rfl | ⟨hd, -⟩
    · obtain rfl := List.mem_singleton.1 hc
      decide
    · exact hd.plain c hc
  · rcases hfraction with rfl | ⟨ds, hd, rfl⟩
    · cases hc
    · rcases List.mem_cons.1 hc with rfl | hc
      · exact hmarks _ (by decide)
      · exact hd.plain c hc
  · rcases hexponent with rfl | ⟨e, sign, ds, he, hsign, hd, rfl⟩
    · cases hc
    · rcases List.mem_cons.1 hc with rfl | hc
      · exact hmarks _ (List.mem_cons_of_mem _ he)
      · rcases List.mem_append.1 hc with hc | hc
        · exact plain_of_mem_sign hsign c hc
        · exact hd.plain c hc

theorem most_quoted {c : Char} (hq : c ≠ '"') (hb : c ≠ '\\') (now : Nat) (s : List Char) :
    quoted.most now (c :: s) = quoted.most now s := by
  rw [most_cons rfl, next, if_neg hq, if_neg hb]

theorem most_escape (now : Nat) (c : Char) (s : List Char) :
    quoted.most now ('\\' :: c :: s) = quoted.most now s := by
  rw [most_cons rfl]
  exact most_cons rfl s

theorem not_quote_of_hexit {c : Char} {n : Nat} (h : hexit c = some n) : c ≠ '"' ∧ c ≠ '\\' := by
  constructor
  · rintro rfl
    cases h
  · rintro rfl
    cases h

theorem Chars.most_eq {s rest : List Char} {points : List Nat} (h : Chars s points rest)
    (now : Nat) : quoted.most now s = outside.most now rest := by
  induction h with
  | close => exact most_cons rfl _
  | plain _ hq hb _ ih => rw [most_quoted hq hb, ih]
  | short _ _ ih => rw [most_escape, ih]
  | unit hn _ ih =>
      obtain ⟨a, ha, hn⟩ := Option.bind_eq_some_iff.1 hn
      obtain ⟨b, hb, hn⟩ := Option.bind_eq_some_iff.1 hn
      obtain ⟨c, hc, hn⟩ := Option.bind_eq_some_iff.1 hn
      obtain ⟨d, hd, hn⟩ := Option.bind_eq_some_iff.1 hn
      have hplain : ∀ {c n}, hexit c = some n → ∀ s,
          quoted.most now (c :: s) = quoted.most now s := fun h s =>
        most_quoted (not_quote_of_hexit h).1 (not_quote_of_hexit h).2 now s
      rw [most_escape, hplain ha, hplain hb, hplain hc, hplain hd, ih]

theorem most_open {c : Char} (h : c ∈ ['[', '{']) (now : Nat) (s : List Char) :
    outside.most now (c :: s) = outside.most (now + 1) s := by
  have hquote : ∀ c ∈ ['[', '{'], c ≠ '"' := List.all_iff_forall_prop.1 (by decide)
  rw [most, next, if_neg (hquote c h), level, if_pos h]
  exact Nat.max_eq_right (Nat.le_trans (Nat.le_succ now) (le_most _ _ s))

theorem most_close {c : Char} (h : c ∈ [']', '}']) (now : Nat) (s : List Char) :
    outside.most (now + 1) (c :: s) = max (now + 1) (outside.most now s) := by
  have hother : ∀ c ∈ [']', '}'], c ≠ '"' ∧ c ∉ ['[', '{'] := List.all_iff_forall_prop.1 (by decide)
  rw [most, next, if_neg (hother c h).1, level, if_neg (hother c h).2, if_pos h]
  rfl

theorem most_string {s rest : List Char} {points : List Nat} (h : Chars s points rest)
    (now : Nat) : outside.most now ('"' :: s) = outside.most now rest := by
  rw [← h.most_eq]
  exact most_cons rfl s

mutual

/-- A value opens as many brackets in its text as it has levels. -/
theorem Value.most_eq {s rest : List Char} {t : Raw} (h : Value s t rest) (now : Nat) :
    outside.most now s = max (now + t.depth) (outside.most now rest) := by
  have hscalar : max now (outside.most now rest) = outside.most now rest :=
    Nat.max_eq_right (le_most _ now rest)
  have hword : ∀ word : List Char, (∀ c ∈ word, Plain c) →
      outside.most now (word ++ rest) = max now (outside.most now rest) :=
    fun word h => (most_append h now rest).trans hscalar.symm
  cases h with
  | null => exact hword ['n', 'u', 'l', 'l'] (List.all_iff_forall_prop.1 (by decide))
  | true => exact hword ['t', 'r', 'u', 'e'] (List.all_iff_forall_prop.1 (by decide))
  | false => exact hword ['f', 'a', 'l', 's', 'e'] (List.all_iff_forall_prop.1 (by decide))
  | number hn => exact hword _ hn.plain
  | string hp => exact (most_string hp now).trans hscalar.symm
  | emptyArray hb =>
      rw [most_open (by decide), hb.most_eq, most_close (by decide)]
      rfl
  | array hb ht hts =>
      rw [most_open (by decide), hb.most_eq, ht.most_eq, hts.most_eq, Raw.depth, Raw.elementsDepth]
      omega
  | emptyObject hb =>
      rw [most_open (by decide), hb.most_eq, most_close (by decide)]
      rfl
  | object hb hm hms =>
      rw [most_open (by decide), hb.most_eq, hm.most_eq, hms.most_eq, Raw.depth, Raw.membersDepth]
      omega

theorem MoreElements.most_eq {s rest : List Char} {ts : List Raw} (h : MoreElements s ts rest)
    (now : Nat) : outside.most (now + 1) s =
      max (now + 1 + Raw.elementsDepth ts) (outside.most now rest) := by
  cases h with
  | close hb => rw [hb.most_eq, most_close (by decide), Raw.elementsDepth, Nat.add_zero]
  | next hb hb' ht hts =>
      rw [hb.most_eq, most_plain (by decide), hb'.most_eq, ht.most_eq, hts.most_eq,
        Raw.elementsDepth]
      omega

theorem Member.most_eq {s rest : List Char} {m : List Nat × Raw} (h : Member s m rest)
    (now : Nat) : outside.most now s = max (now + m.2.depth) (outside.most now rest) := by
  cases h with
  | mk hp hb hb' ht =>
      rw [most_string hp, hb.most_eq, most_plain (by decide), hb'.most_eq, ht.most_eq]

theorem MoreMembers.most_eq {s rest : List Char} {ms : List (List Nat × Raw)}
    (h : MoreMembers s ms rest) (now : Nat) : outside.most (now + 1) s =
      max (now + 1 + Raw.membersDepth ms) (outside.most now rest) := by
  cases h with
  | close hb => rw [hb.most_eq, most_close (by decide), Raw.membersDepth, Nat.add_zero]
  | next hb hb' hm hms =>
      rw [hb.most_eq, most_plain (by decide), hb'.most_eq, hm.most_eq, hms.most_eq,
        Raw.membersDepth]
      omega

end

end PermitTypes.Json.Grammar
