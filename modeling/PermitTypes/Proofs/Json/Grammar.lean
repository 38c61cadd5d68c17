import Mathlib.Data.Bool.AllAny
import Mathlib.Tactic.Tauto
import PermitTypes.Json.Text

namespace PermitTypes.Json.Grammar

/-- A JSON value as it is written. A number is kept by its characters, a string and a name by
code points, in which an escape counts by the code unit that it names, paired or not. Members keep
their order and may share a name. -/
inductive Raw where
  | null
  | bool (value : Bool)
  | number (lexeme : List Char)
  | string (points : List Nat)
  | array (elements : List Raw)
  | object (members : List (List Nat × Raw))

/-- Each relation of this grammar goes from a text to the rest that is left of it. -/
inductive Blanks : List Char → List Char → Prop
  | none {s} : Blanks s s
  | cons {c s rest} : c ∈ [' ', '\t', '\n', '\r'] → Blanks s rest → Blanks (c :: s) rest

def digits : List Char := ['0', '1', '2', '3', '4', '5', '6', '7', '8', '9']

def Digits (s : List Char) : Prop := s ≠ [] ∧ ∀ c ∈ s, c ∈ digits

def Whole (s : List Char) : Prop := s = ['0'] ∨ (Digits s ∧ s.head? ≠ some '0')

def Fraction (s : List Char) : Prop := s = [] ∨ ∃ ds, Digits ds ∧ s = '.' :: ds

def Exponent (s : List Char) : Prop :=
  s = [] ∨ ∃ e sign ds, e ∈ ['e', 'E'] ∧ sign ∈ [[], ['+'], ['-']] ∧ Digits ds ∧
    s = e :: (sign ++ ds)

def Number (s : List Char) : Prop :=
  ∃ sign whole fraction exponent, sign ∈ [[], ['-']] ∧ Whole whole ∧ Fraction fraction ∧
    Exponent exponent ∧ s = sign ++ (whole ++ (fraction ++ exponent))

def hexit (c : Char) : Option Nat :=
  ['0', '1', '2', '3', '4', '5', '6', '7', '8', '9', 'a', 'b', 'c', 'd', 'e', 'f'].idxOf? c.toLower

def codeUnit (a b c d : Char) : Option Nat := do
  return 0x1000 * (← hexit a) + 0x100 * (← hexit b) + 0x10 * (← hexit c) + (← hexit d)

def shortEscapes : List (Char × Nat) :=
  [('"', 0x22), ('\\', 0x5c), ('/', 0x2f), ('b', 0x08), ('f', 0x0c), ('n', 0x0a), ('r', 0x0d),
   ('t', 0x09)]

/-- The characters of a string with its closing quote. -/
inductive Chars : List Char → List Nat → List Char → Prop
  | close {rest} : Chars ('"' :: rest) [] rest
  | plain {c s points rest} : 0x20 ≤ c.toNat → c ≠ '"' → c ≠ '\\' → Chars s points rest →
      Chars (c :: s) (c.toNat :: points) rest
  | short {c n s points rest} : (c, n) ∈ shortEscapes → Chars s points rest →
      Chars ('\\' :: c :: s) (n :: points) rest
  | unit {a b c d n s points rest} : codeUnit a b c d = some n → Chars s points rest →
      Chars ('\\' :: 'u' :: a :: b :: c :: d :: s) (n :: points) rest

mutual

inductive Value : List Char → Raw → List Char → Prop
  | null {rest} : Value ('n' :: 'u' :: 'l' :: 'l' :: rest) .null rest
  | true {rest} : Value ('t' :: 'r' :: 'u' :: 'e' :: rest) (.bool .true) rest
  | false {rest} : Value ('f' :: 'a' :: 'l' :: 's' :: 'e' :: rest) (.bool .false) rest
  | number {lexeme rest} : Number lexeme → Value (lexeme ++ rest) (.number lexeme) rest
  | string {s points rest} : Chars s points rest → Value ('"' :: s) (.string points) rest
  | emptyArray {s rest} : Blanks s (']' :: rest) → Value ('[' :: s) (.array []) rest
  | array {s v t r ts rest} : Blanks s v → Value v t r → MoreElements r ts rest →
      Value ('[' :: s) (.array (t :: ts)) rest
  | emptyObject {s rest} : Blanks s ('}' :: rest) → Value ('{' :: s) (.object []) rest
  | object {s v m r ms rest} : Blanks s v → Member v m r → MoreMembers r ms rest →
      Value ('{' :: s) (.object (m :: ms)) rest

inductive MoreElements : List Char → List Raw → List Char → Prop
  | close {s rest} : Blanks s (']' :: rest) → MoreElements s [] rest
  | next {s s' v t r ts rest} : Blanks s (',' :: s') → Blanks s' v → Value v t r →
      MoreElements r ts rest → MoreElements s (t :: ts) rest

inductive Member : List Char → List Nat × Raw → List Char → Prop
  | mk {s name s' s'' v t rest} : Chars s name s' → Blanks s' (':' :: s'') → Blanks s'' v →
      Value v t rest → Member ('"' :: s) (name, t) rest

inductive MoreMembers : List Char → List (List Nat × Raw) → List Char → Prop
  | close {s rest} : Blanks s ('}' :: rest) → MoreMembers s [] rest
  | next {s s' v m r ms rest} : Blanks s (',' :: s') → Blanks s' v → Member v m r →
      MoreMembers r ms rest → MoreMembers s (m :: ms) rest

end

/-- A text that is one value with blanks around it. -/
def Text (s : List Char) (t : Raw) : Prop := ∃ v r, Blanks s v ∧ Value v t r ∧ Blanks r []

/-- The characters that code points stand for, in which surrogates come in pairs only. -/
def chars? : List Nat → Option (List Char)
  | [] => some []
  | n :: points =>
    if n < 0xd800 ∨ 0xe000 ≤ n then (chars? points).map (Char.ofNat n :: ·)
    else
      match points with
      | m :: points =>
        if n < 0xdc00 ∧ 0xdc00 ≤ m ∧ m < 0xe000 then
          (chars? points).map (Char.ofNat (0x10000 + 0x400 * (n - 0xd800) + (m - 0xdc00)) :: ·)
        else none
      | [] => none

def text? (points : List Nat) : Option String := (chars? points).map String.ofList

/-- What may follow a number, lest it go on. -/
def Delimited (s : List Char) : Prop := ∀ c ∈ s.head?, c ∉ digits ∧ c ∉ ['.', 'e', 'E']

theorem isSpace_iff (c : Char) : isSpace c ↔ c ∈ [' ', '\t', '\n', '\r'] := by
  simp only [isSpace, Bool.or_eq_true, beq_iff_eq, List.mem_cons, List.not_mem_nil, or_false]
  tauto

theorem Blanks.skipSpace_eq {s rest : List Char} (h : Blanks s rest) :
    skipSpace s = skipSpace rest := by
  induction h with
  | none => rfl
  | cons hc _ ih => rw [← ih, skipSpace, List.dropWhile_cons_of_pos ((isSpace_iff _).2 hc)]; rfl

theorem blanks_skipSpace (s : List Char) : Blanks s (skipSpace s) := by
  induction s with
  | nil => exact .none
  | cons c s ih =>
      by_cases hc : isSpace c
      · rw [skipSpace, List.dropWhile_cons_of_pos hc]
        exact .cons ((isSpace_iff c).1 hc) ih
      · rw [skipSpace, List.dropWhile_cons_of_neg hc]
        exact .none

theorem skipSpace_cons {c : Char} (h : c ∉ [' ', '\t', '\n', '\r']) (s : List Char) :
    skipSpace (c :: s) = c :: s :=
  List.dropWhile_cons_of_neg (mt (isSpace_iff c).1 h)

theorem Blanks.skipSpace_eq_cons {c : Char} {s rest : List Char} (h : Blanks s (c :: rest))
    (hc : c ∉ [' ', '\t', '\n', '\r']) : skipSpace s = c :: rest := by
  rw [h.skipSpace_eq, skipSpace_cons hc]

theorem blanks_of_skipSpace {s rest : List Char} (h : skipSpace s = rest) : Blanks s rest :=
  h ▸ blanks_skipSpace s

theorem skipSpace_of_blanks_nil {s : List Char} (h : Blanks s []) : skipSpace s = [] :=
  h.skipSpace_eq

theorem Digits.head {s : List Char} (h : Digits s) : ∃ c rest, s = c :: rest ∧ c ∈ digits := by
  obtain ⟨hne, hs⟩ := h
  cases s with
  | nil => exact absurd rfl hne
  | cons c rest => exact ⟨c, rest, rfl, hs c List.mem_cons_self⟩

theorem Whole.head {s : List Char} (h : Whole s) : ∃ c rest, s = c :: rest ∧ c ∈ digits := by
  rcases h with rfl | ⟨hd, -⟩
  · exact ⟨'0', [], rfl, by decide⟩
  · exact hd.head

theorem Number.head {s : List Char} (h : Number s) :
    ∃ c rest, s = c :: rest ∧ c ∈ '-' :: digits := by
  obtain ⟨sign, whole, fraction, exponent, hs, hw, -, -, rfl⟩ := h
  obtain ⟨c, rest, rfl, hc⟩ := hw.head
  simp only [List.mem_cons, List.not_mem_nil, or_false] at hs
  rcases hs with rfl | rfl
  · exact ⟨c, _, rfl, List.mem_cons_of_mem _ hc⟩
  · exact ⟨'-', _, rfl, List.mem_cons_self⟩

theorem Number.mem_of_cons_eq {c : Char} {s lexeme rest : List Char} (h : Number lexeme)
    (hs : c :: s = lexeme ++ rest) : c ∈ '-' :: digits := by
  obtain ⟨d, ds, rfl, hd⟩ := h.head
  obtain ⟨rfl, -⟩ := List.cons.inj hs
  exact hd

/-- The characters with which a value can begin. -/
def starts : List Char := ['n', 't', 'f', '"', '[', '{', '-'] ++ digits

theorem Value.head {v rest : List Char} {t : Raw} (h : Value v t rest) :
    ∃ c s, v = c :: s ∧ c ∈ starts := by
  cases h with
  | number hn =>
      obtain ⟨c, s, rfl, hc⟩ := hn.head
      refine ⟨c, s ++ rest, rfl, ?_⟩
      simp only [starts, List.mem_append, List.mem_cons] at hc ⊢
      tauto
  | _ => exact ⟨_, _, rfl, by decide⟩

theorem Value.skipSpace_eq {v rest : List Char} {t : Raw} (h : Value v t rest) :
    skipSpace v = v := by
  obtain ⟨c, s, rfl, hc⟩ := h.head
  have hne : ∀ c ∈ starts, c ∉ [' ', '\t', '\n', '\r'] := List.all_iff_forall_prop.1 (by decide)
  exact skipSpace_cons (hne c hc) s

theorem value_of_blanks {s v rest : List Char} {t : Raw} (hb : Blanks s v) (h : Value v t rest) :
    Value (skipSpace s) t rest := by
  rwa [hb.skipSpace_eq, h.skipSpace_eq]

theorem text_iff {s : List Char} {t : Raw} :
    Text s t ↔ ∃ r, Value (skipSpace s) t r ∧ skipSpace r = [] := by
  constructor
  · rintro ⟨v, r, hv, h, hr⟩
    exact ⟨r, value_of_blanks hv h, skipSpace_of_blanks_nil hr⟩
  · rintro ⟨r, h, hr⟩
    exact ⟨_, r, blanks_skipSpace s, h, blanks_of_skipSpace hr⟩

theorem delimited_of_skipSpace {s : List Char}
    (h : ∀ c ∈ (skipSpace s).head?, c ∉ digits ∧ c ∉ ['.', 'e', 'E']) : Delimited s := by
  intro c hc
  by_cases hs : isSpace c
  · have hblank : ∀ c ∈ [' ', '\t', '\n', '\r'], c ∉ digits ∧ c ∉ ['.', 'e', 'E'] :=
      List.all_iff_forall_prop.1 (by decide)
    exact hblank c ((isSpace_iff c).1 hs)
  · cases s with
    | nil => cases hc
    | cons d s =>
        obtain rfl := Option.some.inj hc
        exact h d (by rw [skipSpace, List.dropWhile_cons_of_neg hs]; rfl)

theorem Blanks.delimited {c : Char} {s rest : List Char} (h : Blanks s (c :: rest))
    (hc : c ∈ [',', ']', '}']) : Delimited s := by
  have hne : ∀ c ∈ [',', ']', '}'], c ∉ [' ', '\t', '\n', '\r'] ∧ c ∉ digits ∧
      c ∉ ['.', 'e', 'E'] := List.all_iff_forall_prop.1 (by decide)
  refine delimited_of_skipSpace ?_
  rw [h.skipSpace_eq_cons (hne c hc).1]
  intro d hd
  obtain rfl := Option.some.inj hd
  exact (hne c hc).2

theorem MoreElements.delimited {s rest : List Char} {ts : List Raw}
    (h : MoreElements s ts rest) : Delimited s := by
  cases h with
  | close hb => exact hb.delimited (by decide)
  | next hb => exact hb.delimited (by decide)

theorem MoreMembers.delimited {s rest : List Char} {ms : List (List Nat × Raw)}
    (h : MoreMembers s ms rest) : Delimited s := by
  cases h with
  | close hb => exact hb.delimited (by decide)
  | next hb => exact hb.delimited (by decide)

end PermitTypes.Json.Grammar
