import Mathlib.Data.Bool.AllAny
import PermitTypes.Emit.Declaration

namespace PermitTypes.Emit

def isLetter (c : Char) : Bool := ('a' ≤ c && c ≤ 'z') || ('A' ≤ c && c ≤ 'Z')

def isWordStart (c : Char) : Bool := isLetter c || c == '_' || c == '$'

def isWordPart (c : Char) : Bool := isWordStart c || ('0' ≤ c && c ≤ '9')

def isIdentifier (name : String) : Bool :=
  match name.toList with
  | [] => false
  | c :: cs => isWordStart c && cs.all isWordPart

theorem isIdentifier_iff {name : String} :
    isIdentifier name ↔ name.toList ≠ [] ∧ (∀ c ∈ name.toList.head?, isWordStart c) ∧
      ∀ c ∈ name.toList, isWordPart c := by
  unfold isIdentifier
  cases name.toList with
  | nil => exact ⟨fun h => (nomatch h), fun h => absurd rfl h.1⟩
  | cons c cs =>
      simp only [Bool.and_eq_true, List.all_eq_true]
      constructor
      · rintro ⟨hstart, hparts⟩
        refine ⟨List.cons_ne_nil c cs, ?_, List.forall_mem_cons.2 ⟨?_, hparts⟩⟩
        · intro d hd
          obtain rfl := Option.some.inj hd
          exact hstart
        · simp only [isWordPart, hstart, Bool.true_or]
      · rintro ⟨-, hstart, hparts⟩
        exact ⟨hstart c rfl, fun d hd => hparts d (List.mem_cons_of_mem c hd)⟩

inductive Token where
  | word (name : String)
  | mark (c : Char)
  deriving DecidableEq

namespace Token

def marks : List Char := ['{', '}', ':', '?', '|', '<', '>', '=']

def join (a b : Option (List Token)) : Option (List Token) :=
  a.bind fun ts => b.map (ts ++ ·)

def ended (taken : List Char) : Option (List Token) :=
  match taken with
  | [] => some []
  | c :: _ => if isWordStart c then some [word (String.ofList taken)] else none

def between (c : Char) : Option (List Token) :=
  if Text.isBlank c then some [] else if c ∈ marks then some [mark c] else none

/-- The words and marks of a text, all blanks dropped. Of a word at its beginning, `taken` has been
read already. -/
def read (taken : List Char) : List Char → Option (List Token)
  | [] => ended taken
  | c :: s =>
    if isWordPart c then read (taken ++ [c]) s
    else join (join (ended taken) (between c)) (read [] s)

theorem join_nil_left (a : Option (List Token)) : join (some []) a = a := by
  cases a <;> rfl

theorem join_nil_right (a : Option (List Token)) : join a (some []) = a := by
  cases a with
  | none => rfl
  | some ts => exact congrArg some (List.append_nil ts)

theorem join_assoc (a b c : Option (List Token)) : join (join a b) c = join a (join b c) := by
  cases a with
  | none => rfl
  | some as =>
      cases b with
      | none => rfl
      | some bs =>
          cases c with
          | none => rfl
          | some cs => exact congrArg some (List.append_assoc as bs cs)

theorem read_append {c : Char} (h : isWordPart c = false) (taken a b : List Char) :
    read taken (a ++ c :: b) = join (read taken a) (read [] (c :: b)) := by
  induction a generalizing taken with
  | nil =>
      have hc : ∀ taken, read taken (c :: b) = join (join (ended taken) (between c)) (read [] b) :=
        fun _ => by rw [read, h]; rfl
      rw [List.nil_append, hc, hc, join_assoc, join_assoc, ended, join_nil_left]
      rfl
  | cons d a ih =>
      rw [List.cons_append, read, read]
      by_cases hd : isWordPart d
      · rw [if_pos hd, if_pos hd, ih]
      · rw [if_neg hd, if_neg hd, ih]
        simp only [join_assoc]

theorem read_blank {c : Char} (hblank : Text.isBlank c) (hpart : isWordPart c = false)
    (s : List Char) : read [] (c :: s) = read [] s := by
  rw [read, hpart, if_neg Bool.false_ne_true, between, if_pos hblank]
  exact join_nil_left _

theorem read_space (s : List Char) : read [] (' ' :: s) = read [] s :=
  read_blank (by decide) (by decide) s

theorem read_mark {c : Char} {s : List Char} {ts : List Token} (hc : c ∈ marks)
    (h : read [] s = some ts) : read [] (c :: s) = some (mark c :: ts) := by
  have hmarks : ∀ c ∈ marks, isWordPart c = false ∧ Text.isBlank c = false :=
    List.all_iff_forall_prop.1 (by decide)
  obtain ⟨hpart, hblank⟩ := hmarks c hc
  rw [read, hpart, if_neg Bool.false_ne_true, between, hblank, if_neg Bool.false_ne_true,
    if_pos hc, h]
  rfl

theorem read_parts {s : List Char} (h : ∀ c ∈ s, isWordPart c) (taken : List Char) :
    read taken s = ended (taken ++ s) := by
  induction s generalizing taken with
  | nil => rw [List.append_nil]; rfl
  | cons c s ih =>
      rw [read, if_pos (h c List.mem_cons_self), ih fun d hd => h d (List.mem_cons_of_mem c hd),
        List.append_assoc]
      rfl

theorem read_identifier {name : String} (h : isIdentifier name) :
    read [] name.toList = some [word name] := by
  obtain ⟨hne, hstart, hparts⟩ := isIdentifier_iff.1 h
  rw [read_parts hparts, List.nil_append]
  cases hname : name.toList with
  | nil => exact absurd hname hne
  | cons c cs =>
      rw [hname] at hstart
      rw [ended, if_pos (hstart c rfl), ← hname, String.ofList_toList]

theorem read_word_cons {name : String} {c : Char} {s : List Char} {ts : List Token}
    (hname : isIdentifier name) (hc : isWordPart c = false) (h : read [] (c :: s) = some ts) :
    read [] (name.toList ++ c :: s) = some (word name :: ts) := by
  rw [read_append hc, read_identifier hname, h]
  rfl

theorem isIdentifier_of_mem_ended {taken : List Char} {ts : List Token} {name : String}
    (htaken : ∀ c ∈ taken, isWordPart c) (h : ended taken = some ts) (hmem : word name ∈ ts) :
    isIdentifier name := by
  cases taken with
  | nil => cases h; cases hmem
  | cons c cs =>
      rw [ended] at h
      split at h
      · rename_i hstart
        cases h
        obtain rfl := Token.word.inj (List.mem_singleton.1 hmem)
        rw [isIdentifier_iff, String.toList_ofList]
        refine ⟨List.cons_ne_nil c cs, fun d hd => ?_, htaken⟩
        obtain rfl := Option.some.inj hd
        exact hstart
      · cases h

theorem join_eq_some {a b : Option (List Token)} {ts : List Token} (h : join a b = some ts) :
    ∃ us vs, a = some us ∧ b = some vs ∧ ts = us ++ vs := by
  obtain ⟨us, hus, hb⟩ := Option.bind_eq_some_iff.1 h
  obtain ⟨vs, hvs, rfl⟩ := Option.map_eq_some_iff.1 hb
  exact ⟨us, vs, hus, hvs, rfl⟩

theorem not_mem_between {c : Char} {ts : List Token} (h : between c = some ts) (name : String) :
    word name ∉ ts := by
  unfold between at h
  split at h
  · cases h
    exact List.not_mem_nil
  · split at h
    · cases h
      exact fun hmem => Token.noConfusion (List.mem_singleton.1 hmem)
    · cases h

theorem isIdentifier_of_mem_read {taken s : List Char} {ts : List Token} {name : String}
    (htaken : ∀ c ∈ taken, isWordPart c) (h : read taken s = some ts) (hmem : word name ∈ ts) :
    isIdentifier name := by
  induction s generalizing taken ts with
  | nil => exact isIdentifier_of_mem_ended htaken h hmem
  | cons c s ih =>
      rw [read] at h
      split at h
      · rename_i hc
        refine ih ?_ h hmem
        exact List.forall_mem_append.2 ⟨htaken, List.forall_mem_singleton.2 hc⟩
      · obtain ⟨us, vs, hjoin, hrest, rfl⟩ := join_eq_some h
        obtain ⟨before, between, hbefore, hbetween, rfl⟩ := join_eq_some hjoin
        rcases List.mem_append.1 hmem with hmem | hmem
        · rcases List.mem_append.1 hmem with hmem | hmem
          · exact isIdentifier_of_mem_ended htaken hbefore hmem
          · exact absurd hmem (not_mem_between hbetween name)
        · exact ih (List.forall_mem_nil _) hrest hmem

end Token

open Token

/-- The tokens of lines, one line after the other. -/
def readLines : List String → Option (List Token)
  | [] => some []
  | line :: lines => join (read [] line.toList) (readLines lines)

theorem readLines_append (a b : List String) :
    readLines (a ++ b) = join (readLines a) (readLines b) := by
  induction a with
  | nil => exact (join_nil_left _).symm
  | cons line a ih => rw [List.cons_append, readLines, readLines, ih, join_assoc]

theorem readLines_singleton (line : String) : readLines [line] = read [] line.toList :=
  join_nil_right _

theorem readLines_indent (lines : List String) : readLines (indent lines) = readLines lines := by
  induction lines with
  | nil => rfl
  | cons line lines ih =>
      have hline : read [] ("  " ++ line).toList = read [] line.toList := by
        rw [String.toList_append]
        exact (read_space _).trans (read_space _)
      change join (read [] ("  " ++ line).toList) (readLines (indent lines)) = _
      rw [hline, ih]
      rfl

/-- What stands between parts of a text and is read as nothing. -/
def Gap (s : List Char) : Prop := s ≠ [] ∧ ∀ c ∈ s, Text.isBlank c ∧ isWordPart c = false

theorem gap_of_all {s : List Char} (hne : s ≠ [])
    (hall : s.all fun c => Text.isBlank c ∧ isWordPart c = false) : Gap s :=
  ⟨hne, List.all_iff_forall_prop.1 hall⟩

theorem read_gap {gap : List Char} (h : ∀ c ∈ gap, Text.isBlank c ∧ isWordPart c = false)
    (s : List Char) : read [] (gap ++ s) = read [] s := by
  induction gap with
  | nil => rfl
  | cons c gap ih =>
      obtain ⟨hblank, hpart⟩ := h c List.mem_cons_self
      rw [List.cons_append, read_blank hblank hpart]
      exact ih fun d hd => h d (List.mem_cons_of_mem c hd)

theorem read_append_gap {gap : List Char} (h : Gap gap) (a b : List Char) :
    read [] (a ++ (gap ++ b)) = join (read [] a) (read [] b) := by
  obtain ⟨hne, hgap⟩ := h
  cases gap with
  | nil => exact absurd rfl hne
  | cons c gap => rw [List.cons_append, read_append (hgap c List.mem_cons_self).2,
      ← List.cons_append, read_gap hgap]

theorem read_intercalate {gap : String} (h : Gap gap.toList) (parts : List String) :
    read [] (gap.intercalate parts).toList = readLines parts := by
  induction parts with
  | nil => rw [String.intercalate_nil]; rfl
  | cons part parts ih =>
      cases parts with
      | nil => rw [String.intercalate_singleton, readLines_singleton]
      | cons next parts =>
          rw [String.intercalate_cons_cons, readLines, ← ih, String.toList_append,
            String.toList_append, List.append_assoc, read_append_gap h]

theorem read_joinLines (lines : List String) : read [] (joinLines lines).toList = readLines lines :=
  read_intercalate (gap_of_all (by decide) (by decide)) lines

theorem read_joinBlocks (blocks : List String) :
    read [] (joinBlocks blocks).toList = readLines blocks := by
  cases blocks with
  | nil => rfl
  | cons block blocks =>
      have hgap : Gap ['\n'] := gap_of_all (by decide) (by decide)
      have hend := read_append_gap hgap ("\n\n".intercalate (block :: blocks)).toList []
      rw [joinBlocks, String.toList_append]
      · exact (hend.trans (join_nil_right _)).trans
          (read_intercalate (gap_of_all (by decide) (by decide)) (block :: blocks))
      · exact List.cons_ne_nil block blocks

end PermitTypes.Emit
