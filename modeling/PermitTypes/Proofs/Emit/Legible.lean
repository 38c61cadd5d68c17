import PermitTypes.Proofs.Emit.Tokens
import PermitTypes.Proofs.Schema.Containers

namespace PermitTypes.Emit

open Schema

/-- A name of word characters and separators whose first word, if it has one, begins with a
letter. -/
structure Nameable (name : String) : Prop where
  characters : ∀ c ∈ name.toList, isWordPart c ∨ isSeparator c
  first : ∀ c ∈ (name.toList.dropWhile isSeparator).head?, isLetter c

mutual

/-- Those nested fields that have lines are named by identifiers. -/
def IdentifiersInside : Property → Prop
  | ⟨.object, _, _, some fields⟩ => Identifiers fields
  | _ => True

def Identifiers : List (String × Property) → Prop
  | [] => True
  | (name, p) :: rest => isIdentifier name ∧ IdentifiersInside p ∧ Identifiers rest

end

structure Legible (document : Document) : Prop where
  permits : ∀ e ∈ document.permits, Nameable e.1
  extensions : ∀ e ∈ document.permits, ∀ schema ∈ e.2.extended, Nameable schema
  fields : ∀ e ∈ document.permits, ∀ fields ∈ e.2.containers, Identifiers fields

theorem lt_of_isWordPart {c : Char} (h : isWordPart c) : c.toNat < 128 := by
  simp only [isWordPart, isWordStart, isLetter, Bool.or_eq_true, Bool.and_eq_true,
    decide_eq_true_eq, beq_iff_eq, Char.le_def, UInt32.le_iff_toNat_le] at h
  change c.val.toNat < 128
  rcases h with (((h | h) | rfl) | rfl) | h
  · exact Nat.lt_of_le_of_lt h.2 (by decide)
  · exact Nat.lt_of_le_of_lt h.2 (by decide)
  · decide
  · decide
  · exact Nat.lt_of_le_of_lt h.2 (by decide)

/-- Of the tables of upper-case forms, ASCII needs the first line only. -/
theorem upper_of_lt {c : Char} (h : c.toNat < 128) :
    Text.upper c = [if 'a' ≤ c ∧ c ≤ 'z' then Char.ofNat (c.toNat - 32) else c] := by
  have hkeys : ∀ e ∈ Text.upperExpansions, 128 ≤ e.1.toNat := by decide +kernel
  have hruns : ∀ r ∈ Text.upperRuns.tail, 128 ≤ r.first := by decide +kernel
  have hlookup : Text.upperExpansions.lookup c = none := by
    refine List.lookup_eq_none_iff.2 fun e he => bne_iff_ne.2 ?_
    rintro rfl
    exact absurd h (Nat.not_lt.2 (hkeys e he))
  have htail : Text.upperRuns.tail.find? (·.covers c.toNat) = none := by
    refine List.find?_eq_none.2 fun r hr hcovers => ?_
    simp only [Text.UpperRun.covers, Bool.and_eq_true, decide_eq_true_eq] at hcovers
    exact absurd (Nat.lt_of_le_of_lt hcovers.1.1 h) (Nat.not_lt.2 (hruns r hr))
  have hcovers : Text.UpperRun.covers ⟨0x61, 0x7a, 1, -32⟩ c.toNat =
      decide ('a' ≤ c ∧ c ≤ 'z') := by
    simp only [Text.UpperRun.covers, Nat.mod_one, beq_self_eq_true, Bool.and_true, Char.le_def,
      UInt32.le_iff_toNat_le, ← Bool.decide_and]
    rfl
  have hfind : Text.upperRuns.find? (·.covers c.toNat) =
      if 'a' ≤ c ∧ c ≤ 'z' then some ⟨0x61, 0x7a, 1, -32⟩ else none := by
    change List.find? _ (_ :: Text.upperRuns.tail) = _
    rw [List.find?_cons, htail, hcovers]
    by_cases hlower : 'a' ≤ c ∧ c ≤ 'z'
    · rw [if_pos hlower, decide_eq_true hlower]
    · rw [if_neg hlower, decide_eq_false hlower]
  rw [Text.upper, hlookup, hfind]
  by_cases hlower : 'a' ≤ c ∧ c ≤ 'z'
  · rw [if_pos hlower, if_pos hlower]
    have hshift : ((c.toNat : Int) + -32).toNat = c.toNat - 32 := by omega
    exact congrArg (fun n => [Char.ofNat n]) hshift
  · rw [if_neg hlower, if_neg hlower]

theorem upper_of_isWordPart {c : Char} (h : isWordPart c) :
    ∃ d, Text.upper c = [d] ∧ isWordPart d ∧ (isLetter c → isLetter d) := by
  have hc : c.toNat < 128 := lt_of_isWordPart h
  refine ⟨_, upper_of_lt hc, ?_⟩
  split
  · rename_i hlower
    have hall : ∀ n < 128, 'a' ≤ Char.ofNat n → Char.ofNat n ≤ 'z' →
        isLetter (Char.ofNat (n - 32)) := by
      decide +kernel
    have hupper : isLetter (Char.ofNat (c.toNat - 32)) := by
      refine hall c.toNat hc ?_ ?_
      · rw [Char.ofNat_toNat]; exact hlower.1
      · rw [Char.ofNat_toNat]; exact hlower.2
    refine ⟨?_, fun _ => hupper⟩
    simp only [isWordPart, isWordStart, hupper, Bool.true_or]
  · exact ⟨h, id⟩

theorem isWordPart_of_mem_joinWords {cs : List Char} (h : ∀ c ∈ cs, isWordPart c ∨ isSeparator c)
    (fresh : Bool) : ∀ d ∈ joinWords fresh cs, isWordPart d := by
  induction cs generalizing fresh with
  | nil => exact fun d hd => (nomatch hd)
  | cons c cs ih =>
      obtain ⟨hc, hcs⟩ := List.forall_mem_cons.1 h
      rw [joinWords]
      split
      · exact ih hcs true
      · rename_i hsep
        have hpart : isWordPart c := hc.resolve_right hsep
        split
        · obtain ⟨d, hd, hdpart, -⟩ := upper_of_isWordPart hpart
          rw [hd]
          exact List.forall_mem_cons.2 ⟨hdpart, ih hcs false⟩
        · exact List.forall_mem_cons.2 ⟨hpart, ih hcs false⟩

theorem joinWords_head {cs : List Char} (h : ∀ c ∈ cs, isWordPart c ∨ isSeparator c)
    (hfirst : ∀ c ∈ (cs.dropWhile isSeparator).head?, isLetter c) :
    ∀ d ∈ (joinWords true cs).head?, isLetter d := by
  induction cs with
  | nil => exact fun d hd => (nomatch hd)
  | cons c cs ih =>
      obtain ⟨hc, hcs⟩ := List.forall_mem_cons.1 h
      rw [List.dropWhile_cons] at hfirst
      rw [joinWords]
      split
      · rename_i hsep
        rw [if_pos hsep] at hfirst
        exact ih hcs hfirst
      · rename_i hsep
        rw [if_neg hsep] at hfirst
        obtain ⟨d, hd, -, hletter⟩ := upper_of_isWordPart (hc.resolve_right hsep)
        rw [if_pos rfl, hd]
        intro d' hd'
        obtain rfl := Option.some.inj hd'
        exact hletter (hfirst c rfl)

theorem isIdentifier_pascalCase_append {name suffix : String} (h : Nameable name)
    (hsuffix : isIdentifier suffix) : isIdentifier (pascalCase name ++ suffix) := by
  have hparts := isWordPart_of_mem_joinWords h.characters true
  have hhead := joinWords_head h.characters h.first
  obtain ⟨hne, hstart, hsuffixParts⟩ := isIdentifier_iff.1 hsuffix
  rw [isIdentifier_iff, pascalCase, String.toList_append, String.toList_ofList]
  refine ⟨List.append_ne_nil_of_right_ne_nil _ hne, ?_, ?_⟩
  · rw [List.head?_append]
    cases hj : (joinWords true name.toList).head? with
    | none => exact hstart
    | some d =>
        rw [hj] at hhead
        intro d' hd'
        obtain rfl := Option.some.inj hd'
        simp only [isWordStart, hhead d rfl, Bool.true_or]
  · exact List.forall_mem_append.2 ⟨hparts, hsuffixParts⟩

end PermitTypes.Emit
