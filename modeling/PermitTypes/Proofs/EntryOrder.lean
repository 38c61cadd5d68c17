import Mathlib.Data.List.Forall2
import Mathlib.Data.List.Perm.Basic
import Mathlib.Data.List.Perm.Subperm
import PermitTypes.Proofs.Entries

namespace PermitTypes

theorem option_rel_congr {α β : Type} {R S : α → β → Prop} {a : Option α} {b : Option β}
    (h : ∀ x ∈ a, ∀ y, R x y ↔ S x y) : Option.Rel R a b ↔ Option.Rel S a b := by
  constructor
  · intro hr
    cases hr with
    | none => exact .none
    | some hr => exact .some ((h _ rfl _).1 hr)
  · intro hs
    cases hs with
    | none => exact .none
    | some hs => exact .some ((h _ rfl _).2 hs)

theorem option_rel_eq_iff {α β : Type} {f : α → β} {a b : Option α} :
    Option.Rel (fun x y => f x = f y) a b ↔ a.map f = b.map f := by
  constructor
  · intro h
    cases h with
    | none => rfl
    | some h => exact congrArg some h
  · intro h
    cases a <;> cases b
    · exact .none
    · cases h
    · cases h
    · exact .some (Option.some.inj h)

theorem forall₂_congr_of_mem {α β : Type} {R S : α → β → Prop} {as : List α} {bs : List β}
    (h : ∀ a ∈ as, ∀ b, R a b ↔ S a b) : List.Forall₂ R as bs ↔ List.Forall₂ S as bs := by
  constructor
  · exact fun hr => ((List.forall₂_and_left _ _).2 ⟨h, hr⟩).imp fun _ b hab => (hab.1 b).1 hab.2
  · exact fun hs => ((List.forall₂_and_left _ _).2 ⟨h, hs⟩).imp fun _ b hab => (hab.1 b).2 hab.2

theorem eq_of_option_rel {α : Type} {a b : Option α} (h : Option.Rel Eq a b) : a = b := by
  cases h with
  | none => rfl
  | some h => exact congrArg some h

theorem option_rel_none_iff {α β : Type} {R : α → β → Prop} {a : Option α} {b : Option β}
    (h : Option.Rel R a b) : a = none ↔ b = none := by
  cases h <;> simp

namespace Entries

variable {κ α : Type} {R : α → α → Prop} {left right : List (κ × α)}

/-- Entries of one name whose values are related. -/
inductive Related (R : α → α → Prop) : κ × α → κ × α → Prop
  | entry (name : κ) {a b : α} (h : R a b) : Related R (name, a) (name, b)

theorem related_iff {e f : κ × α} : Related R e f ↔ e.1 = f.1 ∧ R e.2 f.2 := by
  obtain ⟨name, a⟩ := e
  obtain ⟨name', b⟩ := f
  constructor
  · rintro ⟨_, h⟩
    exact ⟨rfl, h⟩
  · rintro ⟨rfl, h⟩
    exact .entry _ h

/-- One related entry for each, and these put in another order. -/
def Rearranged (R : α → α → Prop) (left right : List (κ × α)) : Prop :=
  ∃ middle, List.Forall₂ (Related R) left middle ∧ middle.Perm right

theorem names_eq_of_forall₂ {middle : List (κ × α)}
    (h : List.Forall₂ (Related R) left middle) :
    names middle = names left := by
  induction h with
  | nil => rfl
  | cons he _ ih =>
      obtain ⟨name, -⟩ := he
      rw [names_cons, names_cons, ih]

theorem Rearranged.names_perm (h : Rearranged R left right) : (names left).Perm (names right) := by
  obtain ⟨middle, hmiddle, hperm⟩ := h
  rw [← names_eq_of_forall₂ hmiddle]
  exact hperm.map _

theorem Rearranged.imp {S : α → α → Prop} (h : Rearranged R left right)
    (himp : ∀ e ∈ left, ∀ b, R e.2 b → S e.2 b) : Rearranged S left right := by
  obtain ⟨middle, hmiddle, hperm⟩ := h
  refine ⟨middle, ?_, hperm⟩
  clear hperm
  induction hmiddle with
  | nil => exact .nil
  | cons he _ ih =>
      obtain ⟨name, hr⟩ := he
      exact .cons (.entry name (himp _ List.mem_cons_self _ hr))
        (ih fun e he => himp e (List.mem_cons_of_mem _ he))

section Lookup

variable [DecidableEq κ]

/-- Entries that are found by their names are all there are, if there are as many on the right. -/
theorem rearranged_of_lookup (hnodup : (names left).Nodup) (hlength : left.length = right.length)
    (h : ∀ e ∈ left, ∃ a, right.lookup e.1 = some a ∧ R e.2 a) : Rearranged R left right := by
  have hfound : ∃ middle, middle ⊆ right ∧ List.Forall₂ (Related R) left middle := by
    clear hnodup hlength
    induction left with
    | nil => exact ⟨[], List.nil_subset _, .nil⟩
    | cons e left ih =>
        obtain ⟨he, hleft⟩ := List.forall_mem_cons.1 h
        obtain ⟨a, hlookup, hr⟩ := he
        obtain ⟨middle, hsub, hmiddle⟩ := ih hleft
        exact ⟨(e.1, a) :: middle, List.cons_subset.2 ⟨mem_of_lookup hlookup, hsub⟩,
          .cons (.entry e.1 hr) hmiddle⟩
  obtain ⟨middle, hsub, hmiddle⟩ := hfound
  refine ⟨middle, hmiddle, ?_⟩
  have hmiddleNodup : middle.Nodup := by
    refine List.Nodup.of_map (·.1) ?_
    rwa [← names_eq_of_forall₂ hmiddle] at hnodup
  exact (hmiddleNodup.subperm hsub).perm_of_length_le
    (Nat.le_of_eq (hlength.symm.trans hmiddle.length_eq))

theorem Rearranged.lookup (h : Rearranged R left right) (hnodup : (names right).Nodup) :
    ∀ e ∈ left, ∃ a, right.lookup e.1 = some a ∧ R e.2 a := by
  obtain ⟨middle, hmiddle, hperm⟩ := h
  have hsub := hperm.subset
  clear hperm
  induction hmiddle with
  | nil => exact fun _ he => nomatch he
  | cons he _ ih =>
      obtain ⟨hentry, hrest⟩ := List.cons_subset.1 hsub
      obtain ⟨name, hr⟩ := he
      have hlookup := lookup_of_mem hnodup hentry
      exact List.forall_mem_cons.2 ⟨⟨_, hlookup, hr⟩, ih hrest⟩

theorem agree_iff {same : α → α → Bool} : agree same left right = true ↔
    left.length = right.length ∧
      ∀ e ∈ left, ∃ a, right.lookup e.1 = some a ∧ same e.2 a = true := by
  simp only [agree, Bool.and_eq_true, beq_iff_eq, List.all_eq_true, Option.any_eq_true]

/-- A look-up of every name finds what a rearrangement pairs, if names are not repeated. -/
theorem agree_iff_rearranged {same : α → α → Bool} (hnodup : (names left).Nodup) :
    agree same left right = true ↔ Rearranged (fun a b => same a b = true) left right := by
  rw [agree_iff]
  constructor
  · rintro ⟨hlength, h⟩
    exact rearranged_of_lookup hnodup hlength h
  · intro h
    have hright := h.names_perm.nodup_iff.1 hnodup
    refine ⟨?_, h.lookup hright⟩
    obtain ⟨middle, hmiddle, hperm⟩ := h
    exact hmiddle.length_eq.trans hperm.length_eq

/-- Two collections without repetitions that are related wherever they are looked up. -/
theorem rearranged_of_forall_lookup {R : α → α → Prop} {left right : List (κ × α)}
    (hleft : (names left).Nodup) (hright : (names right).Nodup)
    (h : ∀ name, Option.Rel R (left.lookup name) (right.lookup name)) :
    Rearranged R left right := by
  have hnames : (names left).Perm (names right) := by
    refine (List.perm_ext_iff_of_nodup hleft hright).2 fun name => ?_
    have hnone := option_rel_none_iff (h name)
    rw [lookup_eq_none_iff, lookup_eq_none_iff] at hnone
    exact not_iff_not.1 hnone
  refine rearranged_of_lookup hleft ?_ fun e he => ?_
  · have hlength := hnames.length_eq
    rwa [names, names, List.length_map, List.length_map] at hlength
  · have hrel := h e.1
    rw [lookup_of_mem hleft he] at hrel
    generalize right.lookup e.1 = found at hrel ⊢
    cases hrel with
    | some hr => exact ⟨_, rfl, hr⟩

end Lookup

section Order

variable [LE κ] [DecidableLE κ]

def byName (entries : List (κ × α)) : List (κ × α) :=
  entries.mergeSort fun a b => decide (a.1 ≤ b.1)

theorem byName_perm (entries : List (κ × α)) : (byName entries).Perm entries :=
  List.mergeSort_perm ..

theorem names_byName_nodup {entries : List (κ × α)} (h : (names entries).Nodup) :
    (names (byName entries)).Nodup :=
  (((byName_perm entries).map _).nodup_iff).2 h

theorem byName_map {β : Type} (f : κ × α → β) (entries : List (κ × α)) :
    byName (entries.map fun e => (e.1, f e)) = (byName entries).map fun e => (e.1, f e) := by
  rw [byName, byName, List.map_mergeSort (s := fun a b => decide (a.1 ≤ b.1))]
  exact fun _ _ _ _ => rfl

theorem forall_byName_map {f : α → α} {P : α → Prop} {entries : List (κ × α)} :
    (∀ e ∈ byName (entries.map fun e => (e.1, f e.2)), P e.2) ↔ ∀ e ∈ entries, P (f e.2) := by
  simp only [(byName_perm _).mem_iff, List.forall_mem_map]

variable [Std.IsLinearOrder κ]

theorem pairwise_byName (entries : List (κ × α)) :
    (byName entries).Pairwise fun a b => a.1 ≤ b.1 := by
  have htrans (a b c : κ × α) (hab : decide (a.1 ≤ b.1) = true)
      (hbc : decide (b.1 ≤ c.1) = true) : decide (a.1 ≤ c.1) = true :=
    decide_eq_true (Std.le_trans (of_decide_eq_true hab) (of_decide_eq_true hbc))
  have htotal (a b : κ × α) : (decide (a.1 ≤ b.1) || decide (b.1 ≤ a.1)) = true := by
    simpa using Std.le_total (a := a.1) (b := b.1)
  exact (List.pairwise_mergeSort htrans htotal entries).imp of_decide_eq_true

theorem byName_eq_of_perm {entries sorted : List (κ × α)} (h : (names entries).Nodup)
    (hperm : entries.Perm sorted) (hs : sorted.Pairwise fun a b => a.1 ≤ b.1) :
    byName entries = sorted := by
  refine List.Perm.eq_of_pairwise (fun e f he hf hef hfe => ?_) (pairwise_byName entries) hs
    ((byName_perm entries).trans hperm)
  have he' := (byName_perm entries).mem_iff.1 he
  exact List.inj_on_of_nodup_map h he' (hperm.mem_iff.2 hf) (Std.le_antisymm hef hfe)

/-- The order of entries is all that sorting takes away, if names are not repeated. -/
theorem byName_eq_iff {left right : List (κ × α)} (h : (names left).Nodup) :
    byName left = byName right ↔ left.Perm right := by
  constructor
  · intro heq
    exact (byName_perm left).symm.trans (heq ▸ byName_perm right)
  · intro hperm
    exact byName_eq_of_perm h (hperm.trans (byName_perm right).symm) (pairwise_byName right)

/-- Entries are rearranged exactly if they are the same once their values are brought into some
form and they are put in order. -/
theorem rearranged_iff_byName_eq {f : α → α} {left right : List (κ × α)}
    (h : (names left).Nodup) : Rearranged (fun a b => f a = f b) left right ↔
      byName (left.map fun e => (e.1, f e.2)) = byName (right.map fun e => (e.1, f e.2)) := by
  have hnames : (names (left.map fun e => (e.1, f e.2))).Nodup := by
    rwa [names, List.map_map]
  rw [byName_eq_iff hnames]
  constructor
  · rintro ⟨middle, hmiddle, hperm⟩
    have heq : left.map (fun e => (e.1, f e.2)) = middle.map fun e => (e.1, f e.2) := by
      rw [← List.forall₂_eq_eq_eq, List.forall₂_map_left_iff, List.forall₂_map_right_iff]
      refine hmiddle.imp fun e e' he => ?_
      obtain ⟨hname, hvalue⟩ := related_iff.1 he
      exact Prod.ext hname hvalue
    rw [heq]
    exact hperm.map _
  · intro hperm
    have hright : List.Forall₂ (fun e e' => e = (e'.1, f e'.2))
        (right.map fun e => (e.1, f e.2)) right :=
      List.forall₂_map_left_iff.2 (List.forall₂_same.2 fun _ _ => rfl)
    obtain ⟨middle, hmiddle, hpermuted⟩ := List.perm_comp_forall₂ hperm hright
    refine ⟨middle, (List.forall₂_map_left_iff.1 hmiddle).imp fun e e' he => ?_, hpermuted⟩
    exact related_iff.2 (Prod.mk.inj he)

end Order

section Values

variable [DecidableEq κ]

/-- The values of one name, in their order. -/
def valuesOf (name : κ) (entries : List (κ × α)) : List α :=
  (entries.filter (·.1 = name)).map (·.2)

theorem valuesOf_cons (name : κ) (e : κ × α) (entries : List (κ × α)) :
    valuesOf name (e :: entries) =
      if e.1 = name then e.2 :: valuesOf name entries else valuesOf name entries := by
  rw [valuesOf, List.filter_cons]
  by_cases h : e.1 = name
  · rw [if_pos h, if_pos (decide_eq_true h)]
    rfl
  · rw [if_neg h, if_neg (mt of_decide_eq_true h)]
    rfl

theorem lookup_eq_head? (name : κ) (entries : List (κ × α)) :
    entries.lookup name = (valuesOf name entries).head? := by
  induction entries with
  | nil => rfl
  | cons e entries ih =>
      rw [valuesOf_cons]
      by_cases h : e.1 = name
      · subst h
        rw [if_pos rfl]
        exact lookup_cons_self ..
      · rw [if_neg h, lookup_cons_of_ne (Ne.symm h), ih]

theorem lookup_reverse_eq_getLast? (name : κ) (entries : List (κ × α)) :
    entries.reverse.lookup name = (valuesOf name entries).getLast? := by
  rw [lookup_eq_head?, valuesOf, List.filter_reverse, List.map_reverse, List.head?_reverse]
  rfl

theorem count_names (name : κ) (entries : List (κ × α)) :
    (names entries).count name = (valuesOf name entries).length := by
  induction entries with
  | nil => rfl
  | cons e entries ih =>
      rw [names_cons, valuesOf_cons, List.count_cons, ih]
      by_cases h : e.1 = name
      · rw [if_pos h, if_pos (beq_iff_eq.2 h), List.length_cons]
      · rw [if_neg h, if_neg (mt beq_iff_eq.1 h), Nat.add_zero]

theorem mem_valuesOf {name : κ} {a : α} {entries : List (κ × α)} :
    a ∈ valuesOf name entries ↔ (name, a) ∈ entries := by
  simp only [valuesOf, List.mem_map, List.mem_filter, decide_eq_true_eq]
  constructor
  · rintro ⟨⟨n, b⟩, ⟨he, rfl⟩, rfl⟩
    exact he
  · exact fun h => ⟨(name, a), ⟨h, rfl⟩, rfl⟩

end Values

end Entries

end PermitTypes
