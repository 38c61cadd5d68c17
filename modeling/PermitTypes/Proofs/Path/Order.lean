import PermitTypes.Proofs.Path.Below

namespace PermitTypes.Path

theorem Component.le_total (a b : Component) : (a.le b || b.le a) = true := by
  cases a <;> cases b <;> simp [Component.le, Component.rank, Name.le_total]

theorem Component.le_trans {a b c : Component} (hab : a.le b = true) (hbc : b.le c = true) :
    a.le c = true := by
  cases a <;> cases b <;> cases c <;> simp_all [Component.le, Component.rank]
  exact Name.le_trans hab hbc

theorem Component.le_antisymm {a b : Component} (hab : a.le b = true) (hba : b.le a = true) :
    a = b := by
  cases a <;> cases b <;> simp_all [Component.le, Component.rank]
  exact Name.le_antisymm hab hba

theorem leComponents_total (as bs : List Component) :
    (leComponents as bs || leComponents bs as) = true := by
  induction as generalizing bs with
  | nil => rfl
  | cons a as ih =>
      cases bs with
      | nil => rfl
      | cons b bs =>
          by_cases h : a = b
          · subst h
            simpa [leComponents] using ih bs
          · simpa [leComponents, h, Ne.symm h] using Component.le_total a b

theorem leComponents_trans {as bs cs : List Component} (hab : leComponents as bs = true)
    (hbc : leComponents bs cs = true) : leComponents as cs = true := by
  induction as generalizing bs cs with
  | nil => rfl
  | cons a as ih =>
      cases bs with
      | nil => cases hab
      | cons b bs =>
          cases cs with
          | nil => cases hbc
          | cons c cs =>
              rw [leComponents] at hab hbc ⊢
              by_cases h : a = b
              · subst h
                rw [if_pos rfl] at hab
                by_cases hc : a = c
                · subst hc
                  rw [if_pos rfl] at hbc ⊢
                  exact ih hab hbc
                · rwa [if_neg hc] at hbc ⊢
              · rw [if_neg h] at hab
                by_cases hb : b = c
                · subst hb
                  rwa [if_neg h]
                · rw [if_neg hb] at hbc
                  have hne : a ≠ c := by
                    rintro rfl
                    exact h (Component.le_antisymm hab hbc)
                  rw [if_neg hne]
                  exact Component.le_trans hab hbc

theorem leComponents_antisymm {as bs : List Component} (hab : leComponents as bs = true)
    (hba : leComponents bs as = true) : as = bs := by
  induction as generalizing bs with
  | nil =>
      cases bs with
      | nil => rfl
      | cons b bs => cases hba
  | cons a as ih =>
      cases bs with
      | nil => cases hab
      | cons b bs =>
          rw [leComponents] at hab hba
          by_cases h : a = b
          · subst h
            rw [if_pos rfl] at hab hba
            rw [ih hab hba]
          · rw [if_neg h] at hab
            rw [if_neg (Ne.symm h)] at hba
            exact absurd (Component.le_antisymm hab hba) h

theorem le_total (p q : Path) : (p.le q || q.le p) = true :=
  leComponents_total ..

theorem le_trans (p q r : Path) : p.le q = true → q.le r = true → p.le r = true :=
  leComponents_trans

theorem components_eq_of_le {p q : Path} (hpq : p.le q = true) (hqp : q.le p = true) :
    p.components = q.components :=
  leComponents_antisymm hpq hqp

theorem leComponents_append (front as bs : List Component) :
    leComponents (front ++ as) (front ++ bs) = leComponents as bs := by
  induction front with
  | nil => rfl
  | cons c front ih =>
      rw [List.cons_append, List.cons_append, leComponents, if_pos rfl]
      exact ih

/-- The first names in which two paths differ decide their order, whatever follows. -/
theorem le_below (p : Path) {a b : Name} (hab : a ≤ b) (hne : a ≠ b) {as bs : List Name}
    (ha : ∀ n ∈ a :: as, IsName n) (hb : ∀ n ∈ b :: bs, IsName n) :
    (p.below (a :: as)).le (p.below (b :: bs)) = true := by
  rw [le, components_below p ha, components_below p hb, leComponents_append, List.map_cons,
    List.map_cons, leComponents, if_neg fun h => hne (Component.name.inj h)]
  exact decide_eq_true hab

/-- A list is sorted into a rearrangement of it that is in order, where no two of its members have
the same components. -/
theorem mergeSort_eq_of_perm {a b : List Path} (h : a.Perm b)
    (hb : b.Pairwise fun p q => p.le q = true)
    (hinj : ∀ p ∈ a, ∀ q ∈ a, p.components = q.components → p = q) : a.mergeSort le = b := by
  have hperm : (a.mergeSort le).Perm b := (List.mergeSort_perm a le).trans h
  refine hperm.eq_of_pairwise (fun p q hp hq hpq hqp => ?_)
    (List.pairwise_mergeSort le_trans le_total a) hb
  exact hinj p ((List.mergeSort_perm a le).mem_iff.1 hp) q (h.mem_iff.2 hq)
    (components_eq_of_le hpq hqp)

/-- A sorted list without repetitions is known from its members, where no two of them have the same
components. -/
theorem mergeSort_eq_of_mem_iff {a b : List Path} (ha : a.Nodup) (hb : b.Nodup)
    (h : ∀ p, p ∈ a ↔ p ∈ b)
    (hinj : ∀ p ∈ a, ∀ q ∈ a, p.components = q.components → p = q) :
    a.mergeSort le = b.mergeSort le :=
  mergeSort_eq_of_perm
    (((List.perm_ext_iff_of_nodup ha hb).2 h).trans (List.mergeSort_perm b le).symm)
    (List.pairwise_mergeSort le_trans le_total b) hinj

end PermitTypes.Path
