import PermitTypes.Proofs.Json.Reordering
import PermitTypes.Proofs.Json.Unambiguity
import PermitTypes.Proofs.Schema.Sorting

namespace PermitTypes.Schema

open Json Json.Grammar Json.Meaning

namespace Meaning

theorem rearranged_of_rel {kind : Kind} {optional list : Bool} {left right : Option Fields}
    (h : Option.Rel Fields.Rearranged left right) :
    (Property.mk kind optional list left).Rearranged ⟨kind, optional, list, right⟩ := by
  cases h with
  | none => exact .plain kind optional list
  | some h =>
      obtain ⟨middle, hmiddle, hperm⟩ := h
      exact .nested kind optional list hmiddle hperm

theorem property_steady {room : Nat} (hfields : Steady (fields room) Fields.Rearranged) :
    Steady (property (room + 1)) Property.Rearranged := by
  intro t u h p hp
  obtain ⟨given, hgiven, hp⟩ := Option.bind_eq_some_iff.1 hp
  obtain ⟨tag, htag, hp⟩ := Option.bind_eq_some_iff.1 hp
  obtain ⟨optional, hoptional, hp⟩ := Option.bind_eq_some_iff.1 hp
  obtain ⟨list, hlist, hp⟩ := Option.bind_eq_some_iff.1 hp
  obtain ⟨nested, hnested, hp⟩ := Option.bind_eq_some_iff.1 hp
  obtain rfl := Option.some.inj hp
  obtain ⟨given', hgiven', hrel⟩ := parts_reordered h hgiven
  obtain ⟨_, htag', rfl⟩ := string_steady.bind (hrel "type") htag
  obtain ⟨_, hoptional', rfl⟩ := flag_steady.withDefault rfl (hrel "optional") hoptional
  obtain ⟨_, hlist', rfl⟩ := flag_steady.withDefault rfl (hrel "list") hlist
  obtain ⟨nested', hnested', hr⟩ :=
    hfields.nullable.withDefault .none (hrel "property") hnested
  refine ⟨_, ?_, rearranged_of_rel hr⟩
  simp only [property, hgiven', htag', hoptional', hlist', hnested', Option.bind_eq_bind,
    Option.bind_some]
  rfl

theorem property_steady_and_fields_steady (room : Nat) :
    Steady (property room) Property.Rearranged ∧ Steady (fields room) Fields.Rearranged := by
  induction room with
  | zero => exact ⟨fun _ _ _ _ h => (nomatch h), fun _ _ _ _ h => (nomatch h)⟩
  | succ room ih => exact ⟨property_steady ih.2, ih.1.entries⟩

theorem fields_steady (room : Nat) : Steady (fields room) Fields.Rearranged :=
  (property_steady_and_fields_steady room).2

theorem filter_steady (room : Nat) : Steady (filter room) Filter.Rearranged := by
  intro t u h f hf
  cases room with
  | zero => cases hf
  | succ room =>
      cases t with
      | array ts =>
          obtain ⟨us, rfl, -⟩ := h.of_array
          obtain ⟨shapes, hshapes, rfl⟩ := Option.map_eq_some_iff.1 hf
          obtain ⟨shapes', hshapes', hr⟩ := (fields_steady room).elements _ _ h _ hshapes
          exact ⟨.union shapes', Option.map_eq_some_iff.2 ⟨shapes', hshapes', rfl⟩, .union hr⟩
      | object ms =>
          obtain ⟨ns, rfl, -⟩ := h.of_object
          obtain ⟨shape, hshape, rfl⟩ := Option.map_eq_some_iff.1 hf
          obtain ⟨shape', hshape', hr⟩ := fields_steady (room + 1) _ _ h _ hshape
          exact ⟨.shape shape', Option.map_eq_some_iff.2 ⟨shape', hshape', rfl⟩, .shape hr⟩
      | _ => cases hf

theorem permit_steady (room : Nat) : Steady (permit room) Permit.Rearranged := by
  intro t u h p hp
  cases room with
  | zero => cases hp
  | succ room =>
      obtain ⟨given, hgiven, hp⟩ := Option.bind_eq_some_iff.1 hp
      obtain ⟨filter, hfilter, hp⟩ := Option.bind_eq_some_iff.1 hp
      obtain ⟨effect, heffect, hp⟩ := Option.bind_eq_some_iff.1 hp
      obtain ⟨extend, hextend, hp⟩ := Option.bind_eq_some_iff.1 hp
      obtain rfl := Option.some.inj hp
      obtain ⟨given', hgiven', hrel⟩ := parts_reordered h hgiven
      obtain ⟨filter', hfilter', hrfilter⟩ :=
        (filter_steady room).nullable.withDefault .none (hrel "filter") hfilter
      obtain ⟨effect', heffect', hreffect⟩ :=
        (fields_steady room).nullable.withDefault .none (hrel "effect") heffect
      obtain ⟨extend', hextend', hrextend⟩ :=
        string_steady.nullable.withDefault .none (hrel "extend") hextend
      refine ⟨⟨filter', effect', extend'⟩, ?_, hrfilter, hreffect, eq_of_option_rel hrextend⟩
      simp only [permit, hgiven', hfilter', heffect', hextend', Option.bind_eq_bind,
        Option.bind_some]
      rfl

theorem permits_steady (room : Nat) :
    Steady (permits room) (Entries.Rearranged Permit.Rearranged) := by
  cases room with
  | zero => exact fun _ _ _ _ h => nomatch h
  | succ room => exact (permit_steady room).entries

theorem base_steady (room : Nat) : Steady (base room) Eq := by
  intro t u h b hb
  cases room with
  | zero => cases hb
  | succ room =>
      obtain ⟨given, hgiven, hb⟩ := Option.bind_eq_some_iff.1 hb
      obtain ⟨name, hname, hb⟩ := Option.bind_eq_some_iff.1 hb
      obtain rfl := Option.some.inj hb
      obtain ⟨given', hgiven', hrel⟩ := parts_reordered h hgiven
      obtain ⟨_, hname', rfl⟩ := string_steady.withDefault rfl (hrel "name") hname
      refine ⟨⟨name⟩, ?_, rfl⟩
      simp only [base, hgiven', hname', Option.bind_eq_bind, Option.bind_some]
      rfl

/-- Wherever members change their places, the document that is meant is the same. -/
theorem document_steady (room : Nat) : Steady (document room) Document.Rearranged := by
  intro t u h d hd
  cases room with
  | zero => cases hd
  | succ room =>
      obtain ⟨given, hgiven, hd⟩ := Option.bind_eq_some_iff.1 hd
      obtain ⟨base, hbase, hd⟩ := Option.bind_eq_some_iff.1 hd
      obtain ⟨permits, hpermits, hd⟩ := Option.bind_eq_some_iff.1 hd
      obtain rfl := Option.some.inj hd
      obtain ⟨given', hgiven', hrel⟩ := parts_reordered h hgiven
      obtain ⟨_, hbase', rfl⟩ := (base_steady room).withDefault rfl (hrel "base") hbase
      obtain ⟨permits', hpermits', hr⟩ :=
        (permits_steady room).withDefault ⟨[], .nil, .nil⟩ (hrel "permit") hpermits
      refine ⟨⟨base, permits'⟩, ?_, rfl, hr⟩
      simp only [document, hgiven', hbase', hpermits', Option.bind_eq_bind, Option.bind_some]
      rfl

end Meaning

theorem held_of_parse {source : String} {d : Document} (h : Document.parse source = .ok d) :
    d.Distinct ∧ d.Genuine := by
  obtain ⟨t, -, ht⟩ := means_of_parse h
  obtain ⟨hd, hg, -⟩ := Meaning.document_held (by decide) ht
  exact ⟨hd, hg⟩

/-- Documents that have been read are the same exactly if they are written alike once their permits
and their fields, at every depth, are put in the order of their names. So this is an equivalence,
it tells apart all that differs in more than this order, and it holds between what is read of texts
that differ in the order of members with different names. -/
theorem same_iff_written_alike :
    (∀ {s s' : String} {a b : Document}, Document.parse s = .ok a → Document.parse s' = .ok b →
      (∀ layout : Layout,
        a.same b = true ↔ a.sorted.write layout = b.sorted.write layout) ∧
      (a.same b = true ↔ a.Rearranged b) ∧
      a.same a = true ∧ (a.same b = true → b.same a = true) ∧
      ∀ {s'' : String} {c : Document}, Document.parse s'' = .ok c →
        a.same b = true → b.same c = true → a.same c = true) ∧
    ∀ {s s' : String} {t t' : Raw} {a : Document}, Text s.toList t → Text s'.toList t' →
      t.Reordered t' → Document.parse s = .ok a →
        ∃ b, Document.parse s' = .ok b ∧ a.same b = true := by
  refine ⟨fun {s s' a b} ha hb => ?_, fun {s s' t t' a} ht ht' hreordered ha => ?_⟩
  · have hiff {s s' : String} {a b : Document} (ha : Document.parse s = .ok a)
        (hb : Document.parse s' = .ok b) (layout : Layout) :
        a.same b = true ↔ a.sorted.write layout = b.sorted.write layout :=
      Document.same_eq_true_iff_write_sorted_eq (held_of_parse ha) (held_of_parse hb) layout
    refine ⟨hiff ha hb, Document.same_eq_true_iff_rearranged (held_of_parse ha).1, ?_, ?_, ?_⟩
    · exact (hiff ha ha .compact).2 rfl
    · rw [hiff ha hb .compact, hiff hb ha .compact]
      exact Eq.symm
    · intro s'' c hc
      rw [hiff ha hb .compact, hiff hb hc .compact, hiff ha hc .compact]
      exact Eq.trans
  · obtain ⟨u, hu, hmeans⟩ := means_of_parse ha
    obtain rfl := hu.unique ht
    obtain ⟨b, hb, hr⟩ := Meaning.document_steady _ _ _ hreordered _ hmeans
    exact ⟨b, parse_of_means ht' hb,
      (Document.same_eq_true_iff_rearranged (held_of_parse ha).1).2 hr⟩

/-- Permits that are swapped, read of texts with different blanks. -/
theorem swapped_permits_are_same :
    let left : Document := { permits := [("a", { effect := some [] }), ("b", {})] }
    let right : Document := { permits := [("b", {}), ("a", { effect := some [] })] }
    Document.parse (left.write .pretty) = .ok left ∧
      Document.parse (right.write .compact) = .ok right ∧
      left.sorted.write .compact = right.sorted.write .compact ∧
      ∃ b, Document.parse (right.write .compact) = .ok b ∧ left.same b = true := by
  intro left right
  have hheld (d : Document) (hd : d = left ∨ d = right) : d.Distinct ∧ d.Genuine := by
    rcases hd with rfl | rfl <;>
      simp [Document.Distinct, Document.Genuine, Permit.containers, Fields.Distinct, Fields.Each,
        Fields.Genuine, Entries.names, left, right]
  have hopen (d : Document) (hd : d = left ∨ d = right) (layout : Layout) :
      openAtOnce (d.write layout) ≤ Decode.depthLimit := by
    rw [openAtOnce_write]
    rcases hd with rfl | rfl <;> decide
  have hparse (d : Document) (hd : d = left ∨ d = right) (layout : Layout) :
      Document.parse (d.write layout) = .ok d :=
    (parse_write (hheld d hd).1 (hheld d hd).2 layout).1 (hopen d hd layout)
  have htext (d : Document) (layout : Layout) : Text (d.write layout).toList d.encode.raw :=
    ⟨_, _, .none, text_write layout d, .none⟩
  have hreordered : left.encode.raw.Reordered right.encode.raw :=
    .member [_] [] _ (reordered_of_perm (.swap _ _ []) (by decide))
  have hleft := hparse left (.inl rfl) .pretty
  have hright := hparse right (.inr rfl) .compact
  have hsame := same_iff_written_alike.2 (htext left .pretty) (htext right .compact) hreordered
    hleft
  obtain ⟨b, hb, hlb⟩ := hsame
  obtain rfl := Except.ok.inj (hright.symm.trans hb)
  exact ⟨hleft, hright, ((same_iff_written_alike.1 hleft hright).1 .compact).1 hlb, right, hright,
    hlb⟩

end PermitTypes.Schema
