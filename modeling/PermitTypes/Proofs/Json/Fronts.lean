import PermitTypes.Proofs.Json.Places
import PermitTypes.Proofs.Json.Records
import PermitTypes.Proofs.Json.Room
import PermitTypes.Proofs.Json.Written

namespace PermitTypes.Json

open Grammar

namespace Grammar

/-- A text is a front with the rest behind it, and the front may have any rest behind it. -/
def Front (relation : List Char → List Char → Prop) (s rest : List Char) : Prop :=
  ∃ front, s = front ++ rest ∧ ∀ after, relation (front ++ after) after

theorem Blanks.front {s rest : List Char} (h : Blanks s rest) : Front Blanks s rest := by
  induction h with
  | none => exact ⟨[], rfl, fun _ => .none⟩
  | @cons c s rest hc _ ih =>
      obtain ⟨front, rfl, hfront⟩ := ih
      exact ⟨c :: front, rfl, fun after => .cons hc (hfront after)⟩

theorem Chars.front {s rest : List Char} {points : List Nat} (h : Chars s points rest) :
    Front (Chars · points ·) s rest := by
  induction h with
  | close => exact ⟨['"'], rfl, fun _ => .close⟩
  | @plain c s points rest hc hquote hslash _ ih =>
      obtain ⟨front, rfl, hfront⟩ := ih
      exact ⟨c :: front, rfl, fun after => .plain hc hquote hslash (hfront after)⟩
  | @short c n s points rest hc _ ih =>
      obtain ⟨front, rfl, hfront⟩ := ih
      exact ⟨'\\' :: c :: front, rfl, fun after => .short hc (hfront after)⟩
  | @unit a b c d n s points rest hn _ ih =>
      obtain ⟨front, rfl, hfront⟩ := ih
      exact ⟨'\\' :: 'u' :: a :: b :: c :: d :: front, rfl, fun after => .unit hn (hfront after)⟩

mutual

/-- What a value is does not hang on what follows it. -/
theorem Value.front {s rest : List Char} {t : Raw} (h : Value s t rest) :
    Front (Value · t ·) s rest := by
  cases h with
  | null => exact ⟨['n', 'u', 'l', 'l'], rfl, fun _ => .null⟩
  | true => exact ⟨['t', 'r', 'u', 'e'], rfl, fun _ => .true⟩
  | false => exact ⟨['f', 'a', 'l', 's', 'e'], rfl, fun _ => .false⟩
  | number hn => exact ⟨_, rfl, fun _ => .number hn⟩
  | string hp =>
      obtain ⟨front, rfl, hfront⟩ := hp.front
      exact ⟨'"' :: front, rfl, fun after => .string (hfront after)⟩
  | emptyArray hb =>
      obtain ⟨front, rfl, hfront⟩ := hb.front
      exact ⟨'[' :: (front ++ [']']), by simp, fun after => by simpa using .emptyArray (hfront _)⟩
  | array hb ht hts =>
      obtain ⟨front, rfl, hfront⟩ := hb.front
      obtain ⟨front', rfl, hfront'⟩ := ht.front
      obtain ⟨front'', rfl, hfront''⟩ := hts.front
      refine ⟨'[' :: (front ++ (front' ++ front'')), by simp, fun after => ?_⟩
      simpa using .array (hfront _) (hfront' _) (hfront'' after)
  | emptyObject hb =>
      obtain ⟨front, rfl, hfront⟩ := hb.front
      exact ⟨'{' :: (front ++ ['}']), by simp, fun after => by simpa using .emptyObject (hfront _)⟩
  | object hb hm hms =>
      obtain ⟨front, rfl, hfront⟩ := hb.front
      obtain ⟨front', rfl, hfront'⟩ := hm.front
      obtain ⟨front'', rfl, hfront''⟩ := hms.front
      refine ⟨'{' :: (front ++ (front' ++ front'')), by simp, fun after => ?_⟩
      simpa using .object (hfront _) (hfront' _) (hfront'' after)

theorem MoreElements.front {s rest : List Char} {ts : List Raw} (h : MoreElements s ts rest) :
    Front (MoreElements · ts ·) s rest := by
  cases h with
  | close hb =>
      obtain ⟨front, rfl, hfront⟩ := hb.front
      exact ⟨front ++ [']'], by simp, fun after => by simpa using .close (hfront _)⟩
  | next hb hb' ht hts =>
      obtain ⟨front, rfl, hfront⟩ := hb.front
      obtain ⟨blank, rfl, hblank⟩ := hb'.front
      obtain ⟨front', rfl, hfront'⟩ := ht.front
      obtain ⟨front'', rfl, hfront''⟩ := hts.front
      refine ⟨front ++ ',' :: (blank ++ (front' ++ front'')), by simp, fun after => ?_⟩
      simpa using .next (hfront _) (hblank _) (hfront' _) (hfront'' after)

theorem Member.front {s rest : List Char} {m : List Nat × Raw} (h : Member s m rest) :
    Front (Member · m ·) s rest := by
  cases h with
  | mk hp hb hb' ht =>
      obtain ⟨front, rfl, hfront⟩ := hp.front
      obtain ⟨blank, rfl, hblank⟩ := hb.front
      obtain ⟨blank', rfl, hblank'⟩ := hb'.front
      obtain ⟨front', rfl, hfront'⟩ := ht.front
      refine ⟨'"' :: (front ++ (blank ++ ':' :: (blank' ++ front'))), by simp, fun after => ?_⟩
      simpa using .mk (hfront _) (hblank _) (hblank' _) (hfront' after)

theorem MoreMembers.front {s rest : List Char} {ms : List (List Nat × Raw)}
    (h : MoreMembers s ms rest) : Front (MoreMembers · ms ·) s rest := by
  cases h with
  | close hb =>
      obtain ⟨front, rfl, hfront⟩ := hb.front
      exact ⟨front ++ ['}'], by simp, fun after => by simpa using .close (hfront _)⟩
  | next hb hb' hm hms =>
      obtain ⟨front, rfl, hfront⟩ := hb.front
      obtain ⟨blank, rfl, hblank⟩ := hb'.front
      obtain ⟨front', rfl, hfront'⟩ := hm.front
      obtain ⟨front'', rfl, hfront''⟩ := hms.front
      refine ⟨front ++ ',' :: (blank ++ (front' ++ front'')), by simp, fun after => ?_⟩
      simpa using .next (hfront _) (hblank _) (hfront' _) (hfront'' after)

end

end Grammar

/-- A reader that takes something off a text takes the same when nothing follows. -/
theorem Reads.exists_prefix {α : Type} {r : Reader α} {D E : Raw → Option α} (h : Reads r D E)
    {s rest : List Char} {a : α} (hs : skipSpace s = s) (hrun : r.run s = .ok (a, rest)) :
    ∃ front, front <+: s ∧ r.run front = .ok (a, []) := by
  obtain ⟨t, ht, ha⟩ := h.sound hrun
  rw [hs] at ht
  obtain ⟨front, rfl, hfront⟩ := ht.front
  have halone := hfront []
  rw [List.append_nil] at halone
  have hend : Delimited [] := by
    rintro c ⟨⟩
  have hanswer := h.answers (s := front) (by rwa [halone.skipSpace_eq]) hend (h.below ha)
  rw [ha] at hanswer
  exact ⟨front, List.prefix_append .., hanswer⟩

section

variable {α δ σ : Type} {name : String} {value : List Char} {fault : Fault}

theorem nextName_written (name : String) (rest : List Char) :
    nextName true (writeString name ++ rest) = .ok (some name, rest) := by
  rw [writeString_append]
  refine (Members.nextName_first (skipSpace_cons (by decide) _)).trans ?_
  exact Members.readName_eq_ok.2
    ⟨name, rfl, readString_eq_ok_iff.2 ⟨_, chars_writeString name rest, text?_points name⟩⟩

theorem Reader.map_fault {β : Type} {r : Reader α} (hr : r.run value = .error fault)
    (f : α → β) : (r.map f).run value = .error fault := by
  simp only [Reader.map, hr]

/-- What is wrong in the value of the first member is wrong in the object. -/
theorem Members.first_fault {m : Members σ α} {r : Reader σ} (hm : m.member m.start name = .ok r)
    (hr : r.run value = .error fault) :
    m.reader.run (writeString name ++ ':' :: value) = .error fault :=
  m.loop_of_error (nextName_written name _) hm
    (readColon_eq_ok.2 (skipSpace_cons (by decide) value)) hr

theorem Elements.first_fault {e : Elements σ α} {r : Reader σ} (he : e.element e.start = some r)
    {c : Char} (hc : c ∉ [' ', '\t', '\n', '\r', ']']) (hr : r.run (c :: value) = .error fault) :
    e.reader.run (c :: value) = .error fault := by
  have hspace : c ∉ [' ', '\t', '\n', '\r'] := fun h => hc (List.mem_append_left [']'] h)
  have hclose : c ≠ ']' := by
    rintro rfl
    exact hc (by decide)
  have hn := nextElement_first (skipSpace_cons hspace value) hclose
  change e.loop true e.start (c :: value) = _
  rw [Elements.loop_eq, he]
  simp only [hn, hr]

theorem mapMembers_first_fault {r : Reader α} (hr : r.run value = .error fault) :
    (mapMembers r).reader.run (writeString name ++ ':' :: value) = .error fault :=
  Members.first_fault rfl (r.map_fault hr _)

theorem listElements_first_fault {r : Reader α} {c : Char}
    (hc : c ∉ [' ', '\t', '\n', '\r', ']']) (hr : r.run (c :: value) = .error fault) :
    (listElements r).reader.run (c :: value) = .error fault :=
  Elements.first_fault rfl hc (r.map_fault hr _)

theorem Record.first_fault {r : Record δ α} {field : Field δ}
    (hfind : r.fields.find? (·.name = name) = some field)
    (hr : field.value.run value = .error fault) :
    r.form.reader.run ('{' :: (writeString name ++ ':' :: value)) = .error fault := by
  have hmember : r.members.member r.members.start name =
      .ok (field.value.map fun set => ⟨set r.draft, [name]⟩) := by
    simp only [Record.members, hfind]
    rfl
  exact Members.first_fault hmember (field.value.map_fault hr _)

theorem Reader.nullable_fault {r : Reader α} {c : Char} (hc : c ∉ [' ', '\t', '\n', '\r', 'n'])
    (hr : r.run (c :: value) = .error fault) : r.nullable.run (c :: value) = .error fault := by
  have hspace : c ∉ [' ', '\t', '\n', '\r'] := fun h => hc (List.mem_append_left ['n'] h)
  simp only [Reader.nullable, skipSpace_cons hspace]
  split
  · next hn =>
      obtain ⟨rfl, -⟩ := List.cons.inj hn
      exact absurd (by decide) hc
  · exact r.map_fault hr some

end

end PermitTypes.Json
