import PermitTypes.Proofs.Json.Nesting
import PermitTypes.Proofs.Json.Written
import PermitTypes.Proofs.Schema.Containers
import PermitTypes.Proofs.Schema.Reading
import PermitTypes.Schema.Encode

namespace PermitTypes.Schema

open Json Json.Grammar Json.Meaning

def Fields.Distinct (fields : Fields) : Prop :=
  (Entries.names fields).Nodup ∧
    Fields.Each (fun p => ∀ nested ∈ p.fields, (Entries.names nested).Nodup) fields

/-- An unknown kind is not one of the known by another name. -/
def Kind.Genuine (k : Kind) : Prop := ∀ tag, k = .unknown tag → tag ∉ Kind.known.map Kind.tag

def Fields.Genuine (fields : Fields) : Prop := Fields.Each (fun p => p.kind.Genuine) fields

/-- Each name stands once among the permits and in each container, as in all that is put together
name by name. -/
def Document.Distinct (d : Document) : Prop :=
  (Entries.names d.permits).Nodup ∧
    ∀ e ∈ d.permits, ∀ fields ∈ e.2.containers, Fields.Distinct fields

def Document.Genuine (d : Document) : Prop :=
  ∀ e ∈ d.permits, ∀ fields ∈ e.2.containers, Fields.Genuine fields

theorem Kind.ofTag_tag_of_genuine {k : Kind} (h : k.Genuine) : Kind.ofTag k.tag = k := by
  cases k with
  | unknown tag =>
      have hnone : Kind.known.find? (·.tag = tag) = none := by
        rw [List.find?_eq_none]
        intro k hk he
        exact h tag rfl (List.mem_map.2 ⟨k, hk, of_decide_eq_true he⟩)
      rw [Kind.ofTag, Kind.tag, hnone]
      rfl
  | _ => exact Kind.ofTag_tag (by decide)

theorem Kind.genuine_ofTag (tag : String) : (Kind.ofTag tag).Genuine := by
  intro tag' h hmem
  obtain ⟨k, hk, rfl⟩ := List.mem_map.1 hmem
  have htag := Kind.tag_ofTag tag
  rw [h] at htag
  obtain rfl : k.tag = tag := htag
  rw [Kind.ofTag_tag hk] at h
  rw [h] at hk
  exact absurd hk (by simp [Kind.known])

end PermitTypes.Schema

namespace PermitTypes.Schema.Meaning

open Json Json.Grammar Json.Meaning

theorem named_rawMembers (ms : List (String × Tree)) :
    named (Tree.rawMembers ms) = some (ms.map fun m => (m.1, m.2.raw)) := by
  induction ms with
  | nil => rfl
  | cons m ms ih =>
      rw [Tree.rawMembers, named_cons, text?_points, ih]
      rfl

theorem parts_rawMembers {known : List String} {ms : List (String × Tree)} (hknown : known.Nodup)
    (h : (Entries.names ms).Sublist known) :
    parts known (.object (Tree.rawMembers ms)) =
      some fun name => (ms.lookup name).map Tree.raw := by
  have hnames : (ms.map fun m => (m.1, m.2.raw)).map (·.1) = Entries.names ms := List.map_map ..
  have hnodup : ((Entries.names ms).filter (· ∈ known)).Nodup := (hknown.sublist h).filter _
  simp only [parts, named_rawMembers]
  refine (if_pos (hnames ▸ hnodup)).trans ?_
  exact congrArg some (funext fun name => Entries.lookup_map Tree.raw ms name)

section

variable {α : Type} {name other : String} {encode : α → Tree}

theorem lookup_flagMember (name : String) (b : Bool) :
    (flagMember name b).lookup name = if b then some (.bool true) else none := by
  cases b with
  | true => exact Entries.lookup_cons_self ..
  | false => rfl

theorem lookup_flagMember_of_ne (h : other ≠ name) (b : Bool) :
    (flagMember name b).lookup other = none := by
  cases b with
  | true => exact Entries.lookup_cons_of_ne h []
  | false => rfl

theorem names_flagMember_sublist (name : String) (b : Bool) :
    (Entries.names (flagMember name b)).Sublist [name] := by
  cases b with
  | true => exact List.Sublist.refl _
  | false => exact List.nil_sublist _

theorem lookup_optionMember (name : String) (encode : α → Tree) (o : Option α) :
    (optionMember name encode o).lookup name = o.map encode := by
  cases o with
  | some a => exact Entries.lookup_cons_self ..
  | none => rfl

theorem lookup_optionMember_of_ne (h : other ≠ name) (encode : α → Tree) (o : Option α) :
    (optionMember name encode o).lookup other = none := by
  cases o with
  | some a => exact Entries.lookup_cons_of_ne h []
  | none => rfl

theorem names_optionMember_sublist (name : String) (encode : α → Tree) (o : Option α) :
    (Entries.names (optionMember name encode o)).Sublist [name] := by
  cases o with
  | some a => exact List.Sublist.refl _
  | none => exact List.nil_sublist _

end

theorem flag_of_flagMember (name : String) (b : Bool) :
    withDefault false flag (((flagMember name b).lookup name).map Tree.raw) = some b := by
  rw [lookup_flagMember]
  cases b <;> rfl

theorem string_of_optionMember (name s : String) :
    (((optionMember name Tree.string (some s)).lookup name).map Tree.raw).bind string = some s := by
  rw [lookup_optionMember]
  exact text?_points s

def memberDepth (ms : List (String × Tree)) : Nat := Raw.membersDepth (Tree.rawMembers ms)

theorem memberDepth_append (a b : List (String × Tree)) :
    memberDepth (a ++ b) = max (memberDepth a) (memberDepth b) := by
  induction a with
  | nil => exact (Nat.zero_max _).symm
  | cons m a ih =>
      have hcons : ∀ ms, memberDepth (m :: ms) = max m.2.raw.depth (memberDepth ms) :=
        fun _ => rfl
      rw [List.cons_append, hcons, hcons, ih, Nat.max_assoc]

theorem memberDepth_flagMember (name : String) (b : Bool) : memberDepth (flagMember name b) = 0 := by
  cases b <;> rfl

/-- What is meant by a value with some levels of brackets, given room for them. -/
def fit {α : Type} (room depth : Nat) (a : α) : Option α := if depth ≤ room then some a else none

section

variable {α β ι : Type} {room : Nat}

theorem fit_zero (a : α) : fit room 0 a = some a :=
  if_pos (Nat.zero_le room)

theorem fit_add_one (depth : Nat) (a : α) : fit (room + 1) (depth + 1) a = fit room depth a :=
  if_congr Nat.add_le_add_iff_right rfl rfl

theorem fit_of_lt {depth : Nat} (h : room < depth) (a : α) : fit room depth a = none :=
  if_neg (Nat.not_le_of_lt h)

theorem map_fit (depth : Nat) (a : α) (f : α → β) :
    (fit room depth a).map f = fit room depth (f a) := by
  unfold fit
  by_cases h : depth ≤ room
  · rw [if_pos h, if_pos h]
    rfl
  · rw [if_neg h, if_neg h]
    rfl

theorem fit_bind {depth depth' : Nat} {a : α} {b : β} {f : α → Option β}
    (h : f a = fit room depth' b) : (fit room depth a).bind f = fit room (max depth depth') b := by
  unfold fit
  by_cases hle : depth ≤ room
  · rw [if_pos hle, Option.bind_some, h]
    exact if_congr (Nat.max_le.trans (and_iff_right hle)).symm rfl rfl
  · rw [if_neg hle, if_neg fun h => hle (Nat.le_trans (Nat.le_max_left ..) h)]
    rfl

theorem mapM_fit {items : List ι} {meaning : ι → Option α} {depth : ι → Nat} {f : ι → α}
    (h : ∀ i ∈ items, meaning i = fit room (depth i) (f i)) :
    items.mapM meaning = fit room (items.foldr (fun i n => max (depth i) n) 0) (items.map f) := by
  induction items with
  | nil => exact (fit_zero _).symm
  | cons i items ih =>
      rw [List.mapM_cons, h i List.mem_cons_self, ih fun i hi => h i (List.mem_cons_of_mem _ hi)]
      exact fit_bind (Option.map_eq_bind.symm.trans (map_fit _ _ (f i :: ·)))

theorem elements_rawElements {meaning : Raw → Option α} {encode : α → Tree} {as : List α}
    (h : ∀ a ∈ as, meaning (encode a).raw = fit room (encode a).raw.depth a) :
    elements meaning (.array (Tree.rawElements (as.map encode))) =
      fit room (Raw.elementsDepth (Tree.rawElements (as.map encode))) as := by
  have hraw : Tree.rawElements (as.map encode) = as.map fun a => (encode a).raw := by
    clear h
    induction as with
    | nil => rfl
    | cons a as ih => exact congrArg ((encode a).raw :: ·) ih
  have hdepth : Raw.elementsDepth (as.map fun a => (encode a).raw) =
      as.foldr (fun a n => max (encode a).raw.depth n) 0 := by
    clear h hraw
    induction as with
    | nil => rfl
    | cons a as ih => exact congrArg (max (encode a).raw.depth) ih
  rw [hraw, hdepth, elements, List.mapM_map]
  exact (mapM_fit h).trans (congrArg _ (List.map_id as))

theorem entries_rawMembers {meaning : Raw → Option α} {encode : α → Tree}
    {es : List (String × α)} (hnodup : (Entries.names es).Nodup)
    (h : ∀ e ∈ es, meaning (encode e.2).raw = fit room (encode e.2).raw.depth e.2) :
    entries meaning (.object (Tree.rawMembers (es.map fun e => (e.1, encode e.2)))) =
      fit room (memberDepth (es.map fun e => (e.1, encode e.2))) es := by
  have hdepth : memberDepth (es.map fun e => (e.1, encode e.2)) =
      es.foldr (fun e n => max (encode e.2).raw.depth n) 0 := by
    clear h hnodup
    induction es with
    | nil => rfl
    | cons e es ih => exact congrArg (max (encode e.2).raw.depth) ih
  have hvalues : lastValues es = es := by
    rw [lastValues_eq_puts]
    exact Entries.puts_of_nodup hnodup
  have hnamed : named (Tree.rawMembers (es.map fun e => (e.1, encode e.2))) =
      some (es.map fun e => (e.1, (encode e.2).raw)) := by
    rw [named_rawMembers, List.map_map]
    rfl
  have hmapM : ((es.map fun e => (e.1, (encode e.2).raw)).mapM fun m =>
      (meaning m.2).map fun a => (m.1, a)) =
        fit room (es.foldr (fun e n => max (encode e.2).raw.depth n) 0) es := by
    rw [List.mapM_map]
    refine (mapM_fit fun e he => ?_).trans (congrArg _ (List.map_id es))
    exact (congrArg _ (h e he)).trans (map_fit ..)
  rw [entries_object, hnamed, Option.bind_some, hmapM, hdepth, map_fit, hvalues]

theorem memberDepth_optionMember_some (name : String) (encode : α → Tree) (a : α) :
    memberDepth (optionMember name encode (some a)) = (encode a).raw.depth :=
  Nat.max_zero _

theorem withDefault_some_optionMember {meaning : Raw → Option α} {encode : α → Tree} {a : α}
    (name : String) (default : α)
    (h : meaning (encode a).raw = fit room (encode a).raw.depth a) :
    withDefault default meaning
        (((optionMember name encode (some a)).lookup name).map Tree.raw) =
      fit room (memberDepth (optionMember name encode (some a))) a := by
  rw [lookup_optionMember, memberDepth_optionMember_some]
  exact h

theorem withDefault_optionMember {meaning : Raw → Option α} {encode : α → Tree} {o : Option α}
    (name : String) (hnull : ∀ a, (encode a).raw ≠ .null)
    (h : ∀ a ∈ o, meaning (encode a).raw = fit room (encode a).raw.depth a) :
    withDefault none (nullable meaning)
        (((optionMember name encode o).lookup name).map Tree.raw) =
      fit room (memberDepth (optionMember name encode o)) o := by
  rw [lookup_optionMember]
  cases o with
  | none => exact (fit_zero _).symm
  | some a =>
      rw [memberDepth_optionMember_some, ← map_fit, ← h a rfl]
      exact Reads.nullable_of_ne (hnull a) meaning

end

theorem depth_object (ms : List (String × Tree)) :
    (Tree.object ms).raw.depth = memberDepth ms + 1 :=
  rfl

def propertyMembers (p : Property) : List (String × Tree) :=
  optionMember "type" Tree.string (some p.kind.tag) ++ (flagMember "optional" p.optional ++
    (flagMember "list" p.list ++ optionMember "property" Fields.encode p.fields))

theorem property_encode_eq (p : Property) : p.encode = .object (propertyMembers p) := by
  obtain ⟨kind, optional, list, fields⟩ := p
  cases fields <;> simp [Property.encode, propertyMembers, optionMember, Fields.encode]

theorem names_propertyMembers_sublist (p : Property) :
    (Entries.names (propertyMembers p)).Sublist ["type", "optional", "list", "property"] := by
  simp only [propertyMembers, Entries.names_append]
  exact (names_optionMember_sublist "type" Tree.string _).append
    ((names_flagMember_sublist "optional" p.optional).append
      ((names_flagMember_sublist "list" p.list).append
        (names_optionMember_sublist "property" Fields.encode p.fields)))

theorem memberDepth_propertyMembers (p : Property) : memberDepth (propertyMembers p) =
    memberDepth (optionMember "property" Fields.encode p.fields) := by
  simp only [propertyMembers, memberDepth_append, memberDepth_flagMember, Nat.zero_max]
  exact Nat.zero_max _

theorem property_of_nested {room : Nat} {p : Property} (hkind : p.kind.Genuine)
    (h : ∀ nested ∈ p.fields, fields room (Fields.encode nested).raw =
      fit room (Fields.encode nested).raw.depth nested) :
    property (room + 1) p.encode.raw = fit (room + 1) p.encode.raw.depth p := by
  have hnested := withDefault_optionMember "property" (fun _ => Raw.noConfusion) h
  rw [property_encode_eq, depth_object, fit_add_one, memberDepth_propertyMembers, property,
    Tree.raw, parts_rawMembers (by decide) (names_propertyMembers_sublist p)]
  simp (disch := decide) only [propertyMembers, Option.bind_eq_bind, Option.bind_some,
    List.lookup_append, lookup_flagMember_of_ne, lookup_optionMember_of_ne, Option.or_none,
    Option.none_or, string_of_optionMember, flag_of_flagMember, hnested,
    Kind.ofTag_tag_of_genuine hkind]
  obtain ⟨kind, optional, list, nested⟩ := p
  exact Option.map_eq_bind.symm.trans (map_fit _ nested (Property.mk kind optional list))

theorem fields_of_each {room : Nat} {fs : Fields} (hnodup : (Entries.names fs).Nodup)
    (h : ∀ e ∈ fs, property room e.2.encode.raw = fit room e.2.encode.raw.depth e.2) :
    fields (room + 1) (Fields.encode fs).raw = fit (room + 1) (Fields.encode fs).raw.depth fs := by
  have hencode : Fields.encode fs = .object (fs.map fun e => (e.1, e.2.encode)) :=
    congrArg Tree.object (Fields.encodeMembers_eq_map fs)
  rw [hencode, depth_object, fit_add_one]
  exact entries_rawMembers hnodup h

mutual

theorem property_encode (p : Property)
    (hd : p.Each fun p => ∀ nested ∈ p.fields, (Entries.names nested).Nodup)
    (hg : p.Each fun p => p.kind.Genuine) (room : Nat) :
    property room p.encode.raw = fit room p.encode.raw.depth p := by
  match p, hd, hg, room with
  | p, _, _, 0 =>
      rw [property_encode_eq]
      exact (fit_of_lt (Nat.succ_pos _) p).symm
  | ⟨kind, optional, list, none⟩, _, hg, room + 1 =>
      exact property_of_nested hg (fun _ h => nomatch h)
  | ⟨kind, optional, list, some nested⟩, hd, hg, room + 1 =>
      refine property_of_nested hg.1 fun fs h => ?_
      obtain rfl := Option.some.inj h
      cases room with
      | zero => exact (fit_of_lt (Nat.succ_pos _) nested).symm
      | succ room => exact fields_of_each (hd.1 nested rfl) (properties_encode nested hd.2 hg.2 room)

theorem properties_encode (fs : List (String × Property))
    (hd : Fields.Each (fun p => ∀ nested ∈ p.fields, (Entries.names nested).Nodup) fs)
    (hg : Fields.Each (fun p => p.kind.Genuine) fs) (room : Nat) :
    ∀ e ∈ fs, property room e.2.encode.raw = fit room e.2.encode.raw.depth e.2 := by
  match fs, hd, hg with
  | [], _, _ => exact fun _ he => nomatch he
  | (n, p) :: fs, hd, hg =>
      intro e he
      rcases List.mem_cons.1 he with rfl | he
      · exact property_encode p hd.1 hg.1 room
      · exact properties_encode fs hd.2 hg.2 room e he

end

theorem fields_encode {fs : Fields} (hd : Fields.Distinct fs) (hg : Fields.Genuine fs)
    (room : Nat) : fields room (Fields.encode fs).raw = fit room (Fields.encode fs).raw.depth fs := by
  cases room with
  | zero => exact (fit_of_lt (Nat.succ_pos _) fs).symm
  | succ room => exact fields_of_each hd.1 (properties_encode fs hd.2 hg room)

theorem filter_encode {f : Filter} (hd : ∀ fs ∈ f.containers, Fields.Distinct fs)
    (hg : ∀ fs ∈ f.containers, Fields.Genuine fs) (room : Nat) :
    filter room f.encode.raw = fit room f.encode.raw.depth f := by
  cases f with
  | shape fs =>
      have h := fields_encode (hd fs List.mem_cons_self) (hg fs List.mem_cons_self) room
      cases room with
      | zero => exact (fit_of_lt (Nat.succ_pos _) _).symm
      | succ room => exact (congrArg _ h).trans (map_fit _ fs Filter.shape)
  | union shapes =>
      cases room with
      | zero => exact (fit_of_lt (Nat.succ_pos _) _).symm
      | succ room =>
          have h := elements_rawElements fun fs hfs => fields_encode (hd fs hfs) (hg fs hfs) room
          refine (congrArg _ h).trans ((map_fit _ shapes Filter.union).trans ?_)
          exact (fit_add_one ..).symm

def permitMembers (p : Permit) : List (String × Tree) :=
  optionMember "filter" Filter.encode p.filter ++ (optionMember "effect" Fields.encode p.effect ++
    optionMember "extend" Tree.string p.extend)

theorem permit_encode_eq (p : Permit) : p.encode = .object (permitMembers p) := by
  rw [Permit.encode, List.append_assoc]
  rfl

theorem names_permitMembers_sublist (p : Permit) :
    (Entries.names (permitMembers p)).Sublist ["filter", "effect", "extend"] := by
  simp only [permitMembers, Entries.names_append]
  exact (names_optionMember_sublist "filter" Filter.encode p.filter).append
    ((names_optionMember_sublist "effect" Fields.encode p.effect).append
      (names_optionMember_sublist "extend" Tree.string p.extend))

theorem filter_raw_ne_null (f : Filter) : f.encode.raw ≠ .null := by
  cases f <;> exact Raw.noConfusion

theorem permit_encode {p : Permit} (hd : ∀ fs ∈ p.containers, Fields.Distinct fs)
    (hg : ∀ fs ∈ p.containers, Fields.Genuine fs) (room : Nat) :
    permit room p.encode.raw = fit room p.encode.raw.depth p := by
  have hfilter : ∀ f ∈ p.filter, ∀ room, filter room f.encode.raw = fit room f.encode.raw.depth f := by
    intro f hf
    have hmem : ∀ fs ∈ f.containers, fs ∈ p.containers := by
      intro fs hfs
      rw [Permit.containers, hf]
      exact List.mem_append_left _ hfs
    exact filter_encode (fun fs hfs => hd fs (hmem fs hfs)) (fun fs hfs => hg fs (hmem fs hfs))
  have heffect : ∀ fs ∈ p.effect, ∀ room, fields room (Fields.encode fs).raw =
      fit room (Fields.encode fs).raw.depth fs := by
    intro fs hfs
    have hmem : fs ∈ p.containers := List.mem_append_right _ (Option.mem_toList.2 hfs)
    exact fields_encode (hd fs hmem) (hg fs hmem)
  have hextend : ∀ s ∈ p.extend, ∀ room, string (Tree.string s).raw =
      fit room (Tree.string s).raw.depth s :=
    fun s _ room => (text?_points s).trans (fit_zero s).symm
  cases room with
  | zero =>
      rw [permit_encode_eq]
      exact (fit_of_lt (Nat.succ_pos _) p).symm
  | succ room =>
      have hfilter' := withDefault_optionMember "filter" filter_raw_ne_null
        fun f hf => hfilter f hf room
      have heffect' := withDefault_optionMember "effect" (fun _ => Raw.noConfusion)
        fun fs hfs => heffect fs hfs room
      have hextend' := withDefault_optionMember "extend" (fun _ => Raw.noConfusion)
        fun s hs => hextend s hs room
      rw [permit_encode_eq, depth_object, fit_add_one, permit, Tree.raw,
        parts_rawMembers (by decide) (names_permitMembers_sublist p)]
      simp (disch := decide) only [permitMembers, Option.bind_eq_bind, Option.bind_some,
        List.lookup_append, lookup_optionMember_of_ne, Option.or_none, Option.none_or,
        hfilter', heffect', hextend', memberDepth_append]
      exact fit_bind (fit_bind (Option.map_eq_bind.symm.trans
        (map_fit _ p.extend (Permit.mk p.filter p.effect))))

theorem base_encode_eq (b : Base) :
    b.encode = .object (optionMember "name" Tree.string (some b.name)) :=
  rfl

theorem base_encode (b : Base) (room : Nat) :
    base room b.encode.raw = fit room b.encode.raw.depth b := by
  cases room with
  | zero => exact (fit_of_lt (Nat.succ_pos _) b).symm
  | succ room =>
      have hstring : string (Tree.string b.name).raw = fit room (Tree.string b.name).raw.depth b.name :=
        (text?_points b.name).trans (fit_zero b.name).symm
      have hname := withDefault_some_optionMember "name" "" hstring
      rw [base_encode_eq, depth_object, fit_add_one, base, Tree.raw, parts_rawMembers (by decide)
        (names_optionMember_sublist "name" Tree.string (some b.name))]
      simp only [Option.bind_eq_bind, Option.bind_some, hname]
      exact Option.map_eq_bind.symm.trans (map_fit _ b.name Base.mk)

def encodePermits (permits : List (String × Permit)) : Tree :=
  .object (permits.map fun e => (e.1, e.2.encode))

theorem permits_encode {d : Document} (hd : d.Distinct) (hg : d.Genuine) (room : Nat) :
    permits room (encodePermits d.permits).raw =
      fit room (encodePermits d.permits).raw.depth d.permits := by
  cases room with
  | zero => exact (fit_of_lt (Nat.succ_pos _) _).symm
  | succ room =>
      rw [encodePermits, depth_object, fit_add_one]
      exact entries_rawMembers hd.1 fun e he => permit_encode (hd.2 e he) (hg e he) room

def documentMembers (d : Document) : List (String × Tree) :=
  optionMember "base" Base.encode (some d.base) ++
    optionMember "permit" encodePermits (some d.permits)

theorem document_encode_eq (d : Document) : d.encode = .object (documentMembers d) :=
  rfl

theorem names_documentMembers_sublist (d : Document) :
    (Entries.names (documentMembers d)).Sublist ["base", "permit"] := by
  rw [documentMembers, Entries.names_append]
  exact (names_optionMember_sublist "base" Base.encode _).append
    (names_optionMember_sublist "permit" encodePermits _)

/-- A document that has been written means what it was, if there is room for its brackets. -/
theorem document_encode {d : Document} (hd : d.Distinct) (hg : d.Genuine) (room : Nat) :
    document room d.encode.raw = fit room d.encode.raw.depth d := by
  cases room with
  | zero => exact (fit_of_lt (Nat.succ_pos _) d).symm
  | succ room =>
      have hbase := withDefault_some_optionMember "base" {} (base_encode d.base room)
      have hpermits := withDefault_some_optionMember "permit" [] (permits_encode hd hg room)
      rw [document_encode_eq, depth_object, fit_add_one, document, Tree.raw,
        parts_rawMembers (by decide) (names_documentMembers_sublist d)]
      simp (disch := decide) only [documentMembers, Option.bind_eq_bind, Option.bind_some,
        List.lookup_append, lookup_optionMember_of_ne, Option.or_none, Option.none_or, hbase,
        hpermits, memberDepth_append]
      exact fit_bind (Option.map_eq_bind.symm.trans (map_fit _ d.permits (Document.mk d.base)))

end PermitTypes.Schema.Meaning
