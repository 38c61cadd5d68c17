import Mathlib.Logic.Function.Basic
import PermitTypes.Files.Tree
import PermitTypes.Proofs.Entries
import PermitTypes.Proofs.Path.Below

namespace PermitTypes.Files

/-- What stands at a place, without what is below it. -/
inductive Entry where
  | file (content : ByteArray)
  | directory
  | special

instance : DecidableEq Entry
  | .file a, .file b => decidable_of_iff (a.data = b.data) (by simp [ByteArray.ext_iff])
  | .directory, .directory | .special, .special => isTrue rfl
  | .file _, .directory | .file _, .special | .directory, .file _ => isFalse nofun
  | .directory, .special | .special, .file _ | .special, .directory => isFalse nofun

def Entry.kind : Entry → EntryKind
  | file _ => .file
  | directory => .directory
  | special => .special

/-- A tree as its places show it. -/
abbrev View := Place → Option Entry

namespace Node

def entry : Node → Entry
  | file content => .file content
  | directory _ => .directory
  | special => .special

def view (root : Node) : View := fun place => (root.at? place).map entry

theorem kind_entry (n : Node) : n.entry.kind = n.kind := by
  cases n <;> rfl

/-- What stands behind the names, outermost name first. -/
def look (root : Node) (names : List Name) : Option Entry := (root.get? names).map entry

theorem view_eq_look (root : Node) (place : Place) : root.view place = root.look place.reverse :=
  rfl

theorem view_nil (root : Node) : root.view [] = some root.entry :=
  rfl

theorem look_cons (root : Node) (name : Name) (names : List Name) :
    root.look (name :: names) = (root.child? name).bind (·.look names) := by
  rw [look, get?]
  cases root.child? name <;> rfl

theorem look_directory_cons (entries : List (Name × Node)) (name : Name)
    (names : List Name) :
    (directory entries).look (name :: names) = (entries.lookup name).bind (·.look names) :=
  look_cons ..

theorem look_file_cons (content : ByteArray) (name : Name) (names : List Name) :
    (file content).look (name :: names) = none :=
  look_cons ..

theorem look_special_cons (name : Name) (names : List Name) :
    special.look (name :: names) = none :=
  look_cons ..

theorem look_empty_cons (name : Name) (names : List Name) :
    empty.look (name :: names) = none :=
  look_cons ..

/-- Only directories hold something. -/
theorem view_parent {root : Node} {name : Name} {place : Place}
    (h : root.view (name :: place) ≠ none) : root.view place = some .directory := by
  rw [view, at?_cons] at h
  rw [view]
  cases hp : root.at? place with
  | none => rw [hp] at h; exact absurd rfl h
  | some n =>
      cases n with
      | file content => rw [hp] at h; exact absurd rfl h
      | special => rw [hp] at h; exact absurd rfl h
      | directory entries => rfl

theorem at?_of_view_file {root : Node} {place : Place} {content : ByteArray}
    (h : root.view place = some (.file content)) : root.at? place = some (file content) := by
  rw [view, Option.map_eq_some_iff] at h
  obtain ⟨n, hn, he⟩ := h
  cases n with
  | file content' => cases he; exact hn
  | directory entries => cases he
  | special => cases he

theorem at?_eq_file_iff {root : Node} {place : Place} {content : ByteArray} :
    root.at? place = some (file content) ↔ root.view place = some (.file content) :=
  ⟨fun h => by rw [view, h]; rfl, at?_of_view_file⟩

/-- Nothing is below it. -/
def IsLeaf (n : Node) : Prop := ∀ name names, n.look (name :: names) = none

theorem isLeaf_file (content : ByteArray) : (file content).IsLeaf := look_file_cons content

theorem isLeaf_empty : empty.IsLeaf := look_empty_cons

theorem set_cons_concat (n : Node) (first : Name) (names : List Name) (name : Name)
    (entries : List (Name × Node)) :
    set n (first :: (names ++ [name])) (directory entries) =
      match entries.lookup first with
      | some inner => directory (Entries.put first (set n (names ++ [name]) inner) entries)
      | none => directory entries := by
  cases names <;> rfl

theorem look_put {n : Node} (hn : n.IsLeaf) {name : Name} {entries : List (Name × Node)}
    (hold : (directory entries).look [name] ≠ some .directory) (other : List Name) :
    (directory (Entries.put name n entries)).look other =
      if other = [name] then some n.entry else (directory entries).look other := by
  cases other with
  | nil => rfl
  | cons first rest =>
      rw [look_directory_cons, Entries.lookup_put, look_directory_cons]
      by_cases hf : first = name
      · subst hf
        rw [if_pos rfl, Option.bind_some]
        cases rest with
        | nil => rw [if_pos rfl]; rfl
        | cons next rest =>
            rw [hn next rest, if_neg (by simp)]
            cases hl : entries.lookup first with
            | none => rfl
            | some inner =>
                cases inner with
                | file content => exact (look_file_cons content next rest).symm
                | special => exact (look_special_cons next rest).symm
                | directory inner =>
                    rw [look_directory_cons, hl] at hold
                    exact absurd rfl hold
      · rw [if_neg hf, if_neg (by simp [hf])]

/-- Something without anything below it may stand under a new name, or in place of something that
had nothing below it. -/
theorem look_set {n : Node} (hn : n.IsLeaf) {names : List Name} {name : Name} {root : Node}
    (hd : root.look names = some .directory)
    (hold : root.look (names ++ [name]) ≠ some .directory) (other : List Name) :
    (set n (names ++ [name]) root).look other =
      if other = names ++ [name] then some n.entry else root.look other := by
  induction names generalizing root other with
  | nil =>
      cases root with
      | file content => cases hd
      | special => cases hd
      | directory entries => exact look_put hn hold other
  | cons first names ih =>
      cases root with
      | file content => rw [look_file_cons] at hd; cases hd
      | special => rw [look_special_cons] at hd; cases hd
      | directory entries =>
          rw [look_directory_cons] at hd
          rw [List.cons_append, look_directory_cons] at hold
          rw [List.cons_append, set_cons_concat]
          cases hl : entries.lookup first with
          | none => rw [hl] at hd; cases hd
          | some inner =>
              rw [hl, Option.bind_some] at hd hold
              cases other with
              | nil => rfl
              | cons next rest =>
                  simp only [look_directory_cons, Entries.lookup_put, List.cons.injEq]
                  by_cases hf : next = first
                  · subst hf
                    simp only [if_true, true_and, Option.bind_some, hl]
                    exact ih hd hold rest
                  · simp only [hf, if_false, false_and]

theorem view_setBelow {root n : Node} (hn : n.IsLeaf) {spot : Spot} {name : Name}
    (hd : root.view spot.place = some .directory)
    (hold : root.view (name :: spot.place) ≠ some .directory) :
    (root.setBelow spot name n).view =
      Function.update root.view (name :: spot.place) (some n.entry) := by
  funext other
  rw [view_eq_look, List.reverse_cons] at hold
  rw [setBelow, view_eq_look, List.reverse_cons, look_set hn hd hold, Function.update_apply]
  simp only [← List.reverse_cons, List.reverse_inj, view_eq_look]

theorem put_of_lookup {name : Name} {n : Node} {entries : List (Name × Node)}
    (h : entries.lookup name = some n) : Entries.put name n entries = entries := by
  induction entries with
  | nil => cases h
  | cons e entries ih =>
      obtain ⟨m, a⟩ := e
      by_cases hm : m = name
      · subst hm
        rw [Entries.lookup_cons_self] at h
        rw [Entries.put, if_pos rfl, Option.some.inj h]
      · rw [Entries.lookup_cons_of_ne (Ne.symm hm)] at h
        rw [Entries.put, if_neg hm, ih h]

/-- To put in place what is there already changes nothing. -/
theorem set_of_get? {n root : Node} {names : List Name} {name : Name}
    (h : root.get? (names ++ [name]) = some n) : set n (names ++ [name]) root = root := by
  induction names generalizing root with
  | nil =>
      rw [List.nil_append, get?] at h
      cases root with
      | file content => rfl
      | special => rfl
      | directory entries =>
          have hl : entries.lookup name = some n := by
            cases hc : (directory entries).child? name with
            | none => rw [hc] at h; cases h
            | some inner => rw [hc] at h; exact hc.trans h
          rw [List.nil_append, set, put_of_lookup hl]
  | cons first names ih =>
      cases root with
      | file content => rfl
      | special => rfl
      | directory entries =>
          rw [List.cons_append, set_cons_concat]
          rw [List.cons_append, get?] at h
          cases hc : (directory entries).child? first with
          | none => rw [hc] at h; cases h
          | some inner =>
              rw [hc] at h
              have hl : entries.lookup first = some inner := hc
              simp only [hl, ih h, put_of_lookup hl]

theorem setBelow_of_view {root : Node} {spot : Spot} {name : Name} {content : ByteArray}
    (h : root.view (name :: spot.place) = some (.file content)) :
    root.setBelow spot name (file content) = root := by
  have hat := at?_of_view_file h
  rw [at?, List.reverse_cons] at hat
  rw [setBelow, List.reverse_cons]
  exact set_of_get? hat

/-- Names below a directory are distinct, and each could be part of a path. -/
inductive WellFormed : Node → Prop
  | file (content : ByteArray) : WellFormed (.file content)
  | directory {entries : List (Name × Node)} (distinct : (Entries.names entries).Nodup)
      (proper : ∀ e ∈ entries, Path.IsName e.1) (inside : ∀ e ∈ entries, e.2.WellFormed) :
      WellFormed (.directory entries)
  | special : WellFormed .special

mutual

def isWellFormed : Node → Bool
  | file _ => true
  | directory entries => decide (Entries.names entries).Nodup && areWellFormed entries
  | special => true

def areWellFormed : List (Name × Node) → Bool
  | [] => true
  | (name, n) :: rest => decide (Path.IsName name) && n.isWellFormed && areWellFormed rest

end

mutual

theorem isWellFormed_iff (n : Node) : n.isWellFormed = true ↔ n.WellFormed := by
  cases n with
  | file content => exact iff_of_true rfl (.file content)
  | directory entries =>
      rw [isWellFormed, Bool.and_eq_true, decide_eq_true_eq, areWellFormed_iff entries]
      constructor
      · rintro ⟨hdistinct, hentries⟩
        exact .directory hdistinct (fun e he => (hentries e he).1) fun e he => (hentries e he).2
      · intro h
        cases h with
        | directory distinct proper inside =>
            exact ⟨distinct, fun e he => ⟨proper e he, inside e he⟩⟩
  | special => exact iff_of_true rfl .special

theorem areWellFormed_iff (entries : List (Name × Node)) : areWellFormed entries = true ↔
    ∀ e ∈ entries, Path.IsName e.1 ∧ e.2.WellFormed := by
  match entries with
  | [] => exact iff_of_true rfl (List.forall_mem_nil _)
  | (name, n) :: rest =>
      rw [areWellFormed, Bool.and_eq_true, Bool.and_eq_true, decide_eq_true_eq,
        isWellFormed_iff n, areWellFormed_iff rest, List.forall_mem_cons]

end

instance (n : Node) : Decidable n.WellFormed := decidable_of_iff _ (isWellFormed_iff n)

theorem wellFormed_empty : empty.WellFormed := by decide

theorem WellFormed.put {entries : List (Name × Node)} (h : (Node.directory entries).WellFormed)
    {name : Name} (hname : Path.IsName name) {n : Node} (hn : n.WellFormed) :
    (Node.directory (Entries.put name n entries)).WellFormed := by
  cases h with
  | directory distinct proper inside =>
      refine .directory (Entries.nodup_names_put distinct name n) (fun e he => ?_) fun e he => ?_
      · rcases Entries.mem_of_mem_put he with rfl | he
        · exact hname
        · exact proper e he
      · rcases Entries.mem_of_mem_put he with rfl | he
        · exact hn
        · exact inside e he

theorem WellFormed.child {entries : List (Name × Node)} (h : (Node.directory entries).WellFormed)
    {name : Name} {n : Node} (hl : entries.lookup name = some n) :
    Path.IsName name ∧ n.WellFormed := by
  cases h with
  | directory distinct proper inside =>
      exact ⟨proper _ (Entries.mem_of_lookup hl), inside _ (Entries.mem_of_lookup hl)⟩

theorem WellFormed.set {n root : Node} (hn : n.WellFormed) {names : List Name} {name : Name}
    (hname : Path.IsName name) (hroot : root.WellFormed) :
    (Node.set n (names ++ [name]) root).WellFormed := by
  induction names generalizing root with
  | nil =>
      cases root with
      | file content => exact hroot
      | special => exact hroot
      | directory entries => exact hroot.put hname hn
  | cons first names ih =>
      cases root with
      | file content => exact hroot
      | special => exact hroot
      | directory entries =>
          rw [List.cons_append, set_cons_concat]
          cases hl : entries.lookup first with
          | none => exact hroot
          | some inner =>
              obtain ⟨hfirst, hinner⟩ := hroot.child hl
              exact hroot.put hfirst (ih hinner)

theorem WellFormed.get? {root n : Node} (h : root.WellFormed) {names : List Name}
    (hn : root.get? names = some n) : n.WellFormed ∧ ∀ name ∈ names, Path.IsName name := by
  induction names generalizing root with
  | nil =>
      cases hn
      exact ⟨h, fun _ hm => absurd hm List.not_mem_nil⟩
  | cons name names ih =>
      cases root with
      | file content => cases hn
      | special => cases hn
      | directory entries =>
          rw [Node.get?] at hn
          cases hc : (Node.directory entries).child? name with
          | none => rw [hc] at hn; cases hn
          | some inner =>
              rw [hc] at hn
              obtain ⟨hname, hinner⟩ := h.child hc
              obtain ⟨hn, hnames⟩ := ih hinner hn
              refine ⟨hn, fun m hm => ?_⟩
              rcases List.mem_cons.1 hm with rfl | hm
              · exact hname
              · exact hnames m hm

/-- A tree as file systems have them. -/
structure IsTree (root : Node) : Prop where
  top : root.entry = .directory
  wellFormed : root.WellFormed

end Node

end PermitTypes.Files
