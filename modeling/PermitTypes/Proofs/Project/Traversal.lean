import PermitTypes.Proofs.EntryOrder
import PermitTypes.Proofs.Project.Outputs

namespace PermitTypes.Project

open Files
open PermitTypes.Path (IsName)

theorem isDocument_joinName {name : Name} (h : IsName name) (p : Path) :
    isDocument (p.joinName name) = name.text?.any isDocumentName := by
  have hlast : (p.joinName name).components = p.components ++ [.name name] :=
    Path.components_below p (List.forall_mem_singleton.2 h)
  rw [isDocument, Path.fileName?, hlast, List.getLast?_concat]
  rfl

mutual

/-- The documents at and below a path, depth first, with the entries of each directory in the order
of the bytes of their names. Nothing is seen of what is in a directory that is shut. -/
def traversal (shut : Path → Bool) (p : Path) : Node → List Path
  | .file _ => if isDocument p then [p] else []
  | .directory entries =>
    if shut p then [] else (Entries.byName (entryTraversals shut p entries)).flatMap (·.2)
  | .special => []

def entryTraversals (shut : Path → Bool) (p : Path) :
    List (Name × Node) → List (Name × List Path)
  | [] => []
  | (name, n) :: rest =>
    (name, traversal shut (p.joinName name) n) :: entryTraversals shut p rest

end

/-- The traversal of what a directory holds, which is nothing if it is not there. -/
def traversalAt (shut : Path → Bool) (root : Node) (dir : Path) : List Path :=
  match root.find dir with
  | .error _ => []
  | .ok spot => traversal shut dir spot.node

section Traversal

variable {shut : Path → Bool}

theorem entryTraversals_eq_map (p : Path) (entries : List (Name × Node)) :
    entryTraversals shut p entries =
      entries.map fun e => (e.1, traversal shut (p.joinName e.1) e.2) := by
  induction entries with
  | nil => rw [entryTraversals, List.map_nil]
  | cons e entries ih => rw [entryTraversals, List.map_cons, ih]

/-- An open directory shows the traversals of its entries one after another. -/
theorem traversal_directory {p : Path} (hopen : shut p = false) (entries : List (Name × Node)) :
    traversal shut p (.directory entries) =
      (Entries.byName entries).flatMap fun e => traversal shut (p.joinName e.1) e.2 := by
  rw [traversal, if_neg (by simp [hopen]), entryTraversals_eq_map, Entries.byName_map,
    List.flatMap_map]

theorem traversal_single {p : Path} (hopen : shut p = false) (name : Name) (n : Node) :
    traversal shut p (.directory [(name, n)]) = traversal shut (p.joinName name) n := by
  rw [traversal_directory hopen, Entries.byName, List.mergeSort_singleton, List.flatMap_singleton]

theorem traversal_of_shut {p : Path} (hshut : shut p = true) (entries : List (Name × Node)) :
    traversal shut p (.directory entries) = [] := by
  rw [traversal, if_pos hshut]

end Traversal

/-- The traversal shows the documents among the files that are listed. -/
theorem perm_traversal {n : Node} (h : n.WellFormed) (p : Path) :
    (traversal isLongPath p n).Perm ((n.filePaths p).filter isDocument) := by
  induction h generalizing p with
  | file content =>
      rw [traversal, Node.filePaths, List.filter_singleton, Bool.cond_eq_ite]
  | special => exact .nil
  | @directory entries _ _ _ ih =>
      cases hl : isLongPath p with
      | true =>
          rw [traversal_of_shut hl, Node.filePaths, if_pos hl]
          exact .rfl
      | false =>
          rw [traversal_directory hl, Node.filePaths, hl, if_neg Bool.false_ne_true,
            Node.entryPaths_eq_flatMap, List.filter_flatMap]
          exact ((Entries.byName_perm entries).flatMap_right _).trans
            (List.Perm.flatMap_left entries fun e he => ih e he _)

theorem exists_below_of_mem_traversal {n : Node} (h : n.WellFormed) {p q : Path}
    (hq : q ∈ traversal isLongPath p n) :
    ∃ names, (∀ name ∈ names, IsName name) ∧ q = p.below names := by
  have hmem := (List.mem_filter.1 ((perm_traversal h p).mem_iff.1 hq)).1
  obtain ⟨names, content, hn, -, hpath⟩ := (Node.mem_filePaths h).1 hmem
  exact ⟨names, (h.get? hn).2, hpath⟩

/-- A traversal goes up in the order of whole paths. Between two entries of one directory their
names decide, which are the first components in which the paths differ. -/
theorem pairwise_traversal {n : Node} (h : n.WellFormed) (p : Path) :
    (traversal isLongPath p n).Pairwise fun a b => a.le b = true := by
  induction h generalizing p with
  | file content =>
      rw [traversal]
      split
      · exact List.pairwise_singleton ..
      · exact .nil
  | special => exact .nil
  | @directory entries distinct proper inside ih =>
      cases hl : isLongPath p with
      | true =>
          rw [traversal_of_shut hl]
          exact .nil
      | false =>
          rw [traversal_directory hl, List.pairwise_flatMap]
          have hmem {e : Name × Node} (he : e ∈ Entries.byName entries) : e ∈ entries :=
            (Entries.byName_perm entries).mem_iff.1 he
          refine ⟨fun e he => ih e (hmem he) _, ?_⟩
          have hdistinct := List.pairwise_map.1 (Entries.names_byName_nodup distinct)
          refine ((Entries.pairwise_byName entries).and hdistinct).imp_of_mem ?_
          -- Whatever is below `e` and below `f`, the paths part at these two names.
          rintro e f he hf ⟨hle, hne⟩ a ha b hb
          obtain ⟨as, has, rfl⟩ := exists_below_of_mem_traversal (inside e (hmem he)) ha
          obtain ⟨bs, hbs, rfl⟩ := exists_below_of_mem_traversal (inside f (hmem hf)) hb
          rw [← Path.below_cons, ← Path.below_cons]
          exact Path.le_below p hle hne (List.forall_mem_cons.2 ⟨proper e (hmem he), has⟩)
            (List.forall_mem_cons.2 ⟨proper f (hmem hf), hbs⟩)

section Documents

variable {root : Node}

theorem perm_traversalAt (h : root.WellFormed) (dir : Path) :
    (traversalAt isLongPath root dir).Perm ((root.filesAt dir).filter isDocument) := by
  rw [traversalAt, Node.filesAt]
  cases hf : root.find dir with
  | error t => exact .nil
  | ok spot => exact perm_traversal (h.get? (Node.view_place_of_find hf).2).1 dir

theorem pairwise_traversalAt (h : root.WellFormed) (dir : Path) :
    (traversalAt isLongPath root dir).Pairwise fun a b => a.le b = true := by
  rw [traversalAt]
  cases hf : root.find dir with
  | error t => exact .nil
  | ok spot => exact pairwise_traversal (h.get? (Node.view_place_of_find hf).2).1 dir

/-- What is listed and then sorted as whole paths is in the order of the traversal. -/
theorem documents_eq_traversalAt (h : root.WellFormed) (dir : Path) :
    documents root dir = traversalAt isLongPath root dir :=
  Path.mergeSort_eq_of_perm (perm_traversalAt h dir).symm (pairwise_traversalAt h dir)
    (eq_of_components_eq h)

/-- The order in which directories list their entries does not count. -/
theorem documents_eq_of_view_eq {other : Node} (h : root.WellFormed) (ho : other.WellFormed)
    (heq : other.view = root.view) (dir : Path) : documents other dir = documents root dir :=
  documents_eq_of_mem_iff h ho fun _ => by rw [mem_documents ho, mem_documents h, heq]

/-- The documents of a tree are found once each and in the order of a depth-first traversal by
name, whatever order its directories list their entries in. -/
theorem documents_in_tree_order (h : root.WellFormed) (dir : Path) :
    documents root dir = traversalAt isLongPath root dir ∧
      (documents root dir).Nodup ∧
      (∀ f, f ∈ documents root dir ↔ ∃ names stem, Source root.view dir f names stem) ∧
      ∀ other : Node, other.WellFormed → other.view = root.view →
        documents other dir = documents root dir :=
  ⟨documents_eq_traversalAt h dir, nodup_documents h dir, fun _ => mem_documents h,
    fun _ ho heq => documents_eq_of_view_eq h ho heq dir⟩

end Documents

section Shelf

def braces : Node := .file "\x7b\x7d".toUTF8

def oldOrders : Node := .directory [("a.permit.json", braces)]

def orders : Node := .directory [("b.permit.json", braces)]

/-- A name in Latin-1, which is no text. -/
def cafe : Name := .raw [0x63, 0x61, 0x66, 0xE9] (by decide)

/-- A byte that is in no text, and then a name as documents have them. -/
def brokenName : Name := .raw (0xFF :: (Name.text "x.permit.json").bytes) (by decide)

def menu : Node := .directory [("m.permit.json", braces)]

def shelves : List (Name × Node) :=
  [(brokenName, braces), ("socket.permit.json", .special), ("orders-old", oldOrders),
    ("orders", orders), ("notes.json", braces), (cafe, menu)]

/-- As texts, the paths of the old orders would come before those of the orders. Of the documents
one is below a name that is no text, and two entries only look like documents. -/
def shelf : Node := .directory [("src", .directory shelves)]

theorem wellFormed_shelf : shelf.WellFormed := by decide +kernel

theorem shelf_in_tree_order :
    shelf.WellFormed ∧ documents shelf (.ofText "/src") =
      [⟨["", "src", cafe, "m.permit.json"]⟩, .ofText "/src/orders/b.permit.json",
        .ofText "/src/orders-old/a.permit.json"] := by
  refine ⟨wellFormed_shelf, (documents_in_tree_order wellFormed_shelf _).1.trans ?_⟩
  have hsorted : Entries.byName shelves = shelves.reverse :=
    Entries.byName_eq_of_perm (by decide) (List.reverse_perm shelves).symm (by decide)
  calc traversalAt isLongPath shelf (.ofText "/src")
    _ = traversal isLongPath (.ofText "/src") (.directory shelves) := rfl
    _ = shelves.reverse.flatMap fun e =>
          traversal isLongPath ((Path.ofText "/src").joinName e.1) e.2 := by
        rw [traversal_directory (by decide +kernel), hsorted]
    _ = traversal isLongPath ⟨["", "src", cafe]⟩ menu ++ ([] ++
          (traversal isLongPath (.ofText "/src/orders") orders ++
            (traversal isLongPath (.ofText "/src/orders-old") oldOrders ++ []))) := by
        rfl
    _ = _ := by
        rw [menu, orders, oldOrders, traversal_single (by decide +kernel),
          traversal_single (by decide +kernel), traversal_single (by decide +kernel)]
        decide +kernel

end Shelf

section Drafts

theorem walk_idle {s : Spot} {entries : List (Name × Node)} (h : s.node = .directory entries)
    {idle : List Name} (hidle : ∀ x ∈ idle, Path.isIdle x = true) (rest : List Name) :
    s.walk (idle ++ rest) = s.walk rest := by
  induction idle with
  | nil => rfl
  | cons x idle ih =>
      obtain ⟨hx, hrest⟩ := List.forall_mem_cons.1 hidle
      have hstep : s.step x = .ok s := by
        rw [Spot.step, h]
        exact if_pos hx
      rw [List.cons_append, Spot.walk, hstep]
      exact ih hrest

def drafts : Node := .directory [("order.permit.json", .file "\x7b\x7d".toUTF8)]

def sources : Node := .directory [("drafts", drafts)]

def draftProject : Node := .directory [("work", .directory [("src", sources)])]

theorem wellFormed_draftProject : draftProject.WellFormed := by decide +kernel

/-- A way to the sources with as many dots in it as given, and on from there. -/
def winding (dots : Nat) (names : List Name) : Path :=
  ⟨.text "" :: .text "work" :: (List.replicate dots (.text ".") ++ .text "src" :: names)⟩

theorem span_dots (dots : Nat) (pieces : List Name) :
    Path.span (List.replicate dots (Name.text ".") ++ pieces) = 2 * dots + Path.span pieces := by
  induction dots with
  | zero => rw [List.replicate_zero, List.nil_append, Nat.mul_zero, Nat.zero_add]
  | succ dots ih =>
      have hdot : (Name.text ".").size = 1 := rfl
      rw [List.replicate_succ, List.cons_append, Path.span_cons, ih, hdot]
      omega

theorem size_winding (dots : Nat) (names : List Name) :
    (winding dots names).size = 2 * dots + 9 + Path.span names := by
  have hsizes : (Name.text "").size = 0 ∧ (Name.text "work").size = 4 ∧
      (Name.text "src").size = 3 := ⟨rfl, rfl, rfl⟩
  rw [Path.size, winding, Path.span_cons, Path.span_cons, span_dots, Path.span_cons, hsizes.1,
    hsizes.2.1, hsizes.2.2]
  omega

theorem base_winding (dots : Nat) :
    (winding dots []).base =
      (.text "" :: .text "work" :: List.replicate dots (.text ".")) ++ [.text "src"] := by
  have hlast : (winding dots []).pieces =
      (.text "" :: .text "work" :: List.replicate dots (.text ".")) ++ [.text "src"] :=
    rfl
  rw [Path.base_of_concat_name hlast (by decide), hlast]

theorem joinName_winding (dots : Nat) (name : Name) :
    (winding dots []).joinName name = winding dots [name] := by
  rw [Path.mk.injEq, Path.pieces_joinName, base_winding, List.append_assoc]
  rfl

theorem isLongPath_winding {dots : Nat} (h : dots ≤ 2043) :
    isLongPath (winding dots []) = false := by
  have hnone : Path.span [] = 0 := rfl
  rw [isLongPath, decide_eq_false_iff_not, longestPath, size_winding, hnone]
  omega

theorem isLongPath_winding_drafts {dots : Nat} (h : 2040 ≤ dots) :
    isLongPath ((winding dots []).joinName "drafts") = true := by
  have hdrafts : Path.span ["drafts"] = 7 := by decide
  rw [joinName_winding, isLongPath, decide_eq_true_eq, longestPath, size_winding, hdrafts]
  omega

theorem refusal?_winding {dots : Nat} {names : List Name} (h : ∀ n ∈ names, n.has '\x00' = false)
    (hlong : isLongPath (winding dots names) = false) :
    Node.refusal? (winding dots names) = none := by
  refine Node.refusal?_eq_none_iff.2 ⟨?_, by simp [winding], hlong⟩
  rw [Node.hasZero, List.any_eq_false]
  intro x hx
  simp only [winding, List.mem_cons, List.mem_append, List.mem_replicate] at hx
  rcases hx with rfl | rfl | ⟨-, rfl⟩ | rfl | hx
  · decide
  · decide
  · decide
  · decide
  · simpa using h x hx

/-- The dots of a winding way lead nowhere. -/
theorem walk_winding (dots : Nat) (entries : List (Name × Node)) (rest : List Name) :
    (Spot.ofRoot (.directory [("work", .directory entries)])).walk
        (.text "" :: .text "work" :: (List.replicate dots (.text ".") ++ rest)) =
      (Spot.mk (.directory entries) [("work", .directory [("work", .directory entries)])]).walk
        rest := by
  have hidle : ∀ x ∈ List.replicate dots (Name.text "."), Path.isIdle x = true := by
    intro x hx
    rw [List.eq_of_mem_replicate hx]
    rfl
  exact walk_idle (s := ⟨.directory entries, [("work", .directory [("work", .directory entries)])]⟩)
    rfl hidle rest

theorem find_winding {dots : Nat} (h : dots ≤ 2043) :
    draftProject.find (winding dots []) =
      .ok ⟨sources, [("src", .directory [("src", sources)]), ("work", draftProject)]⟩ := by
  rw [Node.find, refusal?_winding (fun _ hn => absurd hn List.not_mem_nil) (isLongPath_winding h)]
  exact walk_winding dots _ ["src"]

/-- With no directory shut the traversal shows a document that is not found, since the path of its
directory is too long. -/
theorem winding_drafts_lost :
    draftProject.WellFormed ∧
      traversalAt (fun _ => false) draftProject (winding 2042 []) =
        [((winding 2042 []).joinName "drafts").joinName "order.permit.json"] ∧
      documents draftProject (winding 2042 []) = [] := by
  have hfind := find_winding (show 2042 ≤ 2043 by decide)
  refine ⟨wellFormed_draftProject, ?_, ?_⟩
  · have hdocument : isDocumentName "order.permit.json" = true := by decide
    rw [traversalAt, hfind]
    dsimp only
    rw [sources, traversal_single rfl, drafts, traversal_single rfl, traversal,
      isDocument_joinName (by decide), Name.text?, Option.any_some, if_pos hdocument]
  · rw [documents_eq_traversalAt wellFormed_draftProject, traversalAt, hfind]
    dsimp only
    rw [sources, traversal_single (isLongPath_winding (by omega)), drafts,
      traversal_of_shut (isLongPath_winding_drafts (by omega))]

end Drafts

end PermitTypes.Project
