import PermitTypes.Entries
import PermitTypes.Files.Disk

namespace PermitTypes.Files

/-- The most bytes that a path may have. -/
def longestPath : Nat := 4095

def isLongPath (p : Path) : Bool := longestPath < p.size

/-- A file, a directory with all below it, or an entry of another kind. The last stands for what
can be listed and cannot be opened, as a socket. -/
inductive Node where
  | file (content : ByteArray)
  | directory (entries : List (Name × Node))
  | special

/-- A place in a tree, the innermost name first. -/
abbrev Place := List Name

namespace Node

def empty : Node := directory []

def kind : Node → EntryKind
  | file _ => .file
  | directory _ => .directory
  | special => .special

def child? : Node → Name → Option Node
  | directory entries, name => entries.lookup name
  | _, _ => none

/-- What stands where the names lead. -/
def get? : List Name → Node → Option Node
  | [], n => some n
  | name :: names, n =>
    match n.child? name with
    | some inner => inner.get? names
    | none => none

theorem get?_append (names others : List Name) (n : Node) :
    n.get? (names ++ others) = (n.get? names).bind (·.get? others) := by
  induction names generalizing n with
  | nil => rfl
  | cons name names ih =>
    simp only [List.cons_append, get?]
    cases n.child? name with
    | none => rfl
    | some inner => exact ih inner

def at? (root : Node) (place : Place) : Option Node := root.get? place.reverse

theorem at?_cons (root : Node) (name : Name) (place : Place) :
    root.at? (name :: place) = (root.at? place).bind (·.child? name) := by
  simp only [at?, List.reverse_cons, get?_append]
  congr 1
  funext n
  simp only [get?]
  cases n.child? name <;> rfl

/-- The tree with `n` at a place whose directory is there. -/
def set (n : Node) : List Name → Node → Node
  | [], _ => n
  | name :: names, directory entries =>
    match names with
    | [] => directory (Entries.put name n entries)
    | _ :: _ =>
      match entries.lookup name with
      | some inner => directory (Entries.put name (set n names inner) entries)
      | none => directory entries
  | _ :: _, other => other

mutual

/-- The paths of all files, where `p` is the path of the node. A directory whose path is too long
cannot be listed, and special entries are passed over. -/
def filePaths (p : Path) : Node → List Path
  | file _ => [p]
  | directory entries => if isLongPath p then [] else entryPaths p entries
  | special => []

def entryPaths (p : Path) : List (Name × Node) → List Path
  | [] => []
  | (name, n) :: rest => n.filePaths (p.joinName name) ++ entryPaths p rest

end

end Node

end PermitTypes.Files
