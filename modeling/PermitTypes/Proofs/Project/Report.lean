import PermitTypes.Project.Console
import PermitTypes.Proofs.Project.Rendering

namespace PermitTypes.Project

open Files Text Console

/-- The error output, line by line. -/
def Lines (console : Console) (lines : List String) : Prop :=
  console.err = String.join (lines.map (· ++ "\n"))

/-- The error output has a line. -/
def Shows (console : Console) (line : String) : Prop := ∃ lines, Lines console lines ∧ line ∈ lines

namespace Console

theorem err_append (a b : Console) : (a ++ b).err = a.err ++ b.err :=
  rfl

end Console

theorem Lines.append {a b : Console} {xs ys : List String} (ha : Lines a xs) (hb : Lines b ys) :
    Lines (a ++ b) (xs ++ ys) := by
  rw [Lines, err_append, ha, hb, List.map_append, String.join_append]

namespace Compilation

variable (palette : Palette)

/-- The documents that can be rendered, in their order and with their declarations. -/
def rendered (root : Node) (options : Emit.Options) (documents : List Path) :
    List (Path × String) :=
  documents.filterMap fun f => (rendering root options f).toOption.map (f, ·)

end Compilation

end PermitTypes.Project
