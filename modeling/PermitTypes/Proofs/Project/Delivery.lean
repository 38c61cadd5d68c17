import PermitTypes.Project.Compilation
import PermitTypes.Proofs.Files.Writing

namespace PermitTypes.Project

open Files
open View (Keeps Changes Adds Ready Stuck Free)
open Node (Nameable)

namespace Compilation

variable {v w : View} {root : Node} {p q : Path} {name : Name}

/-- The file of an output holds a text. -/
structure Delivered (v : View) (p above : Path) (name : Name) (text : String) : Prop where
  ready : Ready v above
  nameable : Nameable p name
  content : v (spelled p) = some (.file text.toUTF8)

/-- The file of an output can never be written. -/
def Barred (v : View) (p above : Path) (name : Name) : Prop :=
  Stuck v above ∨
    (Ready v above ∧ (¬ Nameable p name ∨ ¬ Free v (spelled p)))

theorem Barred.mono (h : Barred root.view p q name) (hw : Keeps root.view w) :
    Barred w p q name := by
  rcases h with hs | ⟨hr, hn⟩
  · exact .inl (hs.mono hw)
  · exact .inr ⟨hr.mono hw, hn.imp_right hw.not_free⟩

/-- What the attempt to write an output leaves. -/
inductive Written (root : Node) (p above : Path) (name : Name) (text : String) :
    Except Failure Unit → Node → Prop
  | written {after : Node} (changes : Changes (· = spelled p) root.view after.view)
      (delivered : Delivered after.view p above name text) :
      Written root p above name text (.ok ()) after
  | barred {t : Trouble} {after : Node} (adds : Adds root.view after.view)
      (barred : Barred after.view p above name) :
      Written root p above name text (.error (.files t)) after

theorem run_writeOutput_of_unmade (hq : p.parent? = some q) (text : String) {t : Trouble}
    {middle : Node} (h : root.run (Disk.makeDirectories q) = (.error t, middle)) :
    root.run (writeOutput p text) = (.error (.files t), middle) := by
  rw [writeOutput, hq]
  simp only [Node.run_bind, h]
  rfl

theorem run_writeOutput_of_made (hq : p.parent? = some q) (text : String) {middle : Node}
    (h : root.run (Disk.makeDirectories q) = (.ok (), middle)) :
    root.run (writeOutput p text) =
      match middle.writeAt p text with
      | .error t => (.error (.files t), middle)
      | .ok after => (.ok (), after) := by
  rw [writeOutput, hq]
  simp only [Node.run_bind, h, Node.run_write, Node.changed]
  cases middle.writeAt p text <;> rfl

theorem run_writeOutput (hroot : root.IsTree) (h : Output p q name) (text : String) :
    ∃ result after, root.run (writeOutput p text) = (result, after) ∧ after.IsTree ∧
      Written root p q name text result after := by
  obtain ⟨made, middle, hmake, htree, hadds, hcases⟩ :=
    Node.run_makeDirectories hroot h.slashFree_above h.above.trimmed
  rcases hcases with ⟨rfl, hready⟩ | ⟨t, rfl, hstuck⟩
  · rw [run_writeOutput_of_made h.parent text hmake]
    rcases Node.writeAt_output h htree.wellFormed hready text with
      ⟨hbar, t, hw⟩ | ⟨hn, hfree, after, hw, hwf, hview, -⟩
    · rw [hw]
      exact ⟨_, _, rfl, htree, .barred hadds (.inr ⟨hready, hbar⟩)⟩
    · rw [hw]
      have hput : Changes (· = spelled p) middle.view after.view := by
        rw [hview]
        exact View.changes_file hfree _
      have hcontent : after.view (spelled p) = some (.file text.toUTF8) := by
        rw [hview, Function.update_self]
      exact ⟨_, _, rfl, htree.of_keeps hput.keeps hwf, .written ((hadds.changes _).trans hput)
        ⟨hready.mono hput.keeps, hn, hcontent⟩⟩
  · exact ⟨_, _, run_writeOutput_of_unmade h.parent text hmake, htree,
      .barred hadds (.inl hstuck)⟩

/-- Where the directory is there, and nothing but a file stands at the place, only the file is
new. -/
theorem run_writeOutput_of_free (hroot : root.IsTree) (h : Output p q name)
    (hready : Ready root.view q) (hn : Nameable p name)
    (hfree : Free root.view (spelled p)) (text : String) :
    ∃ after, root.run (writeOutput p text) = (.ok (), after) ∧
      after.view = Function.update root.view (spelled p) (some (.file text.toUTF8)) := by
  rw [run_writeOutput_of_made h.parent text
    (Node.run_makeDirectories_of_ready hroot.top h.above.trimmed hready)]
  rcases Node.writeAt_output h hroot.wellFormed hready text with
    ⟨hbar | htaken, -⟩ | ⟨-, -, after, hw, -, hview, -⟩
  · exact absurd hn hbar
  · exact absurd hfree htaken
  · rw [hw]
    exact ⟨after, rfl, hview⟩

/-- To write a text once more changes nothing. -/
theorem run_writeOutput_of_delivered (hroot : root.IsTree) (h : Output p q name) {text : String}
    (hd : Delivered root.view p q name text) : root.run (writeOutput p text) = (.ok (), root) := by
  rw [run_writeOutput_of_made h.parent text
    (Node.run_makeDirectories_of_ready hroot.top h.above.trimmed hd.ready)]
  rcases Node.writeAt_output h hroot.wellFormed hd.ready text with
    ⟨hn | htaken, -⟩ | ⟨-, -, after, hw, -, -, hsame⟩
  · exact absurd hd.nameable hn
  · refine absurd (fun e he => ?_) htaken
    rw [hd.content] at he
    cases he
    rfl
  · rw [hw, hsame hd.content]

/-- What can never be written fails without a change. -/
theorem run_writeOutput_of_barred (hroot : root.IsTree) (h : Output p q name)
    (hb : Barred root.view p q name) (text : String) :
    ∃ t, root.run (writeOutput p text) = (.error (.files t), root) := by
  rcases hb with hs | ⟨hready, hbar⟩
  · obtain ⟨t, ht⟩ := Node.run_makeDirectories_of_stuck hroot.top h.above.trimmed hs
    exact ⟨t, run_writeOutput_of_unmade h.parent text ht⟩
  · rw [run_writeOutput_of_made h.parent text
      (Node.run_makeDirectories_of_ready hroot.top h.above.trimmed hready)]
    rcases Node.writeAt_output h hroot.wellFormed hready text with
      ⟨-, t, hw⟩ | ⟨hn, hfree, -⟩
    · exact ⟨t, by rw [hw]⟩
    · rcases hbar with hb | hb
      · exact absurd hn hb
      · exact absurd hfree hb

end Compilation

end PermitTypes.Project
