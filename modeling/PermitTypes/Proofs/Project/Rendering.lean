import PermitTypes.Project.Compilation
import PermitTypes.Project.Emission
import PermitTypes.Proofs.Files.Making

namespace PermitTypes.Project

open Files

/-- It leaves every tree as it is. -/
def Asks {α : Type} (command : StateM Node α) : Prop := ∀ root : Node, (root.run command).2 = root

namespace Asks

variable {α β : Type}

theorem run_eq {command : StateM Node α} (h : Asks command) (root : Node) :
    root.run command = ((root.run command).1, root) :=
  Prod.ext rfl (h root)

theorem pure (a : α) : Asks (Pure.pure a : StateM Node α) := fun _ => rfl

theorem bind {command : StateM Node α} (h : Asks command) {next : α → StateM Node β}
    (hnext : ∀ a, Asks (next a)) : Asks (command >>= next) := by
  intro root
  rw [Node.run_bind, h root]
  exact hnext _ root

theorem read (p : Path) : Asks (Disk.read p : StateM Node _) := fun _ => rfl

theorem isThere (p : Path) : Asks (Disk.isThere p : StateM Node _) := by
  intro root
  rw [Node.run_isThere]

theorem readText (p : Path) : Asks (Disk.readText p : StateM Node _) := by
  refine (read p).bind fun bytes => ?_
  cases bytes with
  | error t => exact pure _
  | ok bytes =>
      dsimp only
      split
      · exact pure _
      · exact pure _

theorem loadDocument (p : Path) : Asks (Project.loadDocument p : StateM Node _) := by
  refine (readText p).bind fun source => ?_
  cases source with
  | error t => exact pure _
  | ok source =>
      dsimp only
      split
      · exact pure _
      · exact pure _

theorem renderFile (render : Schema.Document → Except Emit.DocumentFailure String) (p : Path) :
    Asks (Project.renderFile render p : StateM Node _) := by
  refine (loadDocument p).bind fun document => ?_
  cases document with
  | error f => exact pure _
  | ok d =>
      dsimp only
      split
      · exact pure _
      · exact pure _

theorem loadConfig (project : Path) : Asks (Project.loadConfig project : StateM Node _) := by
  refine (isThere _).bind fun there => ?_
  cases there with
  | false => exact pure _
  | true =>
      refine (readText _).bind fun source => ?_
      cases source with
      | error t => exact pure _
      | ok source =>
          dsimp only
          split
          · exact pure _
          · exact pure _

end Asks

section Reading

variable {root other : Node} {p : Path}

theorem readText_congr (h : root.readAt p = other.readAt p) :
    (root.run (Disk.readText p)).1 = (other.run (Disk.readText p)).1 := by
  simp only [Disk.readText, Node.run_bind, Node.run_read, h]
  cases other.readAt p with
  | error t => rfl
  | ok bytes =>
      dsimp only
      split <;> rfl

theorem readText_eq_ok_iff {source : String} :
    (root.run (Disk.readText p)).1 = .ok source ↔ root.readAt p = .ok source.toUTF8 := by
  simp only [Disk.readText, Node.run_bind, Node.run_read]
  cases root.readAt p with
  | error t => exact iff_of_false nofun nofun
  | ok bytes =>
      dsimp only
      rw [Except.ok.injEq, ← Text.Utf8.fromUTF8?_eq_some_iff]
      cases String.fromUTF8? bytes <;> simp [Node.run_pure]

theorem loadDocument_congr (h : root.readAt p = other.readAt p) :
    (root.run (loadDocument p)).1 = (other.run (loadDocument p)).1 := by
  rw [loadDocument, Node.run_bind, Node.run_bind, readText_congr h]
  cases (other.run (Disk.readText p)).1 with
  | error t => rfl
  | ok source =>
      dsimp only
      split <;> rfl

/-- A document is had from a file whose bytes are a text that can be parsed. -/
theorem loadDocument_eq_ok_iff {d : Schema.Document} :
    (root.run (loadDocument p)).1 = .ok d ↔
      ∃ source, root.readAt p = .ok source.toUTF8 ∧ Schema.Document.parse source = .ok d := by
  simp only [← readText_eq_ok_iff]
  rw [loadDocument, Node.run_bind, (Asks.readText p).run_eq]
  cases (root.run (Disk.readText p)).1 with
  | error t => exact iff_of_false nofun fun ⟨_, h, _⟩ => nomatch h
  | ok source =>
      simp only [Except.ok.injEq, exists_eq_left']
      cases Schema.Document.parse source <;> simp [Node.run_pure]

/-- A config is known from whether it is there and from its bytes. -/
theorem loadConfig_congr {project : Path}
    (hthere : (root.kindAt (project.joinText Config.fileName)).isOk =
      (other.kindAt (project.joinText Config.fileName)).isOk)
    (hread : root.readAt (project.joinText Config.fileName) =
      other.readAt (project.joinText Config.fileName)) :
    (root.run (loadConfig project)).1 = (other.run (loadConfig project)).1 := by
  simp only [loadConfig, Node.run_bind, Node.run_isThere, hthere]
  cases (other.kindAt (project.joinText Config.fileName)).isOk with
  | false => rfl
  | true =>
      simp only [if_true, Node.run_bind, readText_congr hread]
      cases (other.run (Disk.readText (project.joinText Config.fileName))).1 with
      | error t => rfl
      | ok source =>
          dsimp only
          split <;> rfl

theorem loadConfig_of_missing {project : Path}
    (h : (root.kindAt (project.joinText Config.fileName)).isOk = false) :
    (root.run (loadConfig project)).1 = .ok {} := by
  simp only [loadConfig, Node.run_bind, Node.run_isThere, h]
  rfl

theorem loadConfig_of_error {project : Path} {t : Trouble}
    (hthere : (root.kindAt (project.joinText Config.fileName)).isOk = true)
    (hread : root.readAt (project.joinText Config.fileName) = .error t) :
    (root.run (loadConfig project)).1 = .error (.files t) := by
  simp only [loadConfig, Node.run_bind, Node.run_isThere, hthere, if_true, Disk.readText,
    Node.run_read, hread]
  rfl

end Reading

/-- The declarations of a document as it stands in a tree. -/
def rendering (root : Node) (options : Emit.Options) (f : Path) : Except Failure String :=
  (root.run (renderFile (Emit.documentText options) f)).1

section Rendering

variable {root other : Node} {options : Emit.Options} {f : Path}

theorem run_renderFile (root : Node) (options : Emit.Options) (f : Path) :
    root.run (renderFile (Emit.documentText options) f) = (rendering root options f, root) :=
  (Asks.renderFile _ f).run_eq root

theorem rendering_eq (root : Node) (options : Emit.Options) (f : Path) :
    rendering root options f =
      match (root.run (loadDocument f)).1 with
      | .error fl => .error (.load fl)
      | .ok d =>
        match Emit.documentText options d with
        | .error fl => .error (.emit fl)
        | .ok text => .ok text := by
  rw [rendering, renderFile, Node.run_bind]
  cases (root.run (loadDocument f)).1 with
  | error fl => rfl
  | ok d =>
      dsimp only
      cases Emit.documentText options d <;> rfl

/-- Only the bytes of a document matter. -/
theorem rendering_congr (h : root.readAt f = other.readAt f) :
    rendering root options f = rendering other options f := by
  rw [rendering_eq, rendering_eq, loadDocument_congr h]

theorem rendering_eq_ok_iff {text : String} :
    rendering root options f = .ok text ↔
      ∃ source d, root.readAt f = .ok source.toUTF8 ∧ Schema.Document.parse source = .ok d ∧
        Emit.documentText options d = .ok text := by
  have hloaded : rendering root options f = .ok text ↔
      ∃ d, (root.run (loadDocument f)).1 = .ok d ∧ Emit.documentText options d = .ok text := by
    rw [rendering_eq]
    cases (root.run (loadDocument f)).1 with
    | error fl => simp
    | ok d =>
        simp only [Except.ok.injEq, exists_eq_left']
        cases Emit.documentText options d <;> simp
  simp only [hloaded, loadDocument_eq_ok_iff]
  constructor
  · rintro ⟨d, ⟨source, hread, hparse⟩, htext⟩
    exact ⟨source, d, hread, hparse, htext⟩
  · rintro ⟨source, d, hread, hparse, htext⟩
    exact ⟨d, ⟨source, hread, hparse⟩, htext⟩

end Rendering

namespace Compilation

section Deliver

variable {root after : Node} {options : Emit.Options} {f p : Path} {text : String}

theorem run_deliver_of_error {fl : Failure} (h : rendering root options f = .error fl)
    (target : Option Path) : root.run (deliver options target f) = (.error fl, root) := by
  rw [deliver, Node.run_bind, run_renderFile, h]
  rfl

theorem run_deliver_none (h : rendering root options f = .ok text) :
    root.run (deliver options none f) = (.ok (.printed text), root) := by
  rw [deliver, Node.run_bind, run_renderFile, h]
  rfl

theorem run_deliver_some (h : rendering root options f = .ok text) {result : Except Failure Unit}
    (hw : root.run (writeOutput p text) = (result, after)) :
    root.run (deliver options (some p) f) = (result.map fun _ => .written p, after) := by
  rw [deliver, Node.run_bind, run_renderFile, h]
  dsimp only
  rw [Node.run_bind, hw]
  cases result <;> rfl

end Deliver

theorem run_compileAll_cons (root : Node) (plan : Plan) (f : Path) (rest : List Path) :
    root.run (compileAll plan (f :: rest)) =
      let delivered := root.run (deliver plan.options (plan.target f) f)
      let others := delivered.2.run (compileAll plan rest)
      (⟨relativeTo plan.sourceDir f, delivered.1⟩ :: others.1, others.2) :=
  rfl

/-- Documents that are printed leave no trace in the tree. -/
theorem run_compileAll_printed (plan : Plan) (h : plan.toStdout = true) (root : Node)
    (documents : List Path) :
    root.run (compileAll plan documents) =
      (documents.map fun f =>
        ⟨relativeTo plan.sourceDir f, (rendering root plan.options f).map .printed⟩, root) := by
  induction documents with
  | nil => rfl
  | cons f rest ih =>
      have htarget : plan.target f = none := if_pos h
      have hrun : root.run (deliver plan.options (plan.target f) f) =
          ((rendering root plan.options f).map .printed, root) := by
        rw [htarget]
        cases hr : rendering root plan.options f with
        | error fl => exact run_deliver_of_error hr none
        | ok text => exact run_deliver_none hr
      rw [run_compileAll_cons, hrun]
      dsimp only
      rw [ih]
      rfl

end Compilation

end PermitTypes.Project
