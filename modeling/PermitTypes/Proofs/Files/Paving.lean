import Mathlib.Data.List.Infix
import PermitTypes.Proofs.Files.Effects

namespace PermitTypes.Files

namespace View

variable {allowed : Place → Entry → Prop} {v : View} {place : Place} {e : Entry}

/-- Whatever is new or has changed is allowed to stand where it does. -/
def Lays (allowed : Place → Entry → Prop) (v w : View) : Prop :=
  ∀ place e, w place = some e → v place = some e ∨ allowed place e

instance : IsPreorder View (Lays allowed) where
  refl _ _ _ := .inl
  trans u v w huv hvw place e he := by
    rcases hvw place e he with hv | hallowed
    · exact huv place e hv
    · exact .inr hallowed

theorem lays_update (h : allowed place e) : Lays allowed v (Function.update v place (some e)) := by
  intro other e' he
  by_cases ho : other = place
  · subst ho
    rw [Function.update_self] at he
    cases he
    exact .inr h
  · rw [Function.update_of_ne ho] at he
    exact .inl he

end View

open View

/-- Some steps at the front of a path lead to the place. -/
def Passes (p : Path) (place : Place) : Prop := ∃ front, front <+: p.steps ∧ settle [] front = place

instance (p : Path) (place : Place) : Decidable (Passes p place) :=
  decidable_of_iff (∃ front ∈ p.steps.inits, settle [] front = place)
    (by simp only [List.mem_inits, Passes])

namespace Does

variable {allowed : Place → Entry → Prop} {p : Path} {text : String}

theorem lays_makeDirectories (hp : p.Sound)
    (h : ∀ place, Passes p place → allowed place .directory) :
    Does (Lays allowed) (Disk.makeDirectories p : StateM Node _) := by
  apply makeDirectories hp
  intro q hq hfront
  apply changes
  intro root after hroot hmake
  obtain ⟨htree, -, hview⟩ := Node.view_of_makeDirectoryAt hroot hq hmake
  rw [hview]
  exact ⟨htree, lays_update (h _ ⟨q.steps, hfront, rfl⟩)⟩

theorem lays_write (hp : p.Sound) (h : allowed (spelled p) (.file text.toUTF8)) :
    Does (Lays allowed) (Disk.write p text : StateM Node _) := by
  apply changes
  intro root after hroot hwrite
  have hput := Node.put_of_writeAt hroot hp hwrite
  rw [hput.view]
  exact ⟨hput.tree, lays_update h⟩

end Does

end PermitTypes.Files
