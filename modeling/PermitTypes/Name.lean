import PermitTypes.Text.Quoted

namespace PermitTypes

/-- The name of an entry of a directory, or a piece of a path: any bytes. Those that are a text
stand as this text, so that each name is written in one way. -/
inductive Name where
  | text (value : String)
  | raw (bytes : List UInt8) (noText : String.fromUTF8? bytes.toByteArray = none)
  deriving DecidableEq

namespace Name

instance : Coe String Name := ⟨.text⟩

def bytes : Name → List UInt8
  | text value => value.toUTF8.data.toList
  | raw bytes _ => bytes

def size (n : Name) : Nat := n.bytes.length

def text? : Name → Option String
  | text value => some value
  | raw _ _ => none

theorem eq_of_text? {n : Name} {value : String} (h : n.text? = some value) : n = text value := by
  cases n with
  | text other => rw [Option.some.inj h]
  | raw bytes noText => cases h

/-- Whether an ASCII character is in the name. -/
def has (c : Char) : Name → Bool
  | text value => value.toList.contains c
  | raw bytes _ => bytes.contains c.toNat.toUInt8

theorem has_text_eq_false {c : Char} {value : String} :
    (text value).has c = false ↔ c ∉ value.toList := by
  rw [has, List.contains_eq_mem, decide_eq_false_iff_not]

theorem fromUTF8?_bytes (n : Name) : String.fromUTF8? n.bytes.toByteArray = n.text? := by
  cases n with
  | text value =>
    rw [text?, Text.Utf8.fromUTF8?_eq_some_iff]
    simp [bytes, ByteArray.ext_iff]
  | raw bytes noText => exact noText

theorem bytes_inj {a b : Name} : a.bytes = b.bytes ↔ a = b := by
  refine ⟨fun h => ?_, congrArg bytes⟩
  have htext : a.text? = b.text? := by rw [← fromUTF8?_bytes, h, fromUTF8?_bytes]
  cases a <;> cases b
  · rw [Option.some.inj htext]
  · cases htext
  · cases htext
  · cases h
    rfl

/-- Names have the order of their bytes. -/
instance : LE Name := ⟨fun a b => a.bytes ≤ b.bytes⟩

instance : DecidableLE Name := fun a b => inferInstanceAs (Decidable (a.bytes ≤ b.bytes))

theorem le_total (a b : Name) : a ≤ b ∨ b ≤ a := List.le_total a.bytes b.bytes

theorem le_trans {a b c : Name} (hab : a ≤ b) (hbc : b ≤ c) : a ≤ c := List.le_trans hab hbc

theorem le_antisymm {a b : Name} (hab : a ≤ b) (hba : b ≤ a) : a = b :=
  bytes_inj.1 (List.le_antisymm hab hba)

instance : Std.IsLinearOrder Name :=
  .of_le { antisymm := fun _ _ => le_antisymm } { trans := le_trans } { total := le_total }

def parts (n : Name) : List Text.Utf8.Part := Text.Utf8.parts n.bytes

def shown (n : Name) : String := String.ofList (n.parts.map (·.shown))

end Name

end PermitTypes
