import RegArith.Text.Describe

/-!
# Registers

The machine registers that generated code uses, by their assembly names. Four of them are the
storage that a program may name.

## Main definitions

* `Register`, `Register.name`, `Register.ofName?`
* `Register.storage` — the registers a program may name
-/

namespace RegArith

/-- A 64-bit machine register. -/
inductive Register where
  /-- Holds the value of an expression. -/
  | rax
  /-- Holds the second operand of an operation. -/
  | rbx
  /-- Holds the counter of a loop. -/
  | rcx
  | rdi
  | rsi
  | r10
  | r11
  | r12
  | r13
deriving DecidableEq

namespace Register

/-- All registers. -/
def all : List Register := [rax, rbx, rcx, rdi, rsi, r10, r11, r12, r13]

/-- The registers that a program may name. -/
def storage : List Register := [r10, r11, r12, r13]

/-- The assembly name. -/
def name : Register → String
  | rax => "rax"
  | rbx => "rbx"
  | rcx => "rcx"
  | rdi => "rdi"
  | rsi => "rsi"
  | r10 => "r10"
  | r11 => "r11"
  | r12 => "r12"
  | r13 => "r13"

/-- The register with the given name. -/
def ofName? (s : String) : Option Register := all.find? (·.name == s)

/-- The message for a text that is the name of no register. -/
def unknownNameMessage : String := "Matching variant not found"

theorem name_injective {a b : Register} (h : a.name = b.name) : a = b := by
  revert h
  cases a <;> cases b <;> decide

theorem length_name (r : Register) : r.name.length = 3 := by
  cases r <;> rfl

/-- Names of registers are equally long, so that what follows one of them is known. -/
theorem name_append_inj {r r' : Register} {cs cs' : List Char}
    (h : r.name.toList ++ cs = r'.name.toList ++ cs') : r = r' ∧ cs = cs' := by
  have hlength : r.name.toList.length = r'.name.toList.length := by
    rw [String.length_toList, String.length_toList, r.length_name, r'.length_name]
  obtain ⟨hname, hrest⟩ := List.append_inj h hlength
  exact ⟨name_injective (String.toList_inj.1 hname), hrest⟩

theorem ofName?_name (r : Register) : ofName? r.name = some r := by
  cases r <;> decide

instance : Describe Register := ⟨fun r => r.name.toUpper⟩

end Register

end RegArith
