import BytecodeVerifier.Opcode.Table

/-!
# Mnemonics — the names of the instruction set

Every opcode of the table is found under its mnemonic, so a mnemonic names one opcode only.
-/

namespace BytecodeVerifier.Opcode

/-- An opcode of the table is the one found by its mnemonic. -/
theorem find?_mnemonic : ∀ op ∈ table, find? op.mnemonic = some op := by decide +kernel

theorem eq_of_mnemonic_eq {op op' : Opcode} (h : op ∈ table) (h' : op' ∈ table)
    (e : op.mnemonic = op'.mnemonic) : op = op' :=
  Option.some.inj ((find?_mnemonic op h).symm.trans (e ▸ find?_mnemonic op' h'))

end BytecodeVerifier.Opcode
