import Asm16.Proofs.SingleLine

/-!
# Numerals of any length

A numeral is read exactly or refused, however long it is. Reading limits an immediate to 32 bits and
the index of a register to 64, but the limits themselves fit no field and are the index of no
register, so a number that was limited never passes for another.
-/

namespace Asm16

variable {source : String} {line numeral : List Char} {tokens : List (List Char)} {row : Row}
  {field : Field} {number : Int} {instr : Instr} {config : Config}

/-- Registers, and a numeral for the immediate field behind them. -/
inductive LiteralTokens (row : Row) (field : Field) : List (List Char) → List Reg → Int → Prop
  | mk {registers : List (List Char)} {numeral : List Char} {regs : List Reg} {number : Int}
      (slot : row.opcode.layout.immField? = some field)
      (count : registers.length + 1 = row.opcode.layout.operands.length)
      (accepted : List.Forall₂ RegToken registers regs) (decimal : Decimal numeral number) :
      LiteralTokens row field (registers ++ [numeral]) regs number

theorem Field.nearest_of_fits (inside : field.InWord) (fits : field.Fits number) :
    max (-0x80000000) (min 0x7FFFFFFF number) = number := by
  have bounds := word_bounds_of_fits inside fits
  omega

/-- A number outside 32 bits is too large for a field, and so is the nearest inside. -/
theorem Field.fits_nearest_iff (inside : field.InWord) :
    field.Fits (max (-0x80000000) (min 0x7FFFFFFF number)) ↔ field.Fits number := by
  constructor
  · intro fits
    have bounds := word_bounds_of_fits inside fits
    have same : max (-0x80000000) (min 0x7FFFFFFF number) = number := by omega
    rwa [same] at fits
  · intro fits
    rwa [nearest_of_fits inside fits]

theorem Statement.resolve_value {stmt : Statement} {value : Int32} {table : SymbolTable} {address : Word}
    (slot : stmt.instr.immField? = some field) (present : stmt.instr.imm? = some (.value value)) :
    stmt.resolve table address =
      if field.Fits value.toInt then .ok (stmt.placedAt address)
      else .error (.overflow value.toInt field.least field.greatest address stmt.lineNo none) := by
  simp only [resolve, slot, present, Imm.number, Int32.ofInt_toInt, Instr.withImm_self present]
  rfl

namespace StatementText

section Immediate

variable {regs : List Reg} (form : StatementText source line row tokens)
  (literal : LiteralTokens row field tokens regs number)
include form literal

theorem exists_literal :
    ∃ instr value, readInstr (lineText line) = .ok instr ∧ instr.row = .ok row ∧
      instr.operands = regs.map .reg ++ [.imm (.value value)] ∧ instr.immField? = some field ∧
      instr.imm? = some (.value value) ∧ value.toInt = max (-0x80000000) (min 0x7FFFFFFF number) := by
  obtain ⟨slot, count, accepted, decimal⟩ := literal
  obtain ⟨front, listed, kinds, notReg⟩ := Opcode.operands_of_immField? slot
  rw [listed, List.length_append, List.length_singleton] at count
  obtain ⟨value, nearest⟩ : ∃ value : Int32, value.toInt = max (-0x80000000) (min 0x7FFFFFFF number) :=
    ⟨_, toInt_ofInt_clamp⟩
  have last : OperandToken field.kind _ (.imm (.value value)) := .imm notReg (.value decimal nearest)
  have tokens := (operandTokens_registers kinds (Nat.succ.inj count) accepted).append (.cons last .nil)
  rw [← listed] at tokens
  obtain ⟨instr, read, described, operands⟩ := form.rowText.exists_instr tokens
  have opcode := (Instr.row_eq_ok_iff.mp described).2.1
  have place : instr.immField? = some field := by rw [Instr.immField?, ← opcode, slot]
  have present : instr.imm? = some (.value value) := Instr.imm?_of_mem_operands (by simp [operands])
  exact ⟨instr, value, read, described, operands, place, present, nearest⟩

theorem assemble_of_fits (fits : field.Fits number) (room : config.origin.toNat < 65535) :
    ∃ assembly word instr value, assemble source config = .ok assembly ∧ assembly.words = [word] ∧
      decode word = .ok instr ∧ instr.row = .ok row ∧
      instr.operands = regs.map .reg ++ [.imm (.value value)] ∧ value.toInt = number := by
  obtain ⟨instr, value, read, described, operands, place, present, nearest⟩ := form.exists_literal literal
  have same : value.toInt = number :=
    nearest.trans (Field.nearest_of_fits (Instr.immField?_inWord place) fits)
  have encodable : instr.Encodable :=
    (Instr.takes_imm_iff_encodable place present).mp (Field.takes_value_iff.mpr (same ▸ fits))
  obtain ⟨word, encoded⟩ := Instr.exists_encode_iff_encodable.mpr encodable
  have assembled := form.assemble_of_read read room
  rw [Statement.resolve_of_encodable encodable] at assembled
  simp only [Except.mapError, Statement.placedAt, encoded, bind, Except.bind] at assembled
  exact ⟨_, word, instr, value, assembled, rfl, Instr.encode_eq_ok_iff_decode.mp encoded, described,
    operands, same⟩

theorem assemble_of_not_fits (overflows : ¬ field.Fits number) (room : config.origin.toNat < 65535) :
    assemble source config = .error (.resolve (.overflow (max (-0x80000000) (min 0x7FFFFFFF number))
      field.least field.greatest config.origin 1 none)) := by
  obtain ⟨instr, value, read, _, _, place, present, nearest⟩ := form.exists_literal literal
  have refused : ¬ field.Fits value.toInt := by
    rwa [nearest, Field.fits_nearest_iff (Instr.immField?_inWord place)]
  rw [form.assemble_of_read read room, Statement.resolve_value place present, if_neg refused, nearest]
  rfl

end Immediate

end StatementText

/-- Operands, and behind them a numeral with the mark of a register, where the row takes a register;
then tokens for the other fields. -/
inductive RegisterTokens (row : Row) :
    List (List Char) → List Operand → Int → List Field → List (List Char) → Prop
  | mk {front back : List Field} {field : Field} {before after : List (List Char)}
      {earlier : List Operand} {numeral : List Char} {number : Int}
      (listed : row.opcode.layout.operands = front ++ field :: back) (kind : field.kind = .reg)
      (accepted : OperandTokens front before earlier) (decimal : Decimal numeral number)
      (count : after.length = back.length) :
      RegisterTokens row (before ++ ('$' :: 'r' :: numeral) :: after) earlier number back after

theorem readOperand_of_outside (kind : field.kind = .reg) (decimal : Decimal numeral number)
    (outside : number < 0 ∨ 15 < number) :
    field.readOperand ('$' :: 'r' :: numeral) =
      .error (.registerOutOfRange (max (-0x8000000000000000) (min 0x7FFFFFFFFFFFFFFF number))) := by
  have bounds : Numeral.clamp Int64.minValue.toInt Int64.maxValue.toInt number =
      max (-0x8000000000000000) (min 0x7FFFFFFFFFFFFFFF number) := rfl
  have far : ¬ (0 ≤ max (-0x8000000000000000) (min 0x7FFFFFFFFFFFFFFF number) ∧
      max (-0x8000000000000000) (min 0x7FFFFFFFFFFFFFFF number) < 16) := by omega
  simp only [Field.readOperand, kind, Token.readReg, Token.afterRegisterMark?, Option.bind_some,
    Numeral.decimal?_eq_some_iff.mpr decimal, bounds, Reg.ofIndex, dif_neg far]
  rfl

namespace StatementText

section Register

variable {back : List Field} {after : List (List Char)} {earlier : List Operand}
  (form : StatementText source line row tokens) (register : RegisterTokens row tokens earlier number back after)
include form register

theorem exists_instr_of_register {reg : Reg} {later : List Operand} (index : number = reg.val)
    (rest : OperandTokens back after later) :
    ∃ instr, readInstr (lineText line) = .ok instr ∧ instr.row = .ok row ∧
      instr.operands = earlier ++ .reg reg :: later := by
  obtain ⟨listed, kind, accepted, decimal, _⟩ := register
  have token : RegToken _ reg := .mk (index ▸ decimal)
  have tokens := accepted.append (.cons (token.operandToken kind) rest)
  rw [← listed] at tokens
  exact form.rowText.exists_instr tokens

theorem readInstr_of_outside (outside : number < 0 ∨ 15 < number) :
    readInstr (lineText line) =
      .error (.registerOutOfRange (max (-0x8000000000000000) (min 0x7FFFFFFFFFFFFFFF number))) := by
  obtain ⟨listed, kind, accepted, decimal, count⟩ := register
  have here := accepted.length_eq
  have read := (mapM_readOperand_eq_ok_iff here).mpr accepted
  have fails := readOperand_of_outside kind decimal outside
  rw [form.rowText.readInstr_eq (by simp [listed, here, count]), listed, List.zip_append here.symm,
    List.zip_cons_cons, mapM_append_error read fails]
  rfl

end Register

/-- Numerals of any length are exact or refused. A literal assembles exactly if its field can hold the
number, which decoding then gives back; otherwise it is an overflow that no label caused. A register
is the one whose index its numeral denotes, and out of range if there is none. -/
theorem numerals_exact_or_refused (form : StatementText source line row tokens) :
    (∀ field regs number, LiteralTokens row field tokens regs number →
      ∀ config : Config, config.origin.toNat < 65535 →
        ((∃ assembly, assemble source config = .ok assembly) ↔ field.Fits number) ∧
        (∀ assembly, assemble source config = .ok assembly → ∃ word instr value,
          assembly.words = [word] ∧ decode word = .ok instr ∧ instr.row = .ok row ∧
          instr.operands = regs.map .reg ++ [.imm (.value value)] ∧ value.toInt = number) ∧
        (¬ field.Fits number → assemble source config =
          .error (.resolve (.overflow (max (-0x80000000) (min 0x7FFFFFFF number))
            field.least field.greatest config.origin 1 none)))) ∧
    ∀ earlier number back after, RegisterTokens row tokens earlier number back after →
      (∀ reg : Reg, number = reg.val → ∀ later, OperandTokens back after later →
        ∃ instr, instr.row = .ok row ∧ instr.operands = earlier ++ .reg reg :: later ∧
          ∀ reporting, Program.parseWith reporting source =
            .ok ⟨[.stmt ⟨instr, 1, String.ofList line⟩]⟩) ∧
      (number < 0 ∨ 15 < number → ∀ config, assemble source config =
        .error (.parse ⟨1, String.ofList line,
          .registerOutOfRange (max (-0x8000000000000000) (min 0x7FFFFFFFFFFFFFFF number))⟩)) := by
  refine ⟨?_, ?_⟩
  · intro field regs number literal config room
    by_cases fits : field.Fits number
    · obtain ⟨assembly, word, instr, value, assembled, found⟩ := form.assemble_of_fits literal fits room
      simp only [assembled, Except.ok.injEq, exists_eq', forall_eq']
      exact ⟨iff_of_true trivial fits, ⟨word, instr, value, found⟩, absurd fits⟩
    · have refused := form.assemble_of_not_fits literal fits room
      simp [refused, fits]
  · intro earlier number back after register
    refine ⟨?_, ?_⟩
    · intro reg index later rest
      obtain ⟨instr, read, described, operands⟩ := form.exists_instr_of_register register index rest
      refine ⟨instr, described, operands, fun reporting => ?_⟩
      rw [form.parseWith_eq, read]
      rfl
    · intro outside config
      exact form.assemble_of_error (form.readInstr_of_outside register outside)

/-- A literal with zeros in front at the last origin, and two numerals beyond 64 bits. -/
theorem numerals_exact_or_refused_far :
    (∃ assembly, assemble "lui , $r+07,\t+00000000000000000000255 # top" ⟨65534, .all⟩ = .ok assembly) ∧
    assemble "JUMP, 99999999999999999999999" ⟨2, .all⟩ =
      .error (.resolve (.overflow 2147483647 0 4095 2 1 none)) ∧
    assemble "ADD, $r1, $r-9223372036854775809" ⟨2, .first⟩ =
      .error (.parse ⟨1, "ADD, $r1, $r-9223372036854775809",
        .registerOutOfRange (-9223372036854775808)⟩) := by
  have lui : StatementText "lui , $r+07,\t+00000000000000000000255 # top"
      "lui , $r+07,\t+00000000000000000000255 # top".toList ⟨"LUI", .lui, none⟩
      ["$r+07".toList, "+00000000000000000000255".toList] :=
    statementText_of_tokens "lui".toList (by decide +kernel) (by decide +kernel) (by decide) (by decide)
  have jump : StatementText "JUMP, 99999999999999999999999" "JUMP, 99999999999999999999999".toList
      ⟨"JUMP", .jump, none⟩ ["99999999999999999999999".toList] :=
    statementText_of_tokens "JUMP".toList (by decide +kernel) (by decide +kernel) (by decide) (by decide)
  have add : StatementText "ADD, $r1, $r-9223372036854775809"
      "ADD, $r1, $r-9223372036854775809".toList ⟨"ADD", .alu, some 4⟩
      ["$r1".toList, "$r-9223372036854775809".toList] :=
    statementText_of_tokens "ADD".toList (by decide +kernel) (by decide +kernel) (by decide) (by decide)
  have top : LiteralTokens ⟨"LUI", .lui, none⟩ Layout.unsignedImm8
      (["$r+07".toList] ++ ["+00000000000000000000255".toList]) [7] 255 :=
    .mk rfl rfl (.cons (.mk (Numeral.decimal?_eq_some_iff.mp (by decide +kernel))) .nil)
      (Numeral.decimal?_eq_some_iff.mp (by decide +kernel))
  have far : LiteralTokens ⟨"JUMP", .jump, none⟩ Layout.addr12 ([] ++ ["99999999999999999999999".toList])
      [] 99999999999999999999999 :=
    .mk rfl rfl .nil (Numeral.decimal?_eq_some_iff.mp (by decide +kernel))
  have below : RegisterTokens ⟨"ADD", .alu, some 4⟩ (["$r1".toList] ++ ["$r-9223372036854775809".toList])
      [.reg 1] (-9223372036854775809) [] [] :=
    .mk rfl rfl (.cons (.reg (.mk (Numeral.decimal?_eq_some_iff.mp (by decide +kernel)))) .nil)
      (Numeral.decimal?_eq_some_iff.mp (by decide +kernel)) rfl
  refine ⟨?_, ?_, ?_⟩
  · exact ((numerals_exact_or_refused lui).1 _ _ _ top ⟨65534, .all⟩ (by decide)).1.mpr (by decide)
  · exact ((numerals_exact_or_refused jump).1 _ _ _ far ⟨2, .all⟩ (by decide)).2.2 (by decide)
  · exact ((numerals_exact_or_refused add).2 _ _ _ _ below).2 (by decide) ⟨2, .first⟩

end StatementText

end Asm16
