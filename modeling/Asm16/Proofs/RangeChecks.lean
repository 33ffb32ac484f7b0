import Mathlib.Tactic.TFAE
import Asm16.Proofs.Literals

/-!
# One range in three places

A number is checked against its field when an instruction is built from numbers, when a statement is
resolved and when an instruction is encoded. Each place finds the field in its own way: building and
resolving look for the operand field that holds no register, and encoding walks operands and fields
side by side. They find the same field, so none lets through what another refuses.
-/

namespace Asm16

namespace Instr

variable {instr : Instr} {field : Field} {value : Int32}

/-- The instruction made anew from its own registers and number. There is no way to make one with a
label. -/
def construct? : Instr → Option (Except BuildError Instr)
  | .alu op r1 r2 => some (ofAlu op r1.val r2.val)
  | .mem op r1 r2 => some (ofMem op r1.val r2.val)
  | .immediate op rd (.value imm) => some (ofImm op rd.val imm)
  | .branch cond rs (.value offset) => some (ofBranch cond rs.val offset)
  | .jump (.value target) => some (ofJump target)
  | .jal (.value target) => some (ofJal target)
  | .sys .nop => some (.ok nop)
  | .sys .halt => some (.ok halt)
  | .immediate _ _ (.label _) | .branch _ _ (.label _) | .jump (.label _) | .jal (.label _) => none

theorem ofIndex_val (reg : Reg) : Reg.ofIndex reg.val = .ok reg :=
  Reg.ofIndex_eq_ok_iff.mpr rfl

theorem construct?_of_value (present : instr.imm? = some (.value value)) :
    instr.construct? = some instr.checked := by
  cases instr with
  | immediate op rd imm =>
      cases present
      simp only [construct?, ofImm, ofIndex_val]
      rfl
  | branch cond rs offset =>
      cases present
      simp only [construct?, ofBranch, ofIndex_val]
      rfl
  | jump target | jal target =>
      cases present
      rfl
  | alu | mem | sys => cases present

theorem construct?_of_no_imm (absent : instr.imm? = none) : instr.construct? = some (.ok instr) := by
  cases instr with
  | alu op r1 r2 =>
      simp only [construct?, ofAlu, ofIndex_val]
      rfl
  | mem op r1 r2 =>
      simp only [construct?, ofMem, ofIndex_val]
      rfl
  | sys op => cases op <;> rfl
  | immediate | branch | jump | jal => cases absent

theorem checked_value (slot : instr.immField? = some field) (present : instr.imm? = some (.value value)) :
    instr.checked =
      if field.Fits value.toInt then .ok instr
      else .error (.immediateOutOfRange value.toInt field.least field.greatest) := by
  simp only [checked, slot, present, Option.bind_some, Imm.value?]

/-- The immediate comes last, and what comes before it always fits. -/
theorem exists_before_imm {imm : Imm} (slot : instr.immField? = some field)
    (present : instr.imm? = some imm) :
    ∃ front registers, instr.opcode.layout.operands = front ++ [field] ∧
      instr.operands = registers ++ [.imm imm] ∧ List.Forall₂ Field.Takes front registers := by
  have r1 := @Field.takes_reg Layout.r1 ⟨rfl, rfl⟩
  cases instr with
  | jump | jal =>
      cases slot
      cases present
      exact ⟨[], [], rfl, rfl, .nil⟩
  | branch cond rs =>
      cases slot
      cases present
      exact ⟨[Layout.r1], [.reg rs], rfl, rfl, .cons (r1 rs) .nil⟩
  | immediate op rd =>
      cases present
      cases op <;> cases slot <;> exact ⟨[Layout.r1], [.reg rd], rfl, rfl, .cons (r1 rd) .nil⟩
  | alu | mem | sys => cases present

theorem encode_of_not_fits (slot : instr.immField? = some field)
    (present : instr.imm? = some (.value value)) (overflows : ¬ field.Fits value.toInt) :
    encode instr = .error (.overflow field.name value.toInt field.least field.greatest) := by
  obtain ⟨front, registers, listed, operands, takes⟩ := exists_before_imm slot present
  obtain ⟨numbers, known, fits⟩ := Field.exists_numbers_iff_takes.mpr takes
  have placed := (mapM_place_eq_ok_iff takes.length_eq).mpr ⟨numbers, known, fits, rfl⟩
  have refused : ((Operand.imm (.value value)).number >>= fun number => field.place number) =
      .error (.overflow field.name value.toInt field.least field.greatest) :=
    if_neg overflows
  obtain ⟨row, member, opcode, func⟩ := instr.exists_row
  have described : instr.row = .ok row := row_eq_ok_iff.mpr ⟨member, opcode, func⟩
  have resolved : instr.label? = none := by simp [label?, present, Imm.label?]
  simp only [encode, resolved, described]
  rw [opcode, listed, operands, List.zip_append takes.length_eq, List.zip_cons_cons,
    mapM_append_error placed refused]
  rfl

end Instr

theorem Program.substitute_value {instr : Instr} {field : Field} {value : Int32}
    (slot : instr.immField? = some field) (present : instr.imm? = some (.value value))
    (table : SymbolTable) (reporting : Reporting) (address : Word) (lineNo : Nat) (line : String) :
    substitute ⟨[.stmt ⟨instr, lineNo, line⟩]⟩ reporting address table =
      if field.Fits value.toInt then .ok [⟨address, instr, lineNo, line⟩]
      else .error [.overflow value.toInt field.least field.greatest address lineNo none] := by
  rw [substitute_singleton, Statement.resolve_value slot present]
  split <;> rfl

namespace Instr

theorem exists_encode_iff_fits {instr : Instr} {field : Field} {value : Int32}
    (slot : instr.immField? = some field) (present : instr.imm? = some (.value value)) :
    (∃ word, encode instr = .ok word) ↔ field.Fits value.toInt := by
  rw [exists_encode_iff_encodable, ← takes_imm_iff_encodable slot present, Field.takes_value_iff]

/-- Building, resolving and encoding accept the same numbers, and name the same number and bounds
when they refuse one. An instruction without an immediate is accepted everywhere. -/
theorem range_checks_coincide (instr : Instr) (table : SymbolTable) (reporting : Reporting)
    (address : Word) (lineNo : Nat) (line : String) :
    let alone : Program := ⟨[.stmt ⟨instr, lineNo, line⟩]⟩
    (∀ value, instr.imm? = some (.value value) → ∃ built field,
      instr.construct? = some built ∧ instr.immField? = some field ∧
      [built = .ok instr,
        alone.substitute reporting address table = .ok [⟨address, instr, lineNo, line⟩],
        ∃ word, encode instr = .ok word,
        field.Fits value.toInt].TFAE ∧
      (¬ field.Fits value.toInt →
        built = .error (.immediateOutOfRange value.toInt field.least field.greatest) ∧
        alone.substitute reporting address table =
          .error [.overflow value.toInt field.least field.greatest address lineNo none] ∧
        encode instr = .error (.overflow field.name value.toInt field.least field.greatest))) ∧
    (instr.imm? = none →
      instr.construct? = some (.ok instr) ∧
      alone.substitute reporting address table = .ok [⟨address, instr, lineNo, line⟩] ∧
      ∃ word, encode instr = .ok word) := by
  intro alone
  refine ⟨?_, ?_⟩
  · intro value present
    obtain ⟨field, slot⟩ := exists_immField present
    have built := checked_value slot present
    have resolved := Program.substitute_value slot present table reporting address lineNo line
    refine ⟨instr.checked, field, construct?_of_value present, slot, ?_, ?_⟩
    · tfae_have 1 ↔ 4 := by
        simp only [built, ite_eq_left_iff, reduceCtorEq, imp_false, not_not]
      tfae_have 2 ↔ 4 := by
        simp only [alone, resolved, ite_eq_left_iff, reduceCtorEq, imp_false, not_not]
      tfae_have 3 ↔ 4 := exists_encode_iff_fits slot present
      tfae_finish
    · intro overflows
      exact ⟨built.trans (if_neg overflows), resolved.trans (if_neg overflows),
        encode_of_not_fits slot present overflows⟩
  · intro absent
    have encodable : instr.Encodable := encodable_of_no_imm absent
    refine ⟨construct?_of_no_imm absent, ?_, exists_encode_iff_encodable.mpr encodable⟩
    rw [Program.substitute_singleton, Statement.resolve_of_encodable encodable]
    rfl

/-- A branch one word out of reach, one just in reach, and an instruction without an immediate. -/
theorem range_checks_coincide_branch :
    ofBranch .nonzero 2 64 = .error (.immediateOutOfRange 64 (-64) 63) ∧
    encode (.branch .nonzero 2 (.value 64)) = .error (.overflow "off7" 64 (-64) 63) ∧
    Program.substitute ⟨[.stmt ⟨.branch .nonzero 2 (.value (-64)), 1, ""⟩]⟩ .all 65534 .empty =
      .ok [⟨65534, .branch .nonzero 2 (.value (-64)), 1, ""⟩] ∧
    ∃ word, encode halt = .ok word := by
  obtain ⟨far, field, made, ⟨⟩, _, refused⟩ :=
    (range_checks_coincide (.branch .nonzero 2 (.value 64)) .empty .all 65534 1 "").1 64 rfl
  obtain ⟨near, field, _, ⟨⟩, accepted, _⟩ :=
    (range_checks_coincide (.branch .nonzero 2 (.value (-64))) .empty .all 65534 1 "").1 (-64) rfl
  have overflow := refused (by decide)
  refine ⟨(Option.some.inj made).trans overflow.1, overflow.2.2, ?_, ?_⟩
  · exact (accepted.out 1 3).mpr (by decide)
  · exact ((range_checks_coincide halt .empty .all 65534 1 "").2 rfl).2.2

end Instr

end Asm16
