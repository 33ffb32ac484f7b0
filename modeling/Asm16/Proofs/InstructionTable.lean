import Mathlib.Data.List.Pairwise
import Asm16.Instr.Build
import Asm16.Proofs.Reporting

namespace Asm16

theorem find?_eq_some_iff_of_unique {α : Type} {elements : List α} {property : α → Bool} {found : α}
    (unique : ∀ left ∈ elements, ∀ right ∈ elements, property left → property right → left = right) :
    elements.find? property = some found ↔ found ∈ elements ∧ property found := by
  constructor
  · intro search
    exact ⟨List.mem_of_find?_eq_some search, List.find?_some search⟩
  · intro ⟨member, holds⟩
    cases search : elements.find? property with
    | none => exact absurd holds (List.find?_eq_none.mp search found member)
    | some other =>
        rw [unique other (List.mem_of_find?_eq_some search) found member (List.find?_some search) holds]

theorem find?_code_eq_some_iff {α : Type} {elements : List α} {code : α → Nat} {wanted : Nat} {found : α}
    (complete : ∀ element, element ∈ elements) (injective : Function.Injective code) :
    elements.find? (code · = wanted) = some found ↔ code found = wanted := by
  rw [find?_eq_some_iff_of_unique]
  · simp [complete found]
  · intro left _ right _ leftCode rightCode
    exact injective ((of_decide_eq_true leftCode).trans (of_decide_eq_true rightCode).symm)

theorem Opcode.code_injective : Function.Injective Opcode.code :=
  fun left right => by cases left <;> cases right <;> decide

theorem Opcode.ofCode_eq_ok_iff {code : Nat} {opcode : Opcode} :
    Opcode.ofCode code = .ok opcode ↔ opcode.code = code := by
  rw [← find?_code_eq_some_iff Opcode.mem_all Opcode.code_injective, Opcode.ofCode]
  cases Opcode.all.find? (·.code = code) <;> simp

namespace Row

theorem ofFunction_eq_ok_iff {opcode : Opcode} {func : Option Nat} {row : Row} :
    ofFunction opcode func = .ok row ↔ row ∈ all ∧ row.opcode = opcode ∧ row.func = func := by
  have search : all.find? (fun row => row.opcode = opcode ∧ row.func = func) = some row ↔
      row ∈ all ∧ row.opcode = opcode ∧ row.func = func := by
    rw [find?_eq_some_iff_of_unique]
    · simp
    · intro left leftMember right rightMember leftFits rightFits
      by_contra different
      have symmetric : Std.Symm fun left right : Row =>
        (left.opcode, left.func) ≠ (right.opcode, right.func) := ⟨fun _ _ => Ne.symm⟩
      have distinct := all_encodings_distinct.forall leftMember rightMember different
      simp_all
  rw [← search, ofFunction]
  cases all.find? (fun row => row.opcode = opcode ∧ row.func = func) <;> simp

theorem sameMnemonic_iff {left right : String} :
    sameMnemonic left right ↔ left.toList.map Char.toLower = right.toList.map Char.toLower :=
  beq_iff_eq

theorem ofMnemonic_eq_ok_iff {mnemonic : String} {row : Row} :
    ofMnemonic mnemonic = .ok row ↔ row ∈ all ∧ sameMnemonic row.mnemonic mnemonic := by
  have search : all.find? (fun row => sameMnemonic row.mnemonic mnemonic) = some row ↔
      row ∈ all ∧ sameMnemonic row.mnemonic mnemonic := by
    apply find?_eq_some_iff_of_unique
    intro left leftMember right rightMember leftSame rightSame
    by_contra different
    have symmetric : Std.Symm fun left right : Row =>
        sameMnemonic left.mnemonic right.mnemonic = false :=
      ⟨fun _ _ apart => by simpa [sameMnemonic, Bool.beq_comm] using apart⟩
    have distinct := all_mnemonics_distinct.forall leftMember rightMember different
    rw [sameMnemonic_iff] at leftSame rightSame
    simp [sameMnemonic, leftSame, rightSame] at distinct
  rw [← search, ofMnemonic]
  cases all.find? (fun row => sameMnemonic row.mnemonic mnemonic) <;> simp

end Row

theorem AluOp.ofCode?_eq_some_iff {code : Nat} {op : AluOp} :
    AluOp.ofCode? code = some op ↔ op.code = code :=
  find?_code_eq_some_iff (fun op => by cases op <;> decide)
    (fun left right => by cases left <;> cases right <;> decide)

theorem MemOp.ofCode?_eq_some_iff {code : Nat} {op : MemOp} :
    MemOp.ofCode? code = some op ↔ op.code = code :=
  find?_code_eq_some_iff (fun op => by cases op <;> decide)
    (fun left right => by cases left <;> cases right <;> decide)

theorem Cond.ofCode?_eq_some_iff {code : Nat} {cond : Cond} :
    Cond.ofCode? code = some cond ↔ cond.code = code :=
  find?_code_eq_some_iff (fun cond => by cases cond <;> decide)
    (fun left right => by cases left <;> cases right <;> decide)

theorem SysOp.ofCode?_eq_some_iff {code : Nat} {op : SysOp} :
    SysOp.ofCode? code = some op ↔ op.code = code :=
  find?_code_eq_some_iff (fun op => by cases op <;> decide)
    (fun left right => by cases left <;> cases right <;> decide)

theorem Reg.ofIndex_eq_ok_iff {index : Int} {reg : Reg} :
    Reg.ofIndex index = .ok reg ↔ (reg.val : Int) = index := by
  unfold Reg.ofIndex
  split
  · rw [Except.ok.injEq, Fin.ext_iff]
    constructor <;> intro same <;> simp only at same ⊢ <;> omega
  · have range := reg.isLt
    simp only [reduceCtorEq, false_iff]
    omega

namespace Row

variable {row : Row} {operands : List Operand} {index : Nat}

theorem select_eq_ok_iff {α : Type} {ofCode? : Nat → Option α} {function : α} :
    row.select ofCode? = .ok function ↔ ∃ code, row.func = some code ∧ ofCode? code = some function := by
  cases func : row.func with
  | none => simp [select, func]
  | some code => cases found : ofCode? code <;> simp [select, func, found]

theorem regAt_eq_ok_iff {reg : Reg} :
    row.regAt operands index = .ok reg ↔ operands[index]? = some (.reg reg) := by
  rcases found : operands[index]? with _ | _ | _ <;> simp [regAt, found]

theorem immAt_eq_ok_iff {imm : Imm} :
    row.immAt operands index = .ok imm ↔ operands[index]? = some (.imm imm) := by
  rcases found : operands[index]? with _ | _ | _ <;> simp [immAt, found]

end Row

/-- The operand can stand in a field of the kind. -/
def Operand.Matches : Operand → FieldKind → Prop
  | .reg _, kind => kind = .reg
  | .imm _, kind => kind ≠ .reg

theorem Operand.Matches.exists_reg {operand : Operand} (suits : operand.Matches .reg) :
    ∃ reg, operand = .reg reg := by
  cases operand with
  | reg reg => exact ⟨reg, rfl⟩
  | imm imm => exact absurd rfl suits

theorem Operand.Matches.exists_imm {operand : Operand} {kind : FieldKind} (suits : operand.Matches kind)
    (number : kind ≠ .reg) : ∃ imm, operand = .imm imm := by
  cases operand with
  | reg reg => exact absurd suits number
  | imm imm => exact ⟨imm, rfl⟩

/-- The immediate is the last operand, behind the registers. -/
theorem Opcode.operands_of_immField? {opcode : Opcode} {field : Field}
    (slot : opcode.layout.immField? = some field) :
    ∃ front, opcode.layout.operands = front ++ [field] ∧ (∀ other ∈ front, other.kind = .reg) ∧
      field.kind ≠ .reg := by
  cases opcode with
  | alu | mem | sys => cases slot
  | jump | jal =>
      cases slot
      exact ⟨[], rfl, nofun, nofun⟩
  | addi | andi | ori | lui | br =>
      cases slot
      exact ⟨[Layout.r1], rfl, by simp [Layout.r1], nofun⟩

namespace Instr

variable {row : Row} {operands : List Operand} {instr : Instr}

theorem operands_match (instr : Instr) :
    List.Forall₂ (fun field operand => Operand.Matches operand field.kind)
      instr.opcode.layout.operands instr.operands := by
  cases instr with
  | immediate op =>
      cases op <;> simp [opcode, ImmOp.opcode, Opcode.layout, Instr.operands, Operand.Matches,
        Layout.r1, Layout.signedImm8, Layout.unsignedImm8]
  | _ =>
      simp [opcode, Opcode.layout, Instr.operands, Operand.Matches, Layout.r1, Layout.r2,
        Layout.off7, Layout.addr12]

theorem imm_mem_operands {imm : Imm} (present : instr.imm? = some imm) : .imm imm ∈ instr.operands := by
  cases instr <;> simp_all [imm?, Instr.operands]

theorem imm?_of_mem_operands {imm : Imm} (member : .imm imm ∈ instr.operands) :
    instr.imm? = some imm := by
  cases instr <;> simp_all [imm?, Instr.operands]

theorem length_of_ofOperands (built : ofOperands row operands = .ok instr) :
    operands.length = row.opcode.layout.operands.length := by
  by_contra different
  simp [ofOperands, different] at built

theorem eq_pair_of_getElem? {first second : Operand} (length : operands.length = 2)
    (left : operands[0]? = some first) (right : operands[1]? = some second) :
    operands = [first, second] := by
  obtain ⟨_, _, rfl⟩ := List.length_eq_two.mp length
  cases left
  cases right
  rfl

theorem eq_singleton_of_getElem? {only : Operand} (length : operands.length = 1)
    (left : operands[0]? = some only) : operands = [only] := by
  obtain ⟨_, rfl⟩ := List.length_eq_one_iff.mp length
  cases left
  rfl

theorem immOfOperands_eq_ok_iff {op : ImmOp} (length : operands.length = 2) :
    immOfOperands op row operands = .ok instr ↔
      ∃ rd imm, operands = [.reg rd, .imm imm] ∧ instr = .immediate op rd imm := by
  simp only [immOfOperands, bind_eq_ok_iff, Row.regAt_eq_ok_iff, Row.immAt_eq_ok_iff]
  constructor
  · intro ⟨rd, first, imm, second, built⟩
    cases built
    exact ⟨rd, imm, eq_pair_of_getElem? length first second, rfl⟩
  · intro ⟨rd, imm, listed, built⟩
    subst listed built
    exact ⟨rd, rfl, imm, rfl, rfl⟩

theorem ofOperands_sound (built : ofOperands row operands = .ok instr) :
    instr.opcode = row.opcode ∧ instr.operands = operands ∧
      (row.opcode.layout.func.isSome → instr.func? = row.func) := by
  have length := length_of_ofOperands built
  simp only [ofOperands, if_pos length] at built
  cases shape : row.opcode with
  | alu =>
      simp only [shape, bind_eq_ok_iff, Row.select_eq_ok_iff, Row.regAt_eq_ok_iff,
        AluOp.ofCode?_eq_some_iff] at built length
      obtain ⟨op, ⟨code, func, rfl⟩, r1, first, r2, second, ⟨⟩⟩ := built
      exact ⟨rfl, (eq_pair_of_getElem? length first second).symm, fun _ => func.symm⟩
  | mem =>
      simp only [shape, bind_eq_ok_iff, Row.select_eq_ok_iff, Row.regAt_eq_ok_iff,
        MemOp.ofCode?_eq_some_iff] at built length
      obtain ⟨op, ⟨code, func, rfl⟩, r1, first, r2, second, ⟨⟩⟩ := built
      exact ⟨rfl, (eq_pair_of_getElem? length first second).symm, fun _ => func.symm⟩
  | br =>
      simp only [shape, bind_eq_ok_iff, Row.select_eq_ok_iff, Row.regAt_eq_ok_iff,
        Row.immAt_eq_ok_iff, Cond.ofCode?_eq_some_iff] at built length
      obtain ⟨cond, ⟨code, func, rfl⟩, rs, first, offset, second, ⟨⟩⟩ := built
      exact ⟨rfl, (eq_pair_of_getElem? length first second).symm, fun _ => func.symm⟩
  | sys =>
      simp only [shape, bind_eq_ok_iff, Row.select_eq_ok_iff, SysOp.ofCode?_eq_some_iff] at built length
      obtain ⟨op, ⟨code, func, rfl⟩, ⟨⟩⟩ := built
      exact ⟨rfl, (List.length_eq_zero_iff.mp length).symm, fun _ => func.symm⟩
  | jump | jal =>
      simp only [shape, bind_eq_ok_iff, Row.immAt_eq_ok_iff] at built length
      obtain ⟨target, first, ⟨⟩⟩ := built
      exact ⟨rfl, (eq_singleton_of_getElem? length first).symm, fun absent => by cases absent⟩
  | addi | andi | ori | lui =>
      simp only [shape] at built length
      obtain ⟨rd, imm, rfl, rfl⟩ := (immOfOperands_eq_ok_iff length).mp built
      exact ⟨rfl, rfl, fun absent => by cases absent⟩

theorem ofOperands_operands (opcode : instr.opcode = row.opcode)
    (func : row.opcode.layout.func.isSome → instr.func? = row.func) :
    ofOperands row instr.operands = .ok instr := by
  rw [← opcode] at func
  cases instr with
  | alu op r1 r2 =>
      have selected : row.select AluOp.ofCode? = .ok op :=
        Row.select_eq_ok_iff.mpr ⟨op.code, (func rfl).symm, AluOp.ofCode?_eq_some_iff.mpr rfl⟩
      simp only [ofOperands, ← opcode, Instr.opcode, selected]
      rfl
  | mem op r1 r2 =>
      have selected : row.select MemOp.ofCode? = .ok op :=
        Row.select_eq_ok_iff.mpr ⟨op.code, (func rfl).symm, MemOp.ofCode?_eq_some_iff.mpr rfl⟩
      simp only [ofOperands, ← opcode, Instr.opcode, selected]
      rfl
  | branch cond rs offset =>
      have selected : row.select Cond.ofCode? = .ok cond :=
        Row.select_eq_ok_iff.mpr ⟨cond.code, (func rfl).symm, Cond.ofCode?_eq_some_iff.mpr rfl⟩
      simp only [ofOperands, ← opcode, Instr.opcode, selected]
      rfl
  | sys op =>
      have selected : row.select SysOp.ofCode? = .ok op :=
        Row.select_eq_ok_iff.mpr ⟨op.code, (func rfl).symm, SysOp.ofCode?_eq_some_iff.mpr rfl⟩
      simp only [ofOperands, ← opcode, Instr.opcode, selected]
      rfl
  | jump target | jal target =>
      simp only [ofOperands, ← opcode, Instr.opcode]
      rfl
  | immediate op rd imm =>
      cases op <;>
        simp only [ofOperands, ← opcode, Instr.opcode, ImmOp.opcode] <;>
        rfl

/-- A row makes of operands exactly the instruction with the row's opcode, the row's function code
if the opcode has one, and these operands. -/
theorem ofOperands_eq_ok_iff :
    ofOperands row operands = .ok instr ↔
      instr.opcode = row.opcode ∧ instr.operands = operands ∧
        (row.opcode.layout.func.isSome → instr.func? = row.func) := by
  constructor
  · exact ofOperands_sound
  · intro ⟨opcode, same, func⟩
    subst same
    exact ofOperands_operands opcode func

theorem isSome_func? (instr : Instr) : instr.func?.isSome = instr.opcode.layout.func.isSome := by
  cases instr with
  | immediate op => cases op <;> rfl
  | _ => rfl

theorem func?_eq_none (absent : instr.opcode.layout.func.isSome = false) : instr.func? = none := by
  rwa [← isSome_func?, Option.isSome_eq_false_iff, Option.isNone_iff_eq_none] at absent

theorem exists_row (instr : Instr) :
    ∃ row ∈ Row.all, row.opcode = instr.opcode ∧ row.func = instr.func? := by
  cases instr with
  | alu op => exact ⟨⟨op.mnemonic, .alu, some op.code⟩, by cases op <;> decide, rfl, rfl⟩
  | immediate op => exact ⟨⟨op.opcode.layout.name, op.opcode, none⟩, by cases op <;> decide, rfl, rfl⟩
  | mem op => exact ⟨⟨op.mnemonic, .mem, some op.code⟩, by cases op <;> decide, rfl, rfl⟩
  | branch cond => exact ⟨⟨cond.mnemonic, .br, some cond.code⟩, by cases cond <;> decide, rfl, rfl⟩
  | jump => exact ⟨⟨"JUMP", .jump, none⟩, by decide, rfl, rfl⟩
  | jal => exact ⟨⟨"JAL", .jal, none⟩, by decide, rfl, rfl⟩
  | sys op => exact ⟨⟨op.mnemonic, .sys, some op.code⟩, by cases op <;> decide, rfl, rfl⟩

theorem row_eq_ok_iff :
    instr.row = .ok row ↔ row ∈ Row.all ∧ row.opcode = instr.opcode ∧ row.func = instr.func? :=
  Row.ofFunction_eq_ok_iff

theorem ofOperands_eq_ok_iff_row (member : row ∈ Row.all) :
    ofOperands row operands = .ok instr ↔ instr.row = .ok row ∧ instr.operands = operands := by
  rw [ofOperands_eq_ok_iff, row_eq_ok_iff]
  constructor
  · intro ⟨opcode, same, func⟩
    refine ⟨⟨member, opcode.symm, ?_⟩, same⟩
    cases present : row.opcode.layout.func.isSome with
    | true => exact (func present).symm
    | false =>
        -- Without a field for it, neither the row nor the instruction has a function code.
        have rowFunc : row.func.isSome = false := by rw [← (Row.all_functions_fit row member).1, present]
        rw [Option.isSome_eq_false_iff, Option.isNone_iff_eq_none] at rowFunc
        rw [rowFunc, func?_eq_none (by rw [opcode, present])]
  · intro ⟨⟨_, opcode, func⟩, same⟩
    exact ⟨opcode.symm, same, fun _ => func.symm⟩

section Suits

variable {field : Field}

theorem exists_registers
    (suits : List.Forall₂ (fun field operand => Operand.Matches operand field.kind)
      [Layout.r1, Layout.r2] operands) : ∃ r1 r2, operands = [.reg r1, .reg r2] := by
  obtain ⟨_, _, first, tail, rfl⟩ := List.forall₂_cons_left_iff.mp suits
  obtain ⟨_, _, second, ⟨⟩, rfl⟩ := List.forall₂_cons_left_iff.mp tail
  obtain ⟨r1, rfl⟩ := first.exists_reg
  obtain ⟨r2, rfl⟩ := second.exists_reg
  exact ⟨r1, r2, rfl⟩

theorem exists_number
    (suits : List.Forall₂ (fun field operand => Operand.Matches operand field.kind) [field] operands)
    (number : field.kind ≠ .reg) : ∃ imm, operands = [.imm imm] := by
  obtain ⟨_, _, first, ⟨⟩, rfl⟩ := List.forall₂_cons_left_iff.mp suits
  obtain ⟨imm, rfl⟩ := first.exists_imm number
  exact ⟨imm, rfl⟩

theorem exists_register_number
    (suits : List.Forall₂ (fun field operand => Operand.Matches operand field.kind)
      [Layout.r1, field] operands) (number : field.kind ≠ .reg) :
    ∃ reg imm, operands = [.reg reg, .imm imm] := by
  obtain ⟨_, _, first, tail, rfl⟩ := List.forall₂_cons_left_iff.mp suits
  obtain ⟨reg, rfl⟩ := first.exists_reg
  obtain ⟨imm, rfl⟩ := exists_number tail number
  exact ⟨reg, imm, rfl⟩

theorem exists_with_operands (instr : Instr)
    (suits : List.Forall₂ (fun field operand => Operand.Matches operand field.kind)
      instr.opcode.layout.operands operands) :
    ∃ other : Instr, other.opcode = instr.opcode ∧ other.func? = instr.func? ∧
      other.operands = operands := by
  cases instr with
  | alu op =>
      obtain ⟨r1, r2, rfl⟩ := exists_registers suits
      exact ⟨.alu op r1 r2, rfl, rfl, rfl⟩
  | immediate op =>
      have fields : ∃ field, op.opcode.layout.operands = [Layout.r1, field] ∧ field.kind ≠ .reg := by
        cases op <;> exact ⟨_, rfl, nofun⟩
      obtain ⟨field, listed, number⟩ := fields
      rw [opcode, listed] at suits
      obtain ⟨rd, imm, rfl⟩ := exists_register_number suits number
      exact ⟨.immediate op rd imm, rfl, rfl, rfl⟩
  | mem op =>
      obtain ⟨r1, r2, rfl⟩ := exists_registers suits
      exact ⟨.mem op r1 r2, rfl, rfl, rfl⟩
  | branch cond =>
      obtain ⟨rs, offset, rfl⟩ := exists_register_number suits nofun
      exact ⟨.branch cond rs offset, rfl, rfl, rfl⟩
  | jump =>
      obtain ⟨target, rfl⟩ := exists_number suits nofun
      exact ⟨.jump target, rfl, rfl, rfl⟩
  | jal =>
      obtain ⟨target, rfl⟩ := exists_number suits nofun
      exact ⟨.jal target, rfl, rfl, rfl⟩
  | sys op =>
      cases suits
      exact ⟨.sys op, rfl, rfl, rfl⟩

end Suits

end Instr

theorem Row.exists_instr {row : Row} (member : row ∈ Row.all) : ∃ instr : Instr, instr.row = .ok row := by
  have described : ∃ instr : Instr, row.opcode = instr.opcode ∧ row.func = instr.func? := by
    simp only [all, List.mem_append, List.mem_map, List.mem_cons, List.not_mem_nil, or_false] at member
    rcases member with ((((⟨op, _, rfl⟩ | rfl | rfl | rfl | rfl) | ⟨op, _, rfl⟩) | ⟨cond, _, rfl⟩) |
      rfl | rfl) | ⟨op, _, rfl⟩
    · exact ⟨.alu op 0 0, rfl, rfl⟩
    · exact ⟨.immediate .addi 0 (.value 0), rfl, rfl⟩
    · exact ⟨.immediate .andi 0 (.value 0), rfl, rfl⟩
    · exact ⟨.immediate .ori 0 (.value 0), rfl, rfl⟩
    · exact ⟨.immediate .lui 0 (.value 0), rfl, rfl⟩
    · exact ⟨.mem op 0 0, rfl, rfl⟩
    · exact ⟨.branch cond 0 (.value 0), rfl, rfl⟩
    · exact ⟨.jump (.value 0), rfl, rfl⟩
    · exact ⟨.jal (.value 0), rfl, rfl⟩
    · exact ⟨.sys op, rfl, rfl⟩
  obtain ⟨instr, opcode, func⟩ := described
  exact ⟨instr, Instr.row_eq_ok_iff.mpr ⟨member, opcode, func⟩⟩

theorem Row.exists_ofOperands {row : Row} {operands : List Operand} (member : row ∈ Row.all)
    (suits : List.Forall₂ (fun field operand => Operand.Matches operand field.kind)
      row.opcode.layout.operands operands) : ∃ instr, Instr.ofOperands row operands = .ok instr := by
  obtain ⟨sample, described⟩ := Row.exists_instr member
  obtain ⟨_, opcode, func⟩ := Instr.row_eq_ok_iff.mp described
  rw [opcode] at suits
  obtain ⟨instr, sameOpcode, sameFunc, same⟩ := sample.exists_with_operands suits
  have described : instr.row = .ok row :=
    Instr.row_eq_ok_iff.mpr ⟨member, opcode.trans sameOpcode.symm, func.trans sameFunc.symm⟩
  exact ⟨instr, (Instr.ofOperands_eq_ok_iff_row member).mpr ⟨described, same⟩⟩

/-- Several mnemonics share the opcode, and the function code tells them apart. -/
def Opcode.Multiplexes (opcode : Opcode) : Prop :=
  opcode ∈ [Opcode.alu, .mem, .br, .sys]

theorem Opcode.multiplexes_iff {opcode : Opcode} : opcode.Multiplexes ↔ opcode.layout.func.isSome := by
  cases opcode <;> simp [Multiplexes, layout]

theorem Opcode.exists_row (opcode : Opcode) : ∃ row ∈ Row.all, row.opcode = opcode := by
  cases opcode <;> decide

namespace Row

variable {row : Row} {operands : List Operand}

/-- One operand for each field of the opcode, of the field's kind, and a function code that the table
lists, if the opcode is shared. -/
structure Accepts (row : Row) (operands : List Operand) : Prop where
  operands : List.Forall₂ (fun field operand => Operand.Matches operand field.kind)
    row.opcode.layout.operands operands
  function : row.opcode.Multiplexes → ∃ code, row.func = some code ∧
    ∃ listed ∈ all, listed.opcode = row.opcode ∧ listed.func = some code

/-- A row outside the table stands for a row of the table with its opcode and, where the opcode has
one, its function code. -/
theorem Accepts.exists_listed (accepts : row.Accepts operands) :
    ∃ listed ∈ all, listed.opcode = row.opcode ∧ (row.opcode.layout.func.isSome → listed.func = row.func) := by
  by_cases shared : row.opcode.Multiplexes
  · obtain ⟨code, present, listed, member, opcode, func⟩ := accepts.function shared
    exact ⟨listed, member, opcode, fun _ => func.trans present.symm⟩
  · obtain ⟨listed, member, opcode⟩ := row.opcode.exists_row
    exact ⟨listed, member, opcode, fun present => absurd (Opcode.multiplexes_iff.mpr present) shared⟩

theorem Accepts.exists_ofOperands (accepts : row.Accepts operands) :
    ∃ instr, Instr.ofOperands row operands = .ok instr := by
  obtain ⟨listed, member, opcode, func⟩ := accepts.exists_listed
  obtain ⟨instr, built⟩ := Row.exists_ofOperands member (opcode ▸ accepts.operands)
  obtain ⟨sameOpcode, same, sameFunc⟩ := Instr.ofOperands_eq_ok_iff.mp built
  rw [opcode] at sameOpcode sameFunc
  exact ⟨instr, Instr.ofOperands_eq_ok_iff.mpr
    ⟨sameOpcode, same, fun present => (sameFunc present).trans (func present)⟩⟩

theorem accepts_of_ofOperands {instr : Instr} (built : Instr.ofOperands row operands = .ok instr) :
    row.Accepts operands := by
  obtain ⟨opcode, same, func⟩ := Instr.ofOperands_eq_ok_iff.mp built
  refine ⟨?_, fun shared => ?_⟩
  · rw [← opcode, ← same]
    exact instr.operands_match
  · have sameFunc := func (Opcode.multiplexes_iff.mp shared)
    have present : instr.func?.isSome := by
      rw [instr.isSome_func?, opcode]
      exact Opcode.multiplexes_iff.mp shared
    obtain ⟨code, found⟩ := Option.isSome_iff_exists.mp present
    obtain ⟨listed, member, listedOpcode, listedFunc⟩ := instr.exists_row
    exact ⟨code, sameFunc.symm.trans found, listed, member, listedOpcode.trans opcode,
      listedFunc.trans found⟩

/-- Rows and instructions correspond. A row of any kind makes an instruction exactly of the operands
it accepts, and the instruction has the row's opcode, its function code if the opcode is shared, and
these operands. Every instruction is made again by its own row of its own operands. -/
theorem ofOperands_corresponds :
    (∀ (row : Row) (operands : List Operand),
      ((∃ instr, Instr.ofOperands row operands = .ok instr) ↔ row.Accepts operands) ∧
      ∀ instr, Instr.ofOperands row operands = .ok instr →
        instr.opcode = row.opcode ∧ instr.operands = operands ∧
          (row.opcode.Multiplexes → instr.func? = row.func) ∧
          (¬ row.opcode.Multiplexes → instr.func? = none)) ∧
    ∀ instr : Instr, ∃ row, instr.row = .ok row ∧ Instr.ofOperands row instr.operands = .ok instr := by
  refine ⟨fun row operands => ⟨⟨?_, Accepts.exists_ofOperands⟩, ?_⟩, ?_⟩
  · intro ⟨instr, built⟩
    exact accepts_of_ofOperands built
  · intro instr built
    obtain ⟨opcode, same, func⟩ := Instr.ofOperands_eq_ok_iff.mp built
    refine ⟨opcode, same, fun shared => func (Opcode.multiplexes_iff.mp shared), fun single => ?_⟩
    rw [Opcode.multiplexes_iff, Bool.not_eq_true, ← opcode] at single
    exact Instr.func?_eq_none single
  · intro instr
    obtain ⟨row, member, opcode, func⟩ := instr.exists_row
    have described : instr.row = .ok row := Instr.row_eq_ok_iff.mpr ⟨member, opcode, func⟩
    exact ⟨row, described, (Instr.ofOperands_eq_ok_iff_row member).mpr ⟨described, rfl⟩⟩

end Row

end Asm16
