import Asm16.Source.Parser
import Asm16.Proofs.InstructionTable
import Asm16.Proofs.Lexical

/-!
# The grammar of source text

A line holds an optional label and an optional instruction, and an instruction is a mnemonic with
one token for each operand field of its opcode. The rules are stated on the text alone; parsing
succeeds exactly on the texts that they allow, and returns what they say the text means.
-/

namespace Asm16

/-- A register is `$r` and its index. -/
inductive RegToken : List Char → Reg → Prop
  | mk {numeral : List Char} {reg : Reg} (index : Decimal numeral reg.val) :
      RegToken ('$' :: 'r' :: numeral) reg

/-- An immediate is a number or the name of a label. A number outside 32 bits stands for the nearest
inside. -/
inductive ImmToken : List Char → Imm → Prop
  | value {token : List Char} {number : Int} {value : Int32} (decimal : Decimal token number)
      (nearest : value.toInt = max (-0x80000000) (min 0x7FFFFFFF number)) : ImmToken token (.value value)
  | label {token : List Char} (identifier : Identifier token) :
      ImmToken token (.label (String.ofList token))

inductive OperandToken : FieldKind → List Char → Operand → Prop
  | reg {token : List Char} {reg : Reg} (register : RegToken token reg) :
      OperandToken .reg token (.reg reg)
  | imm {kind : FieldKind} {token : List Char} {imm : Imm} (number : kind ≠ .reg)
      (immediate : ImmToken token imm) : OperandToken kind token (.imm imm)

/-- One token for each field. -/
inductive OperandTokens : List Field → List (List Char) → List Operand → Prop
  | nil : OperandTokens [] [] []
  | cons {field : Field} {token : List Char} {operand : Operand} {fields : List Field}
      {tokens : List (List Char)} {operands : List Operand}
      (first : OperandToken field.kind token operand) (tail : OperandTokens fields tokens operands) :
      OperandTokens (field :: fields) (token :: tokens) (operand :: operands)

variable {token text line : List Char} {reg : Reg} {imm : Imm} {operand : Operand} {instr : Instr}

theorem afterRegisterMark?_eq_some_iff {numeral : List Char} :
    Token.afterRegisterMark? token = some numeral ↔ token = '$' :: 'r' :: numeral := by
  unfold Token.afterRegisterMark?
  split
  · simp
  · rename_i noMark
    simpa using noMark numeral

/-- Limiting an index to 64 bits makes no register of it that it was not. -/
theorem eq_clamp_iff {number : Int} :
    (reg.val : Int) = Numeral.clamp Int64.minValue.toInt Int64.maxValue.toInt number ↔
      number = reg.val := by
  have bounds : Numeral.clamp Int64.minValue.toInt Int64.maxValue.toInt number =
      max (-0x8000000000000000) (min 0x7FFFFFFFFFFFFFFF number) := rfl
  have range := reg.isLt
  rw [bounds]
  omega

theorem readReg_eq_ok_iff : Token.readReg token = .ok reg ↔ RegToken token reg := by
  constructor
  · intro read
    unfold Token.readReg at read
    split at read
    · cases read
    · rename_i number marked
      obtain ⟨numeral, mark, decimal⟩ := Option.bind_eq_some_iff.mp marked
      rw [mapError_eq_ok_iff, Reg.ofIndex_eq_ok_iff, eq_clamp_iff] at read
      rw [afterRegisterMark?_eq_some_iff.mp mark]
      exact .mk (read ▸ Numeral.decimal?_eq_some_iff.mp decimal)
  · intro ⟨index⟩
    have marked : Numeral.decimal? _ = some (reg.val : Int) := Numeral.decimal?_eq_some_iff.mpr index
    simp only [Token.readReg, Token.afterRegisterMark?, Option.bind_some, marked]
    rw [mapError_eq_ok_iff, Reg.ofIndex_eq_ok_iff, eq_clamp_iff]

theorem toInt_ofInt_clamp {number : Int} :
    (Int32.ofInt (Numeral.clamp Int32.minValue.toInt Int32.maxValue.toInt number)).toInt =
      max (-0x80000000) (min 0x7FFFFFFF number) := by
  have bounds : Numeral.clamp Int32.minValue.toInt Int32.maxValue.toInt number =
      max (-0x80000000) (min 0x7FFFFFFF number) := rfl
  rw [bounds]
  apply Int32.toInt_ofInt_of_le
  · omega
  · omega

theorem readImm_eq_ok_iff : Token.readImm token = .ok imm ↔ ImmToken token imm := by
  constructor
  · intro read
    unfold Token.readImm at read
    split at read
    · rename_i number decimal
      cases read
      exact .value (Numeral.decimal?_eq_some_iff.mp decimal) toInt_ofInt_clamp
    · split at read
      · rename_i identifier
        cases read
        exact .label (Token.isIdentifier_iff.mp identifier)
      · cases read
  · intro immediate
    cases immediate with
    | @value number value decimal nearest =>
        have same :
            Int32.ofInt (Numeral.clamp Int32.minValue.toInt Int32.maxValue.toInt number) = value :=
          Int32.toInt_inj.mp (toInt_ofInt_clamp.trans nearest.symm)
        simp only [Token.readImm, Numeral.decimal?_eq_some_iff.mpr decimal, same]
    | label identifier =>
        have noNumber : Numeral.decimal? token = none := by
          rw [Option.eq_none_iff_forall_ne_some]
          intro number decimal
          exact identifier.not_decimal (Numeral.decimal?_eq_some_iff.mp decimal)
        simp only [Token.readImm, noNumber, Token.isIdentifier_iff.mpr identifier, if_true]

theorem readOperand_of_number {field : Field} (number : field.kind ≠ .reg) :
    field.readOperand token = (Token.readImm token).map .imm := by
  cases kind : field.kind with
  | reg => exact absurd kind number
  | signed | unsigned => simp only [Field.readOperand, kind]

theorem readOperand_eq_ok_iff {field : Field} :
    field.readOperand token = .ok operand ↔ OperandToken field.kind token operand := by
  by_cases kind : field.kind = .reg
  · simp only [Field.readOperand, kind, map_eq_ok_iff, readReg_eq_ok_iff]
    constructor
    · intro ⟨reg, register, same⟩
      exact same ▸ .reg register
    · intro read
      cases read with
      | reg register => exact ⟨_, register, rfl⟩
      | imm number => exact absurd rfl number
  · simp only [readOperand_of_number kind, map_eq_ok_iff, readImm_eq_ok_iff]
    constructor
    · intro ⟨imm, immediate, same⟩
      exact same ▸ .imm kind immediate
    · intro read
      generalize field.kind = other at kind read
      cases read with
      | reg => exact absurd rfl kind
      | imm _ immediate => exact ⟨_, immediate, rfl⟩

theorem OperandTokens.length_eq {fields : List Field} {tokens : List (List Char)}
    {operands : List Operand} (related : OperandTokens fields tokens operands) :
    tokens.length = fields.length := by
  induction related with
  | nil => rfl
  | cons _ _ ih => simp [ih]

theorem RegToken.operandToken {field : Field} (register : RegToken token reg) (kind : field.kind = .reg) :
    OperandToken field.kind token (.reg reg) :=
  kind ▸ .reg register

theorem OperandToken.suits {kind : FieldKind} (accepted : OperandToken kind token operand) :
    operand.Matches kind := by
  cases accepted with
  | reg => exact rfl
  | imm number => exact number

theorem OperandTokens.suits {fields : List Field} {tokens : List (List Char)} {operands : List Operand}
    (accepted : OperandTokens fields tokens operands) :
    List.Forall₂ (fun field operand => Operand.Matches operand field.kind) fields operands := by
  induction accepted with
  | nil => exact .nil
  | cons first _ ih => exact .cons first.suits ih

theorem OperandTokens.append {fields others : List Field} {tokens later : List (List Char)}
    {operands rest : List Operand} (accepted : OperandTokens fields tokens operands)
    (tail : OperandTokens others later rest) :
    OperandTokens (fields ++ others) (tokens ++ later) (operands ++ rest) := by
  induction accepted with
  | nil => exact tail
  | cons first _ ih => exact .cons first ih

theorem operandTokens_registers {fields : List Field} {tokens : List (List Char)} {regs : List Reg}
    (kinds : ∀ field ∈ fields, field.kind = .reg) (count : tokens.length = fields.length)
    (registers : List.Forall₂ RegToken tokens regs) : OperandTokens fields tokens (regs.map .reg) := by
  induction registers generalizing fields with
  | nil =>
      obtain rfl := List.length_eq_zero_iff.mp count.symm
      exact .nil
  | cons register _ ih =>
      cases fields with
      | nil => cases count
      | cons field fields =>
          obtain ⟨kind, later⟩ := List.forall_mem_cons.mp kinds
          exact .cons (register.operandToken kind) (ih later (Nat.succ.inj count))

theorem mapM_readOperand_eq_ok_iff {fields : List Field} {tokens : List (List Char)}
    {operands : List Operand} (length : tokens.length = fields.length) :
    (fields.zip tokens).mapM (fun pair => pair.1.readOperand pair.2) = .ok operands ↔
      OperandTokens fields tokens operands := by
  rw [mapM_eq_ok_iff]
  induction fields generalizing tokens operands with
  | nil =>
      obtain rfl := List.eq_nil_of_length_eq_zero length
      constructor
      · intro related
        cases related
        exact .nil
      · intro related
        cases related
        exact .nil
  | cons field fields ih =>
      cases tokens with
      | nil => cases length
      | cons token tokens =>
          have tailLength : tokens.length = fields.length := Nat.succ.inj length
          rw [List.zip_cons_cons]
          constructor
          · intro related
            cases related with
            | cons first tail => exact .cons (readOperand_eq_ok_iff.mp first) ((ih tailLength).mp tail)
          · intro related
            cases related with
            | cons first tail =>
                exact .cons (readOperand_eq_ok_iff.mpr first) ((ih tailLength).mpr tail)

/-- A mnemonic of the table, in letters of either case, and one token for each operand field of its
opcode: divided by commas, with blanks around them. -/
inductive InstrText : List Char → Instr → Prop
  | mk {text mnemonic : List Char} {pieces tokens : List (List Char)} {row : Row} {instr : Instr}
      (cut : Pieces ',' text pieces) (trimmed : List.Forall₂ Trimmed pieces (mnemonic :: tokens))
      (member : row ∈ Row.all)
      (letters : row.mnemonic.toList.map Char.toLower = mnemonic.map Char.toLower)
      (opcode : instr.opcode = row.opcode) (func : instr.func? = row.func)
      (operands : OperandTokens row.opcode.layout.operands tokens instr.operands) : InstrText text instr

theorem map_trim_eq_iff {pieces tokens : List (List Char)} :
    pieces.map Text.trim = tokens ↔ List.Forall₂ Trimmed pieces tokens := by
  have rule : Trimmed = fun text core => Text.trim text = core := by
    funext text core
    exact propext Text.trim_eq_iff.symm
  rw [rule, ← List.forall₂_map_left_iff, List.forall₂_eq_eq_eq]

theorem toLower_of_isBlank {c : Char} (blank : Text.isBlank c) : c.toLower = c := by
  apply dif_neg
  intro ⟨lower, upper⟩
  simp only [Text.isBlank, Text.blankRanges, List.any_cons, List.any_nil, Bool.or_eq_true, Bool.and_eq_true,
    decide_eq_true_eq, Bool.or_false, Char.toNat] at blank
  simp only [ge_iff_le, UInt32.le_iff_toNat_le] at lower upper
  have lowest : 'A'.val.toNat = 65 := rfl
  have highest : 'Z'.val.toNat = 90 := rfl
  omega

theorem table_letters_not_blank :
    (Row.all.flatMap fun row => row.mnemonic.toList.map Char.toLower).any Text.isBlank = false := by
  decide

theorem toLower_mem_table_letters {mnemonic : List Char} {row : Row} {c : Char} (member : row ∈ Row.all)
    (letters : row.mnemonic.toList.map Char.toLower = mnemonic.map Char.toLower) (inside : c ∈ mnemonic) :
    c.toLower ∈ Row.all.flatMap fun row => row.mnemonic.toList.map Char.toLower := by
  refine List.mem_flatMap.mpr ⟨row, member, ?_⟩
  rw [letters]
  exact List.mem_map_of_mem inside

theorem mnemonic_not_blank {mnemonic : List Char} {row : Row} (member : row ∈ Row.all)
    (letters : row.mnemonic.toList.map Char.toLower = mnemonic.map Char.toLower) :
    mnemonic.any Text.isBlank = false := by
  rw [List.any_eq_false]
  intro c inside blank
  have listed := toLower_mem_table_letters member letters inside
  rw [toLower_of_isBlank blank] at listed
  exact List.any_eq_false.mp table_letters_not_blank c listed blank

theorem readInstr_eq_bind {mnemonic : List Char} {pieces tokens : List (List Char)} {row : Row}
    (cut : Pieces ',' text pieces) (trimmed : List.Forall₂ Trimmed pieces (mnemonic :: tokens))
    (member : row ∈ Row.all)
    (letters : row.mnemonic.toList.map Char.toLower = mnemonic.map Char.toLower)
    (count : tokens.length = row.opcode.layout.operands.length) :
    readInstr text =
      (row.opcode.layout.operands.zip tokens).mapM (fun pair => pair.1.readOperand pair.2) >>=
        fun operands => (Instr.ofOperands row operands).mapError .build := by
  have found : Row.ofMnemonic (String.ofList mnemonic) = .ok row := by
    rw [Row.ofMnemonic_eq_ok_iff, Row.sameMnemonic_iff, String.toList_ofList]
    exact ⟨member, letters⟩
  simp only [readInstr, cut.splitOn, map_trim_eq_iff.mpr trimmed, List.headD_cons, List.tail_cons,
    mnemonic_not_blank member letters, Bool.false_eq_true, if_false, found, count, if_true]

theorem readInstr_eq_ok_iff : readInstr text = .ok instr ↔ InstrText text instr := by
  constructor
  · intro read
    unfold readInstr at read
    cases trimmed : (text.splitOn ',').map Text.trim with
    | nil => simp at trimmed
    | cons mnemonic tokens =>
        simp only [trimmed, List.headD_cons, List.tail_cons] at read
        split at read
        · cases read
        · split at read
          · cases read
          · rename_i row found
            split at read
            · rename_i length
              obtain ⟨operands, readOperands, made⟩ := bind_eq_ok_iff.mp read
              rw [Row.ofMnemonic_eq_ok_iff, Row.sameMnemonic_iff, String.toList_ofList] at found
              obtain ⟨member, letters⟩ := found
              rw [mapError_eq_ok_iff, Instr.ofOperands_eq_ok_iff_row member, Instr.row_eq_ok_iff] at made
              obtain ⟨⟨_, opcode, func⟩, same⟩ := made
              have tokenRule := (mapM_readOperand_eq_ok_iff length).mp readOperands
              exact .mk (splitOn_eq_iff.mp rfl) (map_trim_eq_iff.mp trimmed) member letters opcode.symm
                func.symm (same ▸ tokenRule)
            · cases read
  · intro ⟨cut, trimmed, member, letters, opcode, func, operands⟩
    rename_i row
    have length := operands.length_eq
    have built : Instr.ofOperands row instr.operands = .ok instr := by
      rw [Instr.ofOperands_eq_ok_iff_row member, Instr.row_eq_ok_iff]
      exact ⟨⟨member, opcode.symm, func.symm⟩, rfl⟩
    rw [readInstr_eq_bind cut trimmed member letters length, bind_eq_ok_iff]
    exact ⟨_, (mapM_readOperand_eq_ok_iff length).mpr operands, mapError_eq_ok_iff.mpr built⟩

theorem not_instrText_nil : ¬ InstrText [] instr := by
  intro form
  have read := readInstr_eq_ok_iff.mpr form
  cases read

inductive InstrForm : List Char → Option Instr → Prop
  | none : InstrForm [] none
  | some {text : List Char} {instr : Instr} (form : InstrText text instr) : InstrForm text (some instr)

/-- An optional label with its colon, then an optional instruction. A text has a label part exactly
if it has a colon with no comma before it. -/
inductive TextForm : List Char → Option String → Option Instr → Prop
  | unlabelled {text : List Char} {instr? : Option Instr}
      (noLabel : ∀ before after, text = before ++ ':' :: after → ',' ∈ before)
      (form : InstrForm text instr?) : TextForm text none instr?
  | labelled {before after name rest : List Char} {instr? : Option Instr} (noColon : ':' ∉ before)
      (noComma : ',' ∉ before) (trimmedName : Trimmed before name) (identifier : Identifier name)
      (trimmedRest : Trimmed after rest) (form : InstrForm rest instr?) :
      TextForm (before ++ ':' :: after) (some (String.ofList name)) instr?

/-- A line without its comment and the blanks around has a label, an instruction, both or neither. -/
inductive LineForm : List Char → Option String → Option Instr → Prop
  | mk {line kept text : List Char} {label? : Option String} {instr? : Option Instr}
      (uncommented : Uncommented line kept) (trimmed : Trimmed kept text)
      (form : TextForm text label? instr?) : LineForm line label? instr?

def lineItems (lineNo : Nat) (line : List Char) (label? : Option String) (instr? : Option Instr) :
    List Item :=
  (label?.map (Item.label · lineNo)).toList ++
    (instr?.map fun instr => Item.stmt ⟨instr, lineNo, String.ofList line⟩).toList

variable {lineNo : Nat} {items : List Item} {before after : List Char}

theorem lineText_eq_iff :
    lineText line = text ↔ ∃ kept, Uncommented line kept ∧ Trimmed kept text := by
  simp only [← Text.beforeComment_eq_iff, ← Text.trim_eq_iff, exists_eq_left']
  rfl

theorem exists_kept_lineText (line : List Char) :
    ∃ kept, Uncommented line kept ∧ Trimmed kept (lineText line) :=
  lineText_eq_iff.mp rfl

theorem splitLabel?_of_not_mem (noColon : ':' ∉ text) : splitLabel? text = none := by
  have nothing : text.dropWhile (· ≠ ':') = [] :=
    List.dropWhile_eq_nil_iff.mpr (ne_of_not_mem noColon)
  simp only [splitLabel?, nothing]

theorem splitLabel?_append (noColon : ':' ∉ before) :
    splitLabel? (before ++ ':' :: after) =
      if ',' ∈ before then none else some (Text.trim before, Text.trim after) := by
  have found : (before ++ ':' :: after).dropWhile (· ≠ ':') = ':' :: after :=
    dropWhile_append (ne_of_not_mem noColon) (by simp)
  simp only [splitLabel?, found, takeWhile_append_cons noColon, List.contains_eq_mem, decide_eq_true_eq]

theorem comma_before_colon (noColon : ':' ∉ before) (comma : ',' ∈ before) :
    ∀ other rest, before ++ ':' :: after = other ++ ':' :: rest → ',' ∈ other := by
  intro other rest same
  rcases List.append_eq_append_iff.mp same with ⟨middle, longer, _⟩ | ⟨middle, shorter, tail⟩
  · rw [longer]
    exact List.mem_append_left _ comma
  · cases middle with
    | nil =>
        rw [List.append_nil] at shorter
        exact shorter ▸ comma
    | cons c middle =>
        have colon : ':' = c := by simpa using (List.cons.inj tail).1
        exact absurd (by rw [shorter, ← colon]; simp) noColon

theorem splitLabel?_eq_none_iff :
    splitLabel? text = none ↔ ∀ before after, text = before ++ ':' :: after → ',' ∈ before := by
  by_cases colon : ':' ∈ text
  · obtain ⟨first, rest, same, noColon⟩ := List.eq_append_cons_of_mem colon
    subst same
    rw [splitLabel?_append noColon]
    constructor
    · intro noLabel
      split at noLabel
      · rename_i comma
        exact comma_before_colon noColon comma
      · cases noLabel
    · intro commas
      exact if_pos (commas first rest rfl)
  · rw [splitLabel?_of_not_mem colon]
    constructor
    · intro _ before after same
      exact absurd (by simp [same]) colon
    · intro _
      rfl

theorem splitLabel?_eq_some_iff {name rest : List Char} :
    splitLabel? text = some (name, rest) ↔ ∃ before after, text = before ++ ':' :: after ∧
      ':' ∉ before ∧ ',' ∉ before ∧ Trimmed before name ∧ Trimmed after rest := by
  constructor
  · intro found
    by_cases colon : ':' ∈ text
    · obtain ⟨before, after, same, noColon⟩ := List.eq_append_cons_of_mem colon
      rw [same, splitLabel?_append noColon] at found
      split at found
      · cases found
      · rename_i noComma
        cases found
        exact ⟨before, after, same, noColon, noComma, trimmed_trim before, trimmed_trim after⟩
    · rw [splitLabel?_of_not_mem colon] at found
      cases found
  · intro ⟨before, after, same, noColon, noComma, trimmedName, trimmedRest⟩
    rw [same, splitLabel?_append noColon, if_neg noComma, trimmedName.text_trim, trimmedRest.text_trim]

section Form

variable {label? : Option String} {instr? : Option Instr}

theorem textForm_iff_of_unlabelled (unlabelled : splitLabel? text = none) :
    TextForm text label? instr? ↔ label? = none ∧ InstrForm text instr? := by
  have commas := splitLabel?_eq_none_iff.mp unlabelled
  constructor
  · intro form
    cases form with
    | unlabelled _ form => exact ⟨rfl, form⟩
    | labelled _ noComma => exact absurd (commas _ _ rfl) noComma
  · intro ⟨absent, form⟩
    subst absent
    exact .unlabelled commas form

theorem textForm_iff_of_labelled {name rest : List Char}
    (labelled : splitLabel? text = some (name, rest)) :
    TextForm text label? instr? ↔
      Identifier name ∧ label? = some (String.ofList name) ∧ InstrForm rest instr? := by
  constructor
  · intro form
    cases form with
    | unlabelled commas =>
        rw [splitLabel?_eq_none_iff.mpr commas] at labelled
        cases labelled
    | labelled noColon noComma trimmedName identifier trimmedRest form =>
        have found := splitLabel?_eq_some_iff.mpr
          ⟨_, _, rfl, noColon, noComma, trimmedName, trimmedRest⟩
        cases labelled.symm.trans found
        exact ⟨identifier, rfl, form⟩
  · intro ⟨identifier, present, form⟩
    obtain ⟨before, after, same, noColon, noComma, trimmedName, trimmedRest⟩ :=
      splitLabel?_eq_some_iff.mp labelled
    subst same
    subst present
    exact .labelled noColon noComma trimmedName identifier trimmedRest form

theorem lineForm_iff : LineForm line label? instr? ↔ TextForm (lineText line) label? instr? := by
  constructor
  · intro ⟨uncommented, trimmed, form⟩
    rw [lineText_eq_iff.mpr ⟨_, uncommented, trimmed⟩]
    exact form
  · intro form
    obtain ⟨kept, uncommented, trimmed⟩ := exists_kept_lineText line
    exact .mk uncommented trimmed form

end Form

theorem readRest_eq_ok_iff (label? : Option String) {join : Item → List Item}
    (joins : ∀ instr, join (.stmt ⟨instr, lineNo, String.ofList line⟩) =
      lineItems lineNo line label? (some instr)) :
    (if text = [] then .ok (lineItems lineNo line label? none)
      else (readStmt lineNo line text).map join) = .ok items ↔
      ∃ instr?, InstrForm text instr? ∧ items = lineItems lineNo line label? instr? := by
  split
  · rename_i empty
    subst empty
    constructor
    · intro same
      cases same
      exact ⟨none, .none, rfl⟩
    · intro ⟨instr?, form, same⟩
      cases form with
      | none => rw [same]
      | some form => exact absurd form not_instrText_nil
  · rename_i nonempty
    simp only [readStmt, map_eq_ok_iff, readInstr_eq_ok_iff]
    constructor
    · intro ⟨stmt, ⟨instr, form, made⟩, joined⟩
      subst made
      exact ⟨some instr, .some form, joined.symm.trans (joins instr)⟩
    · intro ⟨instr?, form, same⟩
      cases form with
      | none => exact absurd rfl nonempty
      | some form => exact ⟨_, ⟨_, form, rfl⟩, (joins _).trans same.symm⟩

theorem readLine_eq_ok_iff :
    readLine lineNo line = .ok items ↔
      ∃ label? instr?, LineForm line label? instr? ∧ items = lineItems lineNo line label? instr? := by
  simp only [lineForm_iff]
  cases cut : splitLabel? (lineText line) with
  | none =>
      simp only [readLine, cut, textForm_iff_of_unlabelled cut, and_assoc, exists_and_left, exists_eq_left]
      exact readRest_eq_ok_iff none fun _ => rfl
  | some parts =>
      obtain ⟨name, rest⟩ := parts
      simp only [readLine, cut, textForm_iff_of_labelled cut, and_assoc, exists_and_left, exists_eq_left,
        ← Token.isIdentifier_iff]
      split
      · rename_i identifier
        rw [and_iff_right identifier]
        exact readRest_eq_ok_iff (some (String.ofList name)) fun _ => rfl
      · rename_i malformed
        simp [malformed]

def readInstr? (text : List Char) : Except ParseCause (Option Instr) :=
  if text = [] then .ok none else (readInstr text).map some

/-- The label and the instruction of a text, wherever it stands. -/
def readParts (text : List Char) : Except ParseCause (Option String × Option Instr) :=
  match splitLabel? text with
  | none => (readInstr? text).map (none, ·)
  | some (name, rest) =>
      if Token.isIdentifier name then (readInstr? rest).map (some (String.ofList name), ·)
      else .error (.malformedLabel (String.ofList name))

theorem map_readInstr? (label? : Option String) {join : Item → List Item}
    (joins : ∀ instr, join (.stmt ⟨instr, lineNo, String.ofList line⟩) =
      lineItems lineNo line label? (some instr)) :
    (if text = [] then .ok (lineItems lineNo line label? none)
      else (readStmt lineNo line text).map join) =
      (readInstr? text).map (lineItems lineNo line label?) := by
  unfold readInstr? readStmt
  split
  · rfl
  · cases readInstr text with
    | error cause => rfl
    | ok instr => exact congrArg Except.ok (joins instr)

/-- What is read from a line depends on its text alone; its place is put in afterwards. -/
theorem readLine_eq_map (lineNo : Nat) (line : List Char) :
    readLine lineNo line =
      (readParts (lineText line)).map fun parts => lineItems lineNo line parts.1 parts.2 := by
  cases cut : splitLabel? (lineText line) with
  | none =>
      simp only [readLine, readParts, cut, map_map]
      exact map_readInstr? none fun _ => rfl
  | some parts =>
      obtain ⟨name, rest⟩ := parts
      simp only [readLine, readParts, cut]
      split
      · rw [map_map]
        exact map_readInstr? (some (String.ofList name)) fun _ => rfl
      · rfl

theorem parseLineAt_eq_ok_iff {line : List Char × Nat} :
    parseLineAt line = .ok items ↔ ∃ label? instr?, LineForm line.1 label? instr? ∧
      items = lineItems (line.2 + 1) line.1 label? instr? := by
  rw [parseLineAt, mapError_eq_ok_iff, readLine_eq_ok_iff]

namespace Program

variable {source : String} {program : Program}

theorem parse_eq_ok_iff :
    parse source = .ok program ↔
      ∃ parts, List.Forall₂ (fun line items => parseLineAt line = .ok items) (sourceLines source) parts ∧
        program = ⟨parts.flatten⟩ := by
  simp only [parse, bind_eq_ok_iff, mapM_eq_ok_iff, pure, Except.pure, Except.ok.injEq, @eq_comm Program]

/-- A text without line feeds is its only line; if it is empty, it has none, and an empty line holds
nothing. -/
theorem parse_single_line {line : List Char} (free : '\n' ∉ line) :
    parse (String.ofList line) = (parseLineAt (line, 0)).map Program.mk := by
  by_cases empty : line = []
  · subst empty
    rfl
  · have alone : sourceLines (String.ofList line) = [(line, 0)] := by
      rw [sourceLines, String.toList_ofList, Text.lines_of_not_mem empty free]
      rfl
    rw [parse, alone, List.mapM_cons, List.mapM_nil]
    cases parseLineAt (line, 0) with
    | error error => rfl
    | ok items => exact congrArg (fun items => Except.ok (Program.mk items)) (List.append_nil items)

theorem parseAll_eq_ok_iff : parseAll source = .ok program ↔ parse source = .ok program := by
  simp only [parse_eq_ok_iff, parseAll, bind_eq_ok_iff, collect_eq_ok_iff, pure, Except.pure,
    Except.ok.injEq, @eq_comm Program]

theorem exists_parse_iff :
    (∃ program, parse source = .ok program) ↔
      ∀ line ∈ Text.lines source.toList, ∃ label? instr?, LineForm line label? instr? := by
  have succeeds : (∃ program, parse source = .ok program) ↔
      ∃ parts, (sourceLines source).mapM parseLineAt = .ok parts := by
    simp only [parse_eq_ok_iff, mapM_eq_ok_iff]
    exact ⟨fun ⟨_, parts, read, _⟩ => ⟨parts, read⟩, fun ⟨parts, read⟩ => ⟨_, parts, read, rfl⟩⟩
  rw [succeeds, exists_mapM_eq_ok_iff]
  constructor
  · intro accepted line member
    obtain ⟨index, found⟩ := List.getElem?_of_mem member
    obtain ⟨items, read⟩ := accepted (line, index) (List.mk_mem_zipIdx_iff_getElem?.mpr found)
    obtain ⟨label?, instr?, form, _⟩ := parseLineAt_eq_ok_iff.mp read
    exact ⟨label?, instr?, form⟩
  · intro forms line member
    obtain ⟨label?, instr?, form⟩ := forms line.1 (List.fst_mem_of_mem_zipIdx member)
    exact ⟨_, parseLineAt_eq_ok_iff.mpr ⟨label?, instr?, form, rfl⟩⟩

/-- Parsing accepts exactly the texts all of whose lines have the form of a line, and returns the
labels and instructions that the lines have. -/
theorem parse_exactly_grammar (source : String) :
    ∃ lines, (∀ others, Lines source.toList others ↔ others = lines) ∧
      ((∃ program, parse source = .ok program) ↔
        ∀ line ∈ lines, ∃ label? instr?, LineForm line label? instr?) ∧
      ∀ program, parse source = .ok program ↔
        ∃ parts, program = ⟨parts.flatten⟩ ∧
          List.Forall₂ (fun line items => ∃ label? instr?, LineForm line.1 label? instr? ∧
            items = lineItems (line.2 + 1) line.1 label? instr?) lines.zipIdx parts := by
  refine ⟨Text.lines source.toList, ?_, exists_parse_iff, ?_⟩
  · intro others
    rw [← Text.lines_eq_iff, eq_comm]
  · intro program
    simp only [parse_eq_ok_iff, parseLineAt_eq_ok_iff, and_comm]
    rfl

end Program

end Asm16
