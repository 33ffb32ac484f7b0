import Asm16.Instr.Encoding
import Asm16.Proofs.BitField
import Asm16.Proofs.InstructionTable

/-!
# Words that hold instructions

A word holds an instruction if every field of the layout holds the instruction's number for it and
the reserved bits are clear. Encoding finds this word, and decoding finds this instruction.
-/

namespace Asm16

theorem Opcode.fields_inWord (opcode : Opcode) : ∀ field ∈ opcode.layout.fields, field.InWord := by
  cases opcode <;> decide

theorem Layout.usedMask_eq (layout : Layout) :
    layout.usedMask = Word.union (layout.fields.map Field.mask) := by
  rw [usedMask, ← List.foldl_map, Word.foldl_or, UInt16.zero_or]

theorem Opcode.mask_and_reserved (opcode : Opcode) :
    ∀ field ∈ opcode.layout.fields, field.mask &&& opcode.layout.reserved = 0 := by
  have apart := opcode.layout_tiles.2
  rw [Layout.usedMask_eq, Word.union_and_eq_zero_iff] at apart
  intro field member
  exact apart _ (List.mem_map_of_mem member)

theorem Opcode.and_usedMask {opcode : Opcode} {word : Word} (clear : word &&& opcode.layout.reserved = 0) :
    word &&& opcode.layout.usedMask = word := by
  have split := Word.and_or_distrib word opcode.layout.usedMask opcode.layout.reserved
  rw [opcode.layout_tiles.1, clear, UInt16.or_zero] at split
  rw [← split]
  exact UInt16.and_neg_one

namespace Instr

variable {instr : Instr} {word : Word}

/-- The numbers that the instruction puts into the fields of its layout. -/
def numbers (instr : Instr) : Except EncodeError (List Int) :=
  (instr.operands.mapM Operand.number).map fun operands =>
    instr.opcode.code :: (instr.func?.toList.map Int.ofNat ++ operands)

/-- The word has the instruction's number in each field and nothing else. -/
structure HeldBy (instr : Instr) (word : Word) : Prop where
  fields : instr.numbers = .ok (instr.opcode.layout.fields.map (·.extract word))
  reserved : word &&& instr.opcode.layout.reserved = 0

end Instr

theorem Field.place_eq_ok_iff {field : Field} {value : Int} {word : Word} :
    field.place value = .ok word ↔ field.Fits value ∧ field.insert value = word := by
  by_cases fits : field.Fits value
  · rw [Field.place, if_pos fits, Except.ok.injEq]
    exact (and_iff_right fits).symm
  · rw [Field.place, if_neg fits]
    simp only [reduceCtorEq, fits, false_and]

theorem mapM_place_eq_ok_iff {fields : List Field} {operands : List Operand} {placed : List Word}
    (length : fields.length = operands.length) :
    ((fields.zip operands).mapM fun pair => do
        let number ← pair.2.number
        pair.1.place number) = .ok placed ↔
      ∃ numbers, operands.mapM Operand.number = .ok numbers ∧
        List.Forall₂ Field.Fits fields numbers ∧ List.zipWith Field.insert fields numbers = placed := by
  simp only [mapM_eq_ok_iff, bind_eq_ok_iff, Field.place_eq_ok_iff]
  induction fields generalizing operands placed with
  | nil =>
      have empty : operands = [] := List.length_eq_zero_iff.mp length.symm
      subst operands
      simp [eq_comm]
  | cons field fields ih =>
      cases operands with
      | nil => cases length
      | cons operand operands =>
          have rest := fun placed => @ih operands placed (by simpa using length)
          simp only [List.zip_cons_cons, List.forall₂_cons_left_iff, rest]
          constructor
          · intro ⟨word, words, ⟨number, known, fits, first⟩, ⟨numbers, others, restFits, later⟩, joined⟩
            subst first later joined
            exact ⟨number :: numbers, ⟨number, numbers, known, others, rfl⟩,
              ⟨number, numbers, fits, restFits, rfl⟩, rfl⟩
          · intro ⟨_, ⟨number, numbers, known, others, listed⟩, ⟨_, _, fits, restFits, same⟩, joined⟩
            subst listed joined
            cases same
            exact ⟨_, _, ⟨number, known, fits, rfl⟩, ⟨numbers, others, restFits, rfl⟩, rfl⟩

namespace Instr

variable {instr : Instr} {word : Word}

theorem label?_eq_none_of_numbers {numbers : List Int}
    (known : instr.operands.mapM Operand.number = .ok numbers) : instr.label? = none := by
  cases waiting : instr.label? with
  | none => rfl
  | some name =>
      obtain ⟨imm, present, label⟩ := Option.bind_eq_some_iff.mp waiting
      obtain ⟨number, isNumber⟩ := exists_ok_of_mem (mapM_eq_ok_iff.mp known) (imm_mem_operands present)
      cases imm with
      | value => cases label
      | label => cases isNumber

theorem head_or_pack {row : Row} (described : instr.row = .ok row) (operands : List Int) :
    row.head ||| Field.pack row.opcode.layout.operands operands =
      Field.pack instr.opcode.layout.fields
        (instr.opcode.code :: (instr.func?.toList.map Int.ofNat ++ operands)) := by
  obtain ⟨_, opcode, func⟩ := row_eq_ok_iff.mp described
  have both := isSome_func? instr
  rw [Row.head, opcode, func, Layout.fields, Field.pack_cons]
  cases field : instr.opcode.layout.func with
  | none =>
      have absent : instr.func? = none := by simpa [field] using both
      simp [absent]
  | some codeField =>
      obtain ⟨code, present⟩ := Option.isSome_iff_exists.mp (both.trans (by rw [field]; rfl))
      simp [present, Field.pack_cons, UInt16.or_assoc]

theorem fields_fit_iff (operands : List Int) :
    List.Forall₂ Field.Fits instr.opcode.layout.fields
        (instr.opcode.code :: (instr.func?.toList.map Int.ofNat ++ operands)) ↔
      List.Forall₂ Field.Fits instr.opcode.layout.operands operands := by
  obtain ⟨row, member, opcode, func⟩ := instr.exists_row
  have codeFits : opcodeField.Fits instr.opcode.code := by cases instr.opcode <;> decide
  have funcFits := Row.all_functions_fit row member
  rw [opcode, func] at funcFits
  rw [Layout.fields, List.forall₂_cons, and_iff_right codeFits]
  cases field : instr.opcode.layout.func with
  | none =>
      have absent : instr.func? = none := by simpa [field] using funcFits.1
      rw [absent]
      rfl
  | some codeField =>
      obtain ⟨code, present⟩ := Option.isSome_iff_exists.mp (funcFits.1.symm.trans (by rw [field]; rfl))
      have fits : codeField.Fits code := funcFits.2 codeField (by simp [field]) code (by simp [present])
      rw [present]
      exact List.forall₂_cons.trans (and_iff_right fits)

theorem encode_eq_ok_iff_pack :
    encode instr = .ok word ↔
      ∃ numbers, instr.numbers = .ok numbers ∧
        List.Forall₂ Field.Fits instr.opcode.layout.fields numbers ∧
        Field.pack instr.opcode.layout.fields numbers = word := by
  obtain ⟨row, member, opcode, func⟩ := instr.exists_row
  have described : instr.row = .ok row := row_eq_ok_iff.mpr ⟨member, opcode, func⟩
  have length : row.opcode.layout.operands.length = instr.operands.length := by
    rw [opcode, instr.operands_match.length_eq]
  constructor
  · intro encoded
    cases waiting : instr.label? with
    | some label => simp [encode, waiting] at encoded
    | none =>
        simp only [encode, waiting, described] at encoded
        obtain ⟨placed, mapped, joined⟩ := bind_eq_ok_iff.mp encoded
        obtain ⟨operands, known, fits, packed⟩ := (mapM_place_eq_ok_iff length).mp mapped
        cases joined
        rw [opcode] at fits
        refine ⟨_, map_eq_ok_iff.mpr ⟨operands, known, rfl⟩, (fields_fit_iff operands).mpr fits, ?_⟩
        rw [← head_or_pack described, Word.foldl_or, ← packed, Field.pack]
  · intro packable
    obtain ⟨numbers, listed, fits, packed⟩ := packable
    obtain ⟨operands, known, split⟩ := map_eq_ok_iff.mp listed
    subst split
    have operandsFit := (fields_fit_iff operands).mp fits
    rw [← opcode] at operandsFit
    simp only [encode, label?_eq_none_of_numbers known, described]
    refine bind_eq_ok_iff.mpr
      ⟨_, (mapM_place_eq_ok_iff length).mpr ⟨operands, known, operandsFit, rfl⟩, ?_⟩
    rw [Word.foldl_or, ← Field.pack, head_or_pack described, packed]
    rfl

theorem encode_eq_ok_iff_heldBy : encode instr = .ok word ↔ instr.HeldBy word := by
  have inside := instr.opcode.fields_inWord
  rw [encode_eq_ok_iff_pack]
  constructor
  · intro ⟨numbers, listed, fits, packed⟩
    subst packed
    refine ⟨?_, Field.pack_and_eq_zero inside instr.opcode.mask_and_reserved⟩
    rw [listed, Field.map_extract_pack inside instr.opcode.fields_disjoint fits]
  · intro held
    refine ⟨_, held.fields, ?_, ?_⟩
    · rw [List.forall₂_map_right_iff, List.forall₂_same]
      exact fun field member => Field.extract_fits (inside field member) word
    · rw [Field.pack_map_extract inside, ← Layout.usedMask_eq, Opcode.and_usedMask held.reserved]

end Instr

theorem Opcode.func_unsigned (opcode : Opcode) :
    ∀ field ∈ opcode.layout.func, field.kind = .unsigned := by
  cases opcode <;> decide

namespace Field

variable {field : Field} {word : Word} {operand : Operand} {value : Int}

theorem toNat_extract_eq_iff {code : Nat} (unsigned : field.kind = .unsigned) :
    code = (field.extract word).toNat ↔ (code : Int) = field.extract word := by
  have raw : field.extract word = field.bits word := by simp only [extract_eq_ofBits, ofBits, unsigned]
  rw [raw]
  omega

theorem word_bounds_of_fits (inside : field.InWord) (fits : field.Fits value) :
    -2 ^ 16 < value ∧ value < 2 ^ 16 := by
  have whole : (2 : Int) ^ field.width ≤ 2 ^ 16 :=
    pow_le_pow_right₀ (by decide) (by omega)
  have half := two_pow_width inside
  have bit : (0 : Int) < 2 ^ (field.width - 1) := Int.pow_pos (by decide)
  by_cases shape : field.kind = .signed
  · rw [fits_signed_iff shape] at fits
    omega
  · rw [fits_unsigned_iff shape] at fits
    omega

theorem ofInt_eq_iff {number : Int32} (inside : field.InWord) (fits : field.Fits value) :
    Int32.ofInt value = number ↔ number.toInt = value := by
  obtain ⟨lower, upper⟩ := word_bounds_of_fits inside fits
  constructor <;> intro same <;> subst same
  · exact Int32.toInt_ofInt_of_le (by omega) (by omega)
  · exact number.ofInt_toInt

theorem operand_eq_ok_iff (inside : field.InWord) (suits : operand.Matches field.kind) :
    field.operand word = .ok operand ↔ operand.number = .ok (field.extract word) := by
  cases operand with
  | reg reg =>
      have kind : field.kind = .reg := suits
      simp [operand, kind, map_eq_ok_iff, Reg.ofIndex_eq_ok_iff, Operand.number]
  | imm imm =>
      have literal : field.operand word = .ok (.imm (.value (Int32.ofInt (field.extract word)))) := by
        cases kind : field.kind with
        | reg => exact absurd kind suits
        | signed | unsigned => simp only [operand, kind]
      rw [literal]
      cases imm with
      | value number => simp [Operand.number, ofInt_eq_iff inside (extract_fits inside word)]
      | label name => simp [Operand.number]

theorem forall₂_operand_iff {fields : List Field} {operands : List Operand}
    (inside : ∀ field ∈ fields, field.InWord)
    (suits : List.Forall₂ (fun field operand => Operand.Matches operand field.kind) fields operands) :
    List.Forall₂ (fun field operand => field.operand word = .ok operand) fields operands ↔
      operands.mapM Operand.number = .ok (fields.map (·.extract word)) := by
  rw [mapM_eq_ok_iff]
  induction suits with
  | nil => simp
  | cons first _ ih =>
      rw [List.forall₂_cons, List.map_cons, List.forall₂_cons,
        operand_eq_ok_iff (inside _ (by simp)) first,
        ih fun field member => inside field (by simp [member])]

end Field

namespace Instr

variable {instr : Instr} {word : Word}

theorem decodeWord_eq_ok_iff :
    decodeWord word = .ok instr ↔
      instr.opcode.code = (opcodeField.extract word).toNat ∧
      word &&& instr.opcode.layout.reserved = 0 ∧
      instr.func? = instr.opcode.layout.func.map (fun field => (field.extract word).toNat) ∧
      List.Forall₂ (fun field operand => field.operand word = .ok operand)
        instr.opcode.layout.operands instr.operands := by
  simp only [decodeWord, bind_eq_ok_iff, mapError_eq_ok_iff, Opcode.ofCode_eq_ok_iff]
  constructor
  · intro ⟨opcode, code, decoded⟩
    split at decoded
    · rename_i clear
      obtain ⟨row, found, operands, read, built⟩ := by
        simpa only [bind_eq_ok_iff, mapError_eq_ok_iff, mapM_eq_ok_iff] using decoded
      obtain ⟨member, rowOpcode, rowFunc⟩ := Row.ofFunction_eq_ok_iff.mp found
      obtain ⟨described, listed⟩ := (ofOperands_eq_ok_iff_row member).mp built
      obtain ⟨_, opcodeSame, funcSame⟩ := row_eq_ok_iff.mp described
      have same : opcode = instr.opcode := rowOpcode.symm.trans opcodeSame
      subst same listed
      exact ⟨code, clear, funcSame.symm.trans rowFunc, read⟩
    · cases decoded
  · intro ⟨code, clear, func, read⟩
    obtain ⟨row, member, opcodeSame, funcSame⟩ := instr.exists_row
    refine ⟨instr.opcode, code, ?_⟩
    rw [if_pos clear]
    simp only [bind_eq_ok_iff, mapError_eq_ok_iff, mapM_eq_ok_iff]
    exact ⟨row, Row.ofFunction_eq_ok_iff.mpr ⟨member, opcodeSame, funcSame.trans func⟩,
      instr.operands, read,
      (ofOperands_eq_ok_iff_row member).mpr ⟨row_eq_ok_iff.mpr ⟨member, opcodeSame, funcSame⟩, rfl⟩⟩

theorem numbers_eq_ok_iff :
    instr.numbers = .ok (instr.opcode.layout.fields.map (·.extract word)) ↔
      (instr.opcode.code : Int) = opcodeField.extract word ∧
      instr.func?.toList.map Int.ofNat = instr.opcode.layout.func.toList.map (·.extract word) ∧
      instr.operands.mapM Operand.number =
        .ok (instr.opcode.layout.operands.map (·.extract word)) := by
  have length : (instr.func?.toList.map Int.ofNat).length =
      (instr.opcode.layout.func.toList.map (·.extract word)).length := by
    have both := isSome_func? instr
    revert both
    cases instr.func? <;> cases instr.opcode.layout.func <;> simp
  rw [numbers, map_eq_ok_iff, Layout.fields, List.map_cons, List.map_append]
  constructor
  · intro ⟨operands, known, listed⟩
    obtain ⟨code, rest⟩ := List.cons.inj listed
    obtain ⟨func, same⟩ := List.append_inj rest length
    exact ⟨code, func, same ▸ known⟩
  · intro ⟨code, func, known⟩
    exact ⟨_, known, by rw [code, func]⟩

theorem func?_eq_iff :
    instr.func? = instr.opcode.layout.func.map (fun field => (field.extract word).toNat) ↔
      instr.func?.toList.map Int.ofNat = instr.opcode.layout.func.toList.map (·.extract word) := by
  have unsigned := instr.opcode.func_unsigned
  cases present : instr.opcode.layout.func with
  | none => cases instr.func? <;> simp
  | some field =>
      cases instr.func? with
      | none => simp
      | some code => simp [Field.toNat_extract_eq_iff (unsigned field present)]

theorem decode_eq_ok_iff_heldBy : decode word = .ok instr ↔ instr.HeldBy word := by
  have inside : ∀ field ∈ instr.opcode.layout.operands, field.InWord := by
    intro field member
    exact instr.opcode.fields_inWord field (by simp [Layout.fields, member])
  rw [decode, mapError_eq_ok_iff, decodeWord_eq_ok_iff, func?_eq_iff,
    Field.toNat_extract_eq_iff rfl, Field.forall₂_operand_iff inside instr.operands_match]
  constructor
  · intro ⟨code, clear, func, operands⟩
    exact ⟨numbers_eq_ok_iff.mpr ⟨code, func, operands⟩, clear⟩
  · intro held
    obtain ⟨code, func, operands⟩ := numbers_eq_ok_iff.mp held.fields
    exact ⟨code, held.reserved, func, operands⟩

end Instr

/-- The operand is a number that the field can hold. -/
def Field.Takes (field : Field) (operand : Operand) : Prop :=
  ∃ number, operand.number = .ok number ∧ field.Fits number

theorem Field.exists_numbers_iff_takes {fields : List Field} {operands : List Operand} :
    (∃ numbers, operands.mapM Operand.number = .ok numbers ∧ List.Forall₂ Field.Fits fields numbers) ↔
      List.Forall₂ Field.Takes fields operands := by
  simp only [mapM_eq_ok_iff]
  constructor
  · intro ⟨numbers, known, fits⟩
    induction fits generalizing operands with
    | nil => cases known; exact .nil
    | cons first _ ih =>
        cases known with
        | cons number others => exact .cons ⟨_, number, first⟩ (ih others)
  · intro takes
    induction takes with
    | nil => exact ⟨[], .nil, .nil⟩
    | cons first _ ih =>
        obtain ⟨number, known, fits⟩ := first
        obtain ⟨numbers, others, restFits⟩ := ih
        exact ⟨number :: numbers, .cons known others, .cons fits restFits⟩

theorem Field.takes_value_iff {field : Field} {value : Int32} :
    field.Takes (.imm (.value value)) ↔ field.Fits value.toInt := by
  constructor
  · intro ⟨number, known, fits⟩
    cases known
    exact fits
  · exact fun fits => ⟨_, rfl, fits⟩

theorem Field.not_takes_label {field : Field} {name : String} : ¬ field.Takes (.imm (.label name)) := by
  intro ⟨number, known, _⟩
  cases known

theorem Field.takes_reg {field : Field} (shape : field.kind = .reg ∧ field.width = 4) (reg : Reg) :
    field.Takes (.reg reg) := by
  have bound := reg.isLt
  refine ⟨reg.val, rfl, ?_⟩
  simp only [Field.Fits, Field.least, Field.greatest, shape]
  omega

namespace Instr

variable {instr : Instr} {word : Word}

/-- No label is left, and the immediate fits its field. -/
def Encodable (instr : Instr) : Prop :=
  instr.label? = none ∧
    ∀ field ∈ instr.immField?, ∀ value ∈ instr.imm?.bind Imm.value?, field.Fits value.toInt

theorem encodable_of_no_imm (absent : instr.imm? = none) : instr.Encodable := by
  simp [Encodable, label?, absent]

/-- The immediate alone decides what an instruction with an immediate can do. -/
theorem takes_imm_iff_encodable {field : Field} {imm : Imm} (place : instr.immField? = some field)
    (present : instr.imm? = some imm) : field.Takes (.imm imm) ↔ instr.Encodable := by
  cases imm with
  | value value =>
      rw [Field.takes_value_iff]
      simp [Encodable, label?, place, present, Imm.label?, Imm.value?]
  | label name =>
      refine iff_of_false Field.not_takes_label ?_
      simp [Encodable, label?, present, Imm.label?]

theorem takes_operands_iff_encodable :
    List.Forall₂ Field.Takes instr.opcode.layout.operands instr.operands ↔ instr.Encodable := by
  -- Registers always fit, so what is left to decide is the immediate.
  have r1 := @Field.takes_reg Layout.r1 ⟨rfl, rfl⟩
  have r2 := @Field.takes_reg Layout.r2 ⟨rfl, rfl⟩
  have last {field : Field} {operand : Operand} :
      List.Forall₂ Field.Takes [field] [operand] ↔ field.Takes operand :=
    List.forall₂_cons.trans (and_iff_left .nil)
  cases instr with
  | alu op left right | mem op left right =>
      exact iff_of_true (.cons (r1 left) (.cons (r2 right) .nil)) (encodable_of_no_imm rfl)
  | sys op => exact iff_of_true .nil (encodable_of_no_imm rfl)
  | jump target | jal target => exact last.trans (takes_imm_iff_encodable rfl rfl)
  | branch cond rs offset =>
      rw [← takes_imm_iff_encodable rfl rfl, ← last]
      exact List.forall₂_cons.trans (and_iff_right (r1 rs))
  | immediate op rd imm =>
      cases op <;>
        · rw [← takes_imm_iff_encodable rfl rfl, ← last]
          exact List.forall₂_cons.trans (and_iff_right (r1 rd))

theorem exists_encode_iff_encodable : (∃ word, encode instr = .ok word) ↔ instr.Encodable := by
  rw [← takes_operands_iff_encodable, ← Field.exists_numbers_iff_takes]
  simp only [encode_eq_ok_iff_pack, numbers, map_eq_ok_iff]
  constructor
  · intro ⟨word, _, ⟨operands, known, split⟩, fits, _⟩
    subst split
    exact ⟨operands, known, (fields_fit_iff operands).mp fits⟩
  · intro ⟨operands, known, fits⟩
    exact ⟨_, _, ⟨operands, known, rfl⟩, (fields_fit_iff operands).mpr fits, rfl⟩

theorem encode_eq_ok_iff_decode : encode instr = .ok word ↔ decode word = .ok instr := by
  rw [encode_eq_ok_iff_heldBy, decode_eq_ok_iff_heldBy]

theorem encodable_of_decode (decoded : decode word = .ok instr) : instr.Encodable :=
  exists_encode_iff_encodable.mp ⟨word, encode_eq_ok_iff_decode.mpr decoded⟩

end Instr

/-- Encoding and decoding undo each other, and what can be encoded is what needs no label and no
wider field. -/
theorem encode_inverse_decode :
    (∀ (instr : Instr) (word : Word), encode instr = .ok word ↔ decode word = .ok instr) ∧
      (∀ (left right : Instr) (word : Word),
        encode left = .ok word → encode right = .ok word → left = right) ∧
      (∀ word : Word, (∃ instr, encode instr = .ok word) ↔ ∃ instr, decode word = .ok instr) ∧
      (∀ instr : Instr, (∃ word, encode instr = .ok word) ↔
        instr.label? = none ∧
          ∀ field ∈ instr.immField?, ∀ value ∈ instr.imm?.bind Imm.value?, field.Fits value.toInt) := by
  have inverse : ∀ (instr : Instr) (word : Word),
      encode instr = .ok word ↔ decode word = .ok instr := by
    intro instr word
    rw [Instr.encode_eq_ok_iff_heldBy, Instr.decode_eq_ok_iff_heldBy]
  refine ⟨inverse, ?_, ?_, fun instr => Instr.exists_encode_iff_encodable⟩
  · intro left right word leftEncoded rightEncoded
    have decoded := (inverse left word).mp leftEncoded
    rw [(inverse right word).mp rightEncoded] at decoded
    exact (Except.ok.inj decoded).symm
  · intro word
    simp only [inverse]

end Asm16
