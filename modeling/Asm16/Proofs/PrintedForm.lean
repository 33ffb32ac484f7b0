import Mathlib.Tactic.MkIffOfInductiveProp
import Asm16.Proofs.Grammar

namespace Asm16

/-- A character that belongs to one token wherever it stands in a line. -/
@[mk_iff]
structure Plain (c : Char) : Prop where
  noComma : c ≠ ','
  noColon : c ≠ ':'
  noComment : c ≠ '#'
  noBlank : Text.isBlank c = false

instance : DecidablePred Plain :=
  fun c => decidable_of_iff' _ (plain_iff c)

/-- A token that is read as it stands. -/
structure Solid (token : List Char) : Prop where
  nonempty : token ≠ []
  plain : ∀ c ∈ token, Plain c

variable {c : Char} {token first : List Char} {tokens : List (List Char)}

theorem plain_of_visible (visible : 0x21 ≤ c.toNat ∧ c.toNat ≤ 0x7E) (noComma : c.toNat ≠ 0x2C)
    (noColon : c.toNat ≠ 0x3A) (noComment : c.toNat ≠ 0x23) : Plain c where
  noComma := by
    rintro rfl
    exact noComma rfl
  noColon := by
    rintro rfl
    exact noColon rfl
  noComment := by
    rintro rfl
    exact noComment rfl
  noBlank := by
    simp only [Text.isBlank, Text.blankRanges, List.any_cons, List.any_nil, Bool.or_false,
      Bool.or_eq_false_iff, Bool.and_eq_false_iff, decide_eq_false_iff_not]
    omega

theorem plain_of_name (allowed : c.isAlpha ∨ c.isDigit ∨ c = '_' ∨ c = '.') : Plain c := by
  rcases allowed with letter | digit | rfl | rfl
  · rcases Bool.or_eq_true_iff.mp letter with upper | lower
    · have range : 65 ≤ c.toNat ∧ c.toNat ≤ 90 := (of_decide_eq_true upper :)
      exact plain_of_visible (by omega) (by omega) (by omega) (by omega)
    · have range : 97 ≤ c.toNat ∧ c.toNat ≤ 122 :=
        (Bool.and_eq_true_iff.mp lower).imp (of_decide_eq_true ·) (of_decide_eq_true ·)
      exact plain_of_visible (by omega) (by omega) (by omega) (by omega)
  · have range : 48 ≤ c.toNat ∧ c.toNat ≤ 57 := Char.isDigit_iff_toNat.mp digit
    exact plain_of_visible (by omega) (by omega) (by omega) (by omega)
  · decide
  · decide

theorem Identifier.solid (identifier : Identifier token) : Solid token := by
  obtain ⟨starts, continues⟩ := identifier
  refine ⟨List.cons_ne_nil _ _, ?_⟩
  intro c member
  rcases List.mem_cons.mp member with rfl | later
  · exact plain_of_name (starts.imp_right .inr)
  · exact plain_of_name (continues c later)

theorem Decimal.solid {number : Int} (decimal : Decimal token number) : Solid token := by
  have digits : ∀ {digits : List Char}, (∀ c ∈ digits, c.isDigit) → ∀ c ∈ digits, Plain c :=
    fun all c member => plain_of_name (.inr (.inl (all c member)))
  cases decimal with
  | plain nonempty all => exact ⟨nonempty, digits all⟩
  | plus _ all => exact ⟨List.cons_ne_nil _ _, List.forall_mem_cons.mpr ⟨by decide, digits all⟩⟩
  | minus _ all => exact ⟨List.cons_ne_nil _ _, List.forall_mem_cons.mpr ⟨by decide, digits all⟩⟩

theorem Solid.trimmed (solid : Solid token) : Trimmed token token where
  around := ⟨[], [], by simp⟩
  first c member := (solid.plain c (List.mem_of_mem_head? member)).noBlank
  last c member := (solid.plain c (List.mem_of_mem_getLast? member)).noBlank

theorem Solid.trimmed_blank (solid : Solid token) : Trimmed (' ' :: token) token where
  around := ⟨[' '], [], by simp [show Text.isBlank ' ' = true by decide]⟩
  first := solid.trimmed.first
  last := solid.trimmed.last

theorem intercalate_comma_blank (first : List Char) (tokens : List (List Char)) :
    [',', ' '].intercalate (first :: tokens) = [','].intercalate (first :: tokens.map (' ' :: ·)) := by
  induction tokens generalizing first with
  | nil => rfl
  | cons second tokens ih =>
      rw [List.intercalate_cons_cons, ih, List.map_cons, List.intercalate_cons_cons]
      cases tokens <;> simp

theorem pieces_of_solid (solid : ∀ token ∈ first :: tokens, Solid token) :
    Pieces ',' ([',', ' '].intercalate (first :: tokens)) (first :: tokens.map (' ' :: ·)) := by
  have free : ∀ {token}, token ∈ first :: tokens → ',' ∉ token :=
    fun member comma => ((solid _ member).plain ',' comma).noComma rfl
  rw [intercalate_comma_blank, ← splitOn_eq_iff]
  apply List.splitOn_intercalate
  · intro piece member
    rcases List.mem_cons.mp member with rfl | later
    · exact free List.mem_cons_self
    · obtain ⟨token, inside, rfl⟩ := List.mem_map.mp later
      simpa using free (List.mem_cons_of_mem _ inside)
  · exact List.cons_ne_nil _ _

theorem trimmed_of_solid (solid : ∀ token ∈ first :: tokens, Solid token) :
    List.Forall₂ Trimmed (first :: tokens.map (' ' :: ·)) (first :: tokens) := by
  refine .cons (solid first List.mem_cons_self).trimmed ?_
  rw [List.forall₂_map_left_iff, List.forall₂_same]
  exact fun token member => (solid token (List.mem_cons_of_mem _ member)).trimmed_blank

theorem mem_intercalate_solid (solid : ∀ token ∈ tokens, Solid token)
    (member : c ∈ [',', ' '].intercalate tokens) : Plain c ∨ c = ',' ∨ c = ' ' := by
  induction tokens with
  | nil => simp at member
  | cons first tokens ih =>
      have plain := (solid first List.mem_cons_self).plain c
      cases tokens with
      | nil => exact .inl (plain (by simpa using member))
      | cons second tokens =>
          rw [List.intercalate_cons_cons, List.mem_append, List.mem_append] at member
          rcases member with (inside | between) | later
          · exact .inl (plain inside)
          · exact .inr (by simpa using between)
          · exact ih (fun token inside => solid token (List.mem_cons_of_mem _ inside)) later

theorem intercalate_solid_ne_nil (solid : ∀ token ∈ first :: tokens, Solid token) :
    [',', ' '].intercalate (first :: tokens) ≠ [] := by
  have nonempty := (solid first List.mem_cons_self).nonempty
  cases tokens with
  | nil => simpa using nonempty
  | cons second tokens => simp [List.intercalate_cons_cons]

theorem plain_of_last (solid : ∀ token ∈ first :: tokens, Solid token)
    (last : c ∈ ([',', ' '].intercalate (first :: tokens)).getLast?) : Plain c := by
  induction tokens generalizing first with
  | nil =>
      rw [List.intercalate_singleton] at last
      exact (solid first List.mem_cons_self).plain c (List.mem_of_mem_getLast? last)
  | cons second tokens ih =>
      have rest : ∀ token ∈ second :: tokens, Solid token :=
        fun token member => solid token (List.mem_cons_of_mem _ member)
      rw [List.intercalate_cons_cons, List.getLast?_append_of_ne_nil _ (intercalate_solid_ne_nil rest)] at last
      exact ih rest last

theorem plain_of_head (solid : ∀ token ∈ first :: tokens, Solid token)
    (head : c ∈ ([',', ' '].intercalate (first :: tokens)).head?) : Plain c := by
  have token := solid first List.mem_cons_self
  apply token.plain c
  apply List.mem_of_mem_head?
  cases tokens with
  | nil => simpa using head
  | cons second tokens =>
      rwa [List.intercalate_cons_cons, List.append_assoc,
        List.head?_append_of_ne_nil _ token.nonempty] at head

theorem lineText_of_solid (solid : ∀ token ∈ first :: tokens, Solid token) :
    lineText ([',', ' '].intercalate (first :: tokens)) = [',', ' '].intercalate (first :: tokens) := by
  refine lineText_eq_iff.mpr ⟨_, .plain ?_, ⟨[], [], by simp⟩, ?_, ?_⟩
  · intro mark
    rcases mem_intercalate_solid solid mark with plain | same | same
    · exact plain.noComment rfl
    · cases same
    · cases same
  · exact fun c head => (plain_of_head solid head).noBlank
  · exact fun c last => (plain_of_last solid last).noBlank

theorem decimal_numeral (value : Int) : Decimal (Numeral.decimal value) value := by
  have digits : ∀ c ∈ Nat.toDigits 10 value.natAbs, c.isDigit :=
    fun c member => Nat.isDigit_of_mem_toDigits (by decide) (by decide) member
  have denoted : Nat.ofDigitChars 10 (Nat.toDigits 10 value.natAbs) 0 = value.natAbs :=
    Nat.ofDigitChars_toDigits (by decide) (by decide)
  unfold Numeral.decimal
  split
  · rename_i negative
    have form := Decimal.minus Nat.toDigits_ne_nil digits
    rwa [denoted, Int.ofNat_natAbs_of_nonpos (by omega), Int.neg_neg] at form
  · rename_i nonnegative
    have form := Decimal.plain Nat.toDigits_ne_nil digits
    rwa [denoted, Int.natAbs_of_nonneg (by omega)] at form

/-- A label operand has a name that source text can spell. -/
def Operand.Named : Operand → Prop
  | .imm (.label name) => Identifier name.toList
  | .reg _ | .imm (.value _) => True

theorem Operand.token_chars {operand : Operand} {kind : FieldKind} (suits : operand.Matches kind)
    (named : operand.Named) : OperandToken kind operand.chars operand := by
  match operand with
  | .reg register =>
      cases (suits : kind = .reg)
      exact .reg (.mk (decimal_numeral _))
  | .imm (.value value) =>
      have lower := value.le_toInt
      have upper := value.toInt_lt
      exact .imm suits (.value (decimal_numeral _) (by omega))
  | .imm (.label name) =>
      have label : ImmToken name.toList (.label (String.ofList name.toList)) := .label named
      rw [String.ofList_toList] at label
      exact .imm suits label

theorem RegToken.solid {reg : Reg} (register : RegToken token reg) : Solid token := by
  obtain ⟨index⟩ := register
  refine ⟨List.cons_ne_nil _ _, ?_⟩
  exact List.forall_mem_cons.mpr ⟨by decide, List.forall_mem_cons.mpr ⟨by decide, index.solid.plain⟩⟩

theorem OperandToken.solid {kind : FieldKind} {operand : Operand}
    (read : OperandToken kind token operand) : Solid token := by
  cases read with
  | reg register => exact register.solid
  | imm _ immediate =>
      cases immediate with
      | value decimal => exact decimal.solid
      | label identifier => exact identifier.solid

theorem OperandToken.named {kind : FieldKind} {operand : Operand}
    (read : OperandToken kind token operand) : operand.Named := by
  cases read with
  | reg => exact trivial
  | imm _ immediate =>
      cases immediate with
      | value => exact trivial
      | label identifier => simpa [Operand.Named] using identifier

theorem OperandTokens.solid {fields : List Field} {operands : List Operand}
    (read : OperandTokens fields tokens operands) : ∀ token ∈ tokens, Solid token := by
  induction read with
  | nil => simp
  | cons first _ ih => exact List.forall_mem_cons.mpr ⟨first.solid, ih⟩

theorem OperandTokens.named {fields : List Field} {operands : List Operand}
    (read : OperandTokens fields tokens operands) : ∀ operand ∈ operands, operand.Named := by
  induction read with
  | nil => simp
  | cons first _ ih => exact List.forall_mem_cons.mpr ⟨first.named, ih⟩

theorem operandTokens_chars {fields : List Field} {operands : List Operand}
    (suits : List.Forall₂ (fun field operand => Operand.Matches operand field.kind) fields operands)
    (named : ∀ operand ∈ operands, operand.Named) :
    OperandTokens fields (operands.map Operand.chars) operands := by
  induction suits with
  | nil => exact .nil
  | cons first _ ih =>
      obtain ⟨firstNamed, restNamed⟩ := List.forall_mem_cons.mp named
      exact .cons (Operand.token_chars first firstNamed) (ih restNamed)

-- Boolean searches walk the table; a quantifier over characters would walk all of them.
theorem mnemonics_plain :
    Row.all.all fun row => row.mnemonic ≠ "" && row.mnemonic.toList.all (Plain ·) := by
  decide

namespace Instr

variable {instr : Instr}

theorem mnemonic_of_row {row : Row} (described : instr.row = .ok row) : instr.mnemonic = row.mnemonic := by
  rw [mnemonic, described]

theorem exists_row_eq_ok (instr : Instr) : ∃ row ∈ Row.all, instr.row = .ok row := by
  obtain ⟨row, member, opcode, func⟩ := instr.exists_row
  exact ⟨row, member, row_eq_ok_iff.mpr ⟨member, opcode, func⟩⟩

theorem mnemonic_solid (instr : Instr) : Solid instr.mnemonic.toList := by
  obtain ⟨row, member, described⟩ := instr.exists_row_eq_ok
  have letters := List.all_eq_true.mp mnemonics_plain row member
  simp only [Bool.and_eq_true, decide_eq_true_eq, List.all_eq_true] at letters
  rw [mnemonic_of_row described]
  exact ⟨by simpa using letters.1, letters.2⟩

theorem named_operands_iff :
    (∀ operand ∈ instr.operands, operand.Named) ↔ ∀ name ∈ instr.label?, Identifier name.toList := by
  have imm : ∀ imm : Imm, (Operand.imm imm).Named ↔ ∀ name ∈ imm.label?, Identifier name.toList := by
    intro imm
    cases imm <;> simp [Operand.Named, Imm.label?]
  have reg : ∀ reg, (Operand.reg reg).Named := fun _ => trivial
  cases instr <;> simp [operands, label?, imm?, imm, reg]

theorem solid_chars (named : ∀ name ∈ instr.label?, Identifier name.toList) :
    ∀ token ∈ instr.mnemonic.toList :: instr.operands.map Operand.chars, Solid token := by
  have tokens := operandTokens_chars instr.operands_match (named_operands_iff.mpr named)
  exact List.forall_mem_cons.mpr ⟨instr.mnemonic_solid, tokens.solid⟩

theorem instrText_chars (named : ∀ name ∈ instr.label?, Identifier name.toList) :
    InstrText instr.chars instr := by
  have solid := solid_chars named
  have tokens := operandTokens_chars instr.operands_match (named_operands_iff.mpr named)
  obtain ⟨row, member, described⟩ := instr.exists_row_eq_ok
  obtain ⟨_, opcode, func⟩ := row_eq_ok_iff.mp described
  refine .mk (pieces_of_solid solid) (trimmed_of_solid solid) member ?_ opcode.symm func.symm ?_
  · rw [mnemonic_of_row described]
  · rw [opcode]
    exact tokens

end Instr

theorem InstrText.named {text : List Char} {instr : Instr} (form : InstrText text instr) :
    ∀ name ∈ instr.label?, Identifier name.toList := by
  obtain ⟨_, _, _, _, _, _, operands⟩ := form
  exact Instr.named_operands_iff.mp operands.named

theorem parseLine_eq_some_iff {line : String} {instr : Instr} :
    parseLine line = .ok (some instr) ↔ InstrText (lineText line.toList) instr := by
  simp only [parseLine]
  split
  · rename_i empty
    rw [empty]
    simp [not_instrText_nil]
  · rw [mapError_eq_ok_iff, map_eq_ok_iff]
    simp [readInstr_eq_ok_iff]

/-- The printed form of an instruction reads as the instruction exactly if its label, where it has
one, is an identifier. So printing what a line was read as changes nothing. -/
theorem parseLine_text_iff_identifier :
    (∀ instr : Instr, parseLine instr.text = .ok (some instr) ↔
      ∀ name, instr.label? = some name → Token.isIdentifier name.toList) ∧
    ∀ (line : String) (instr : Instr), parseLine line = .ok (some instr) →
      parseLine instr.text = .ok (some instr) := by
  have roundTrip : ∀ instr : Instr, parseLine instr.text = .ok (some instr) ↔
      ∀ name ∈ instr.label?, Identifier name.toList := by
    intro instr
    rw [parseLine_eq_some_iff]
    refine ⟨InstrText.named, fun named => ?_⟩
    rw [Instr.text, String.toList_ofList, Instr.chars, lineText_of_solid (Instr.solid_chars named)]
    exact Instr.instrText_chars named
  refine ⟨?_, ?_⟩
  · intro instr
    simp only [roundTrip, Token.isIdentifier_iff, Option.mem_def]
  · intro line instr read
    rw [parseLine_eq_some_iff] at read
    exact (roundTrip instr).mpr read.named

end Asm16
