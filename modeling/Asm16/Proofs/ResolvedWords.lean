import Asm16.Proofs.ControlTransfer
import Asm16.Proofs.Pipeline

namespace Asm16

variable {source : String} {config : Config} {program : Program} {origin address : Word}
  {table : SymbolTable} {stmt : Statement} {result : Resolved} {statements : List Resolved}
  {reporting : Reporting}

theorem Instr.encodable_withImm {instr : Instr} {field : Field} {imm : Imm} {number : Int}
    (slot : instr.immField? = some field) (present : instr.imm? = some imm) (fits : field.Fits number) :
    (instr.withImm (.value (Int32.ofInt number))).Encodable := by
  have kept : (Int32.ofInt number).toInt = number :=
    (Field.ofInt_eq_iff (Instr.immField?_inWord slot) fits).mp rfl
  have sameSlot : (instr.withImm (.value (Int32.ofInt number))).immField? = some field := by
    rw [Instr.immField?_withImm, slot]
  rw [← Instr.takes_imm_iff_encodable sameSlot (Instr.imm?_withImm present), Field.takes_value_iff, kept]
  exact fits

theorem Statement.encodable_of_resolve (resolved : stmt.resolve table address = .ok result) :
    result.instr.Encodable := by
  unfold Statement.resolve at resolved
  split at resolved
  · rename_i field imm slot present
    split at resolved
    · cases resolved
    · split at resolved
      · rename_i number _ fits
        cases resolved
        exact Instr.encodable_withImm slot present fits
      · cases resolved
  · rename_i absent
    cases resolved
    cases present : stmt.instr.imm? with
    | none => exact Instr.encodable_of_no_imm present
    | some imm =>
        obtain ⟨field, slot⟩ := Instr.exists_immField present
        exact (absent field imm slot present).elim

theorem Program.encodable_of_substitute
    (substituted : program.substitute reporting origin table = .ok statements) :
    ∀ result ∈ statements, result.instr.Encodable := by
  intro result member
  have resolved := Reporting.traverse_eq_ok_iff.mp substituted
  obtain ⟨pair, _, made⟩ := exists_input_of_mem resolved member
  exact Statement.encodable_of_resolve made

theorem exists_encodeStatements (encodable : ∀ result ∈ statements, result.instr.Encodable) :
    ∃ words, encodeStatements reporting statements = .ok words := by
  have succeeds : ∀ result ∈ statements, ∃ word,
      (encode result.instr).mapError (AssemblyError.encode result.lineNo ·) = .ok word := by
    intro result member
    obtain ⟨word, encoded⟩ := Instr.exists_encode_iff_encodable.mpr (encodable result member)
    exact ⟨word, mapError_eq_ok_iff.mpr encoded⟩
  obtain ⟨words, mapped⟩ := exists_mapM_eq_ok_iff.mpr succeeds
  refine ⟨words, mapError_eq_ok_iff.mpr ?_⟩
  exact Reporting.traverse_eq_ok_iff.mpr (mapM_eq_ok_iff.mp mapped)

namespace AssemblyError

/-- The error is a refusal of the encoder, or has one inside. -/
inductive FromEncoder : AssemblyError → Prop
  | single (lineNo : Nat) (error : EncodeError) : FromEncoder (.encode lineNo error)
  | inside {errors : List AssemblyError} {error : AssemblyError} (member : error ∈ errors)
      (refusal : FromEncoder error) : FromEncoder (.multiple errors)

theorem FromEncoder.exists_of_ofList {errors : List AssemblyError} (refusal : (ofList errors).FromEncoder) :
    ∃ error ∈ errors, error.FromEncoder := by
  unfold ofList at refusal
  split at refusal
  · exact ⟨_, List.mem_singleton_self _, refusal⟩
  · cases refusal with
    | inside member refusal => exact ⟨_, member, refusal⟩

theorem not_fromEncoder_ofList {ε : Type} {wrap : ε → AssemblyError}
    (other : ∀ error, ¬ (wrap error).FromEncoder) (errors : List ε) :
    ¬ (ofList (errors.map wrap)).FromEncoder := by
  intro refusal
  obtain ⟨error, member, inside⟩ := refusal.exists_of_ofList
  obtain ⟨cause, _, rfl⟩ := List.mem_map.mp member
  exact other cause inside

theorem not_fromEncoder_parse (error : ParseError) : ¬ (AssemblyError.parse error).FromEncoder :=
  nofun

theorem not_fromEncoder_resolve (error : ResolveError) : ¬ (AssemblyError.resolve error).FromEncoder :=
  nofun

end AssemblyError

theorem Program.not_fromEncoder_of_parseWith {error : AssemblyError}
    (failed : Program.parseWith reporting source = .error error) : ¬ error.FromEncoder := by
  cases reporting with
  | first =>
      obtain ⟨cause, _, rfl⟩ := mapError_eq_error_iff.mp failed
      exact AssemblyError.not_fromEncoder_parse cause
  | all =>
      obtain ⟨causes, _, rfl⟩ := mapError_eq_error_iff.mp failed
      exact AssemblyError.not_fromEncoder_ofList AssemblyError.not_fromEncoder_parse causes

theorem not_fromEncoder_of_assemble {error : AssemblyError} (failed : assemble source config = .error error) :
    ¬ error.FromEncoder := by
  rcases bind_eq_error_iff.mp failed with unparsed | ⟨program, _, later⟩
  · exact Program.not_fromEncoder_of_parseWith unparsed
  rcases bind_eq_error_iff.mp later with unbound | ⟨table, _, later⟩
  · obtain ⟨causes, _, rfl⟩ := mapError_eq_error_iff.mp unbound
    exact AssemblyError.not_fromEncoder_ofList AssemblyError.not_fromEncoder_resolve causes
  rcases bind_eq_error_iff.mp later with unresolved | ⟨statements, resolved, later⟩
  · obtain ⟨causes, _, rfl⟩ := mapError_eq_error_iff.mp unresolved
    exact AssemblyError.not_fromEncoder_ofList AssemblyError.not_fromEncoder_resolve causes
  -- the last stage cannot fail on what the second pass returned
  have encodable := Program.encodable_of_substitute (mapError_eq_ok_iff.mp resolved)
  obtain ⟨words, encoded⟩ := @exists_encodeStatements statements config.reporting encodable
  rw [encoded] at later
  cases later

/-- No assembly is refused by the encoder: what the second pass returns, with any table, waits for
no label and has a word. -/
theorem assemble_never_refused_by_encoder :
    (∀ (source : String) (config : Config) (error : AssemblyError),
      assemble source config = .error error → ¬ error.FromEncoder) ∧
    ∀ (program : Program) (reporting : Reporting) (origin : Word) (table : SymbolTable)
      (statements : List Resolved), program.substitute reporting origin table = .ok statements →
      ∀ result ∈ statements, result.instr.label? = none ∧ ∃ word, encode result.instr = .ok word := by
  refine ⟨fun _ _ _ failed => not_fromEncoder_of_assemble failed, ?_⟩
  intro program reporting origin table statements substituted result member
  have encodable := Program.encodable_of_substitute substituted result member
  exact ⟨encodable.1, Instr.exists_encode_iff_encodable.mpr encodable⟩

end Asm16
