import Asm16.Flow.Labels
import Asm16.Proofs.Codec

namespace Asm16

theorem absoluteTarget_eq {value : Int32} {target : Nat} (same : value.toInt = target) :
    absoluteTarget value = target := by
  have wrapped : value.toInt = Int.bmod value.toUInt32.toNat (2 ^ 32) := BitVec.toInt_eq_toNat_bmod _
  have small := value.toUInt32.toNat_lt
  rw [same, Int.bmod_def] at wrapped
  rw [absoluteTarget]
  split at wrapped <;> omega

theorem relativeTarget_eq {offset : Int32} {address target : Nat} (bound : target < addressSpace)
    (same : offset.toInt = (target : Int) - address) : relativeTarget address offset = target := by
  rw [relativeTarget, same]
  unfold addressSpace at *
  omega

namespace Instr

variable {instr : Instr} {address target : Nat} {kind : EdgeKind} {labels : Labels} {name : String}

/-- The kind of the edge to the address of the operand. -/
def transfer? : Instr → Option EdgeKind
  | .jump _ => some .branch
  | .jal _ => some .call
  | .branch .. => some .condBranch
  | .alu .. | .immediate .. | .mem .. | .sys _ => none

theorem mem_successors_iff (leaves : kind ≠ .fallthrough) :
    (target, kind) ∈ instr.successors address ↔
      instr.transfer? = some kind ∧ instr.target? address = some target := by
  cases instr with
  | sys op => cases op <;> simp [successors, transfer?, leaves]
  | alu | immediate | mem => simp [successors, transfer?, leaves]
  | jump | jal | branch => simp [successors, transfer?, leaves, and_comm, eq_comm]

theorem mem_edges_iff {edge : Edge} :
    edge ∈ instr.edges address ↔
      edge.source = address ∧ (edge.target, edge.kind) ∈ instr.successors address := by
  rw [edges, List.mem_map]
  refine ⟨?_, ?_⟩
  · rintro ⟨successor, follows, rfl⟩
    exact ⟨rfl, follows⟩
  · rintro ⟨rfl, follows⟩
    exact ⟨_, follows, rfl⟩

theorem ne_fallthrough_of_transfer? (transfers : instr.transfer? = some kind) : kind ≠ .fallthrough := by
  rintro rfl
  cases instr <;> cases transfers

theorem exists_target (literal : instr.label? = none) (transfers : instr.transfer? = some kind)
    (address : Nat) : ∃ target, instr.target? address = some target := by
  cases instr with
  | jump imm | jal imm | branch _ _ imm =>
      cases imm with
      | value value => exact ⟨_, rfl⟩
      | label name => simp [label?, imm?, Imm.label?] at literal
  | alu | immediate | mem | sys => simp [transfer?] at transfers

@[simp] theorem opcode_withImm (instr : Instr) (imm : Imm) : (instr.withImm imm).opcode = instr.opcode := by
  cases instr <;> rfl

@[simp] theorem immField?_withImm (instr : Instr) (imm : Imm) :
    (instr.withImm imm).immField? = instr.immField? := by
  rw [immField?, opcode_withImm, immField?]

@[simp] theorem withImm_withImm (instr : Instr) (first second : Imm) :
    (instr.withImm first).withImm second = instr.withImm second := by
  cases instr <;> rfl

theorem imm?_withImm {old imm : Imm} (present : instr.imm? = some old) :
    (instr.withImm imm).imm? = some imm := by
  cases instr <;> first | rfl | cases present

theorem symbolize_of_named (sends : instr.target? address = some target)
    (named : labels[target]? = some name) : instr.symbolize labels address = instr.withImm (.label name) := by
  rw [symbolize, sends, Option.bind_some, named]

theorem symbolize_of_unnamed (unnamed : ∀ target, instr.target? address = some target → labels[target]? = none) :
    instr.symbolize labels address = instr := by
  cases sends : instr.target? address with
  | none => rw [symbolize, sends, Option.bind_none]
  | some target => rw [symbolize, sends, Option.bind_some, unnamed target sends]

end Instr

end Asm16
