import Asm16.Proofs.TraversalEdges

/-!
# Edges and the address space

The address of an operand always has sixteen bits: jumps and calls have fewer, and branches wrap
around. Falling through does not wrap, so it leads out of the address space from the last address,
and from there alone.
-/

namespace Asm16

theorem relativeTarget_lt (address : Nat) (offset : Int32) : relativeTarget address offset < addressSpace := by
  unfold relativeTarget addressSpace
  omega

theorem absoluteTarget_lt {value : Int32} (fits : Layout.addr12.Fits value.toInt) :
    absoluteTarget value < addressSpace := by
  have range : 0 ≤ value.toInt ∧ value.toInt ≤ 4095 := fits
  rw [absoluteTarget_eq (Int.toNat_of_nonneg range.1).symm, addressSpace]
  omega

namespace Instr

variable {instr : Instr} {address target : Nat}

/-- Control can go on behind the instruction. -/
def fallsThrough : Instr → Bool
  | .jump _ | .sys .halt => false
  | .alu .. | .immediate .. | .mem .. | .branch .. | .jal _ | .sys .nop => true

theorem fallthrough_mem_successors_iff :
    (target, EdgeKind.fallthrough) ∈ instr.successors address ↔
      instr.fallsThrough ∧ target = address + 1 := by
  cases instr with
  | sys op => cases op <;> simp [successors, fallsThrough]
  | jump | jal | branch | alu | immediate | mem => simp [successors, fallsThrough]

theorem target?_lt (encodable : instr.Encodable) (sends : instr.target? address = some target) :
    target < addressSpace := by
  obtain ⟨_, inRange⟩ := encodable
  cases instr with
  | jump imm | jal imm =>
      obtain ⟨value, isValue, rfl⟩ := Option.map_eq_some_iff.mp sends
      exact absoluteTarget_lt (inRange Layout.addr12 rfl value isValue)
  | branch cond rs offset =>
      obtain ⟨value, _, rfl⟩ := Option.map_eq_some_iff.mp sends
      exact relativeTarget_lt address value
  | alu | immediate | mem | sys => cases sends

end Instr

namespace Image

variable {image : Image} {entries : List Nat} {budget address : Nat} {instr : Instr} {edge : Edge}

theorem target_of_mem_edgesAt (leaves : edge ∈ image.edgesAt address) :
    edge = ⟨address, address + 1, .fallthrough⟩ ∨ edge.target < addressSpace := by
  obtain ⟨source, target, kind⟩ := edge
  obtain ⟨same, instr, found, follows⟩ := mem_edgesAt_iff.mp leaves
  change source = address at same
  subst same
  by_cases falls : kind = .fallthrough
  · subst falls
    obtain ⟨_, rfl⟩ := Instr.fallthrough_mem_successors_iff.mp follows
    exact .inl rfl
  · obtain ⟨_, sends⟩ := (Instr.mem_successors_iff falls).mp follows
    exact .inr (Instr.target?_lt (encodable_of_instr? found) sends)

theorem fallthrough_mem_edges_iff :
    ⟨address, address + 1, .fallthrough⟩ ∈ (image.traverse entries budget).edges.toList ↔
      address ∈ (image.traverse entries budget).visited ∧
        ∃ instr, image.instr? address = some instr ∧ instr.fallsThrough := by
  simp only [mem_edges_traverse_iff, mem_edgesAt_iff, Instr.fallthrough_mem_successors_iff, true_and, and_true]

/-- In an image inside the address space every edge stays inside it, except for the one that falls
through at the last address. That one is reported if control can go on behind the instruction there. -/
theorem traverse_edges_below_space (image : Image) (entries : List Nat) (budget : Nat)
    (fits : image.base.toNat + image.words.size ≤ 65536) :
    let traversal := image.traverse entries budget
    (∀ edge ∈ traversal.edges.toList,
      edge.source < 65536 ∧ (edge.target < 65536 ∨ edge = ⟨65535, 65536, .fallthrough⟩)) ∧
    (⟨65535, 65536, .fallthrough⟩ ∈ traversal.edges.toList ↔ 65535 ∈ traversal.visited ∧
      ∃ instr, image.instr? 65535 = some instr ∧ instr.fallsThrough) := by
  refine ⟨?_, fallthrough_mem_edges_iff⟩
  intro edge noted
  obtain ⟨seen, leaves⟩ := mem_edges_traverse_iff.mp noted
  obtain ⟨instr, found⟩ := (image.explores_traverse entries budget).visits edge.source seen
  have inside : edge.source < 65536 := (mapped_iff.mp (mapped_of_instr? found)).2.trans_le fits
  refine ⟨inside, ?_⟩
  rcases target_of_mem_edgesAt leaves with falls | below
  · rw [falls]
    by_cases last : edge.source = 65535
    · exact .inr (by rw [last])
    · exact .inl (by simp only; omega)
  · exact .inl below

/-- A branch wraps around at the end of memory, and what falls through behind it does not. -/
theorem traverse_edges_below_space_top :
    let image : Image := ⟨65534, #[0x8002, 0xF000]⟩
    let traversal := image.traverse [65534] 9
    image.base.toNat + image.words.size ≤ 65536 ∧
      traversal.edges = #[⟨65534, 0, .condBranch⟩, ⟨65534, 65535, .fallthrough⟩, ⟨65535, 65536, .fallthrough⟩] ∧
      (∀ edge ∈ traversal.edges.toList,
        edge.source < 65536 ∧ (edge.target < 65536 ∨ edge = ⟨65535, 65536, .fallthrough⟩)) ∧
      65535 ∈ traversal.visited := by
  intro image traversal
  obtain ⟨bounded, fallen⟩ := image.traverse_edges_below_space [65534] 9 (by decide)
  exact ⟨by decide, by decide +kernel, bounded, (fallen.mp (by decide +kernel)).1⟩

/-- An image that loads, with an edge out of the address space. -/
theorem traverse_falls_out_of_space :
    ∃ image, load .binary 65535 (.ok [0x00, 0xF0]) = .ok image ∧
      ∃ edge ∈ (image.traverse [65535] 9).edges.toList, ¬ edge.target < 65536 := by
  refine ⟨⟨65535, #[0xF000]⟩, rfl, ⟨65535, 65536, .fallthrough⟩, ?_, by decide⟩
  decide +kernel

end Image

end Asm16
