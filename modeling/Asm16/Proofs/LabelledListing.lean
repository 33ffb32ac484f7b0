import Asm16.Proofs.BlockPartition
import Asm16.Proofs.LabelNames
import Asm16.Proofs.TraversalEdges

namespace Asm16

namespace Labels

variable {address : Nat} {entries : List Nat} {edges : List Edge}

theorem mem_extend_iff {imported : Labels} :
    address ∈ imported.extend entries edges ↔ address ∈ imported ∨ Entered entries edges address := by
  have entered : (∃ edge ∈ edges, edge.Enters address) ↔
      (edges.findSome? (·.nameFor? address)).isSome := by
    rw [Option.isSome_iff_ne_none, Ne, findSome?_nameFor?_eq_none_iff]
    simp only [not_forall, not_not, exists_prop]
  have listed : (if address ∈ entries then some (subroutine address) else none).isSome ↔ address ∈ entries := by
    simp
  rw [Std.TreeMap.mem_iff_isSome_getElem?, getElem?_extend, Option.isSome_or, Option.isSome_or,
    Bool.or_eq_true, Bool.or_eq_true, listed, ← entered, ← Std.TreeMap.mem_iff_isSome_getElem?]
  rfl

theorem exists_name_of_entered (imported : Labels) (enters : Entered entries edges address) :
    ∃ name, (imported.extend entries edges)[address]? = some name := by
  have member : address ∈ imported.extend entries edges := mem_extend_iff.mpr (.inr enters)
  exact ⟨_, Std.TreeMap.getElem?_eq_some_getElem member⟩

end Labels

namespace Analysis

variable {analysis : Analysis} {name : String} {block : Block}

def blockSection (analysis : Analysis) (showWords : Bool) (block : Block) : List String :=
  (analysis.labels[block.start]?).toList.map (· ++ ":") ++
    (analysis.blockLines showWords block).map ("  " ++ ·)

theorem listing_eq (analysis : Analysis) (showWords : Bool) :
    analysis.listing showWords =
      unlines (analysis.header :: analysis.blocks.flatMap (analysis.blockSection showWords)) :=
  rfl

/-- A block starts at the address, and the listing has the name on the line above. -/
structure Heads (analysis : Analysis) (address : Nat) (name : String) : Prop where
  named : analysis.labels[address]? = some name
  starts : ∃ block ∈ analysis.blocks, block.start = address
  shown : ∀ showWords, ∃ before after, analysis.listing showWords = unlines (before ++
    [name ++ ":", "  " ++ analysis.image.line analysis.labels showWords address] ++ after)

theorem blockSection_of_named (showWords : Bool) (positive : block.start < block.stop)
    (named : analysis.labels[block.start]? = some name) :
    ∃ rest, analysis.blockSection showWords block =
      [name ++ ":", "  " ++ analysis.image.line analysis.labels showWords block.start] ++ rest := by
  rw [blockSection, named, blockLines, Block.addresses_eq_cons positive]
  exact ⟨_, rfl⟩

theorem heads_start (member : block ∈ analysis.blocks) (named : analysis.labels[block.start]? = some name) :
    analysis.Heads block.start name := by
  refine ⟨named, ⟨block, member, rfl⟩, ?_⟩
  intro showWords
  obtain ⟨rest, lines⟩ := blockSection_of_named showWords (Block.start_lt_stop_of_mem member) named
  obtain ⟨earlier, later, split⟩ := List.append_of_mem member
  refine ⟨analysis.header :: earlier.flatMap (analysis.blockSection showWords),
    rest ++ later.flatMap (analysis.blockSection showWords), ?_⟩
  rw [listing_eq, split, List.flatMap_append, List.flatMap_cons, lines]
  simp only [List.cons_append, List.append_assoc]

/-- The operand of the instruction shows as the name of the address to which it sends control. -/
structure Refers (analysis : Analysis) (address : Nat) (instr : Instr) (target : Nat) (name : String) : Prop where
  named : analysis.labels[target]? = some name
  replaced : instr.symbolize analysis.labels address = instr.withImm (.label name)
  headed : target ∈ analysis.traversal.visited → analysis.Heads target name

end Analysis

namespace Image

variable {image : Image} {entries : List Nat} {budget address : Nat}

theorem exists_heads_of_entered (imported : Labels)
    (enters : Entered entries (image.traverse entries budget).edges.toList address) :
    ∃ name, (image.analyze entries budget imported).labels[address]? = some name ∧
      (address ∈ (image.traverse entries budget).visited →
        (image.analyze entries budget imported).Heads address name) := by
  obtain ⟨name, named⟩ := Labels.exists_name_of_entered imported enters
  refine ⟨name, named, ?_⟩
  intro seen
  obtain ⟨block, member, rfl⟩ := Block.exists_start seen enters
  exact Analysis.heads_start member named

/-- No label of a listing dangles, and none is missing. -/
theorem analyze_refers_to_heads (image : Image) (entries : List Nat) (budget : Nat) (imported : Labels) :
    let analysis := image.analyze entries budget imported
    (∀ address ∈ analysis.traversal.visited, ∃ instr, image.instr? address = some instr ∧
      ∀ kind, instr.transfer? = some kind → ∃ target name,
        (∀ edge, edge ∈ analysis.traversal.edges.toList ∧ edge.source = address ∧
          edge.kind ≠ .fallthrough ↔ edge = ⟨address, target, kind⟩) ∧
        analysis.Refers address instr target name) ∧
    ∀ entry ∈ entries, entry ∈ analysis.traversal.visited → ∃ name, analysis.Heads entry name := by
  refine ⟨?_, ?_⟩
  · intro address seen
    obtain ⟨instr, found⟩ := (image.explores_traverse entries budget).visits address seen
    refine ⟨instr, found, ?_⟩
    intro kind transfers
    obtain ⟨target, sends⟩ := Instr.exists_target (label?_of_instr? found) transfers address
    have only := mem_transfers_traverse_iff seen found transfers sends
    obtain ⟨noted, _, leaves⟩ := (only ⟨address, target, kind⟩).mpr rfl
    have enters : Entered entries (image.traverse entries budget).edges.toList target :=
      .inr ⟨_, noted, leaves, rfl⟩
    obtain ⟨name, named, headed⟩ := exists_heads_of_entered imported enters
    exact ⟨target, name, only, named, Instr.symbolize_of_named sends named, headed⟩
  · intro entry listed seen
    obtain ⟨name, _, headed⟩ := exists_heads_of_entered imported (.inl listed)
    exact ⟨name, headed seen⟩

/-- A loop: the branch back refers to the entry, where a block starts. -/
theorem analyze_refers_to_loop :
    let image : Image := ⟨32, #[0x1123, 0x81FF, 0x9023]⟩
    let analysis := image.analyze [32] 9 ∅
    33 ∈ analysis.traversal.visited ∧ 32 ∈ analysis.traversal.visited ∧
      ∃ instr name, analysis.Refers 33 instr 32 name ∧ analysis.Heads 32 name := by
  intro image analysis
  have branches : (image.instr? 33).bind Instr.transfer? = some .condBranch := by decide +kernel
  have back : (⟨33, 32, .condBranch⟩ : Edge) ∈ analysis.traversal.edges.toList := by decide +kernel
  have seen : 33 ∈ analysis.traversal.visited := by decide +kernel
  have entered : 32 ∈ analysis.traversal.visited := by decide +kernel
  obtain ⟨instr, found, refers⟩ := (analyze_refers_to_heads image [32] 9 ∅).1 33 seen
  rw [found] at branches
  obtain ⟨target, name, only, referred⟩ := refers .condBranch branches
  have isBack := (only ⟨33, 32, .condBranch⟩).mp ⟨back, rfl, by decide⟩
  have same : 32 = target := congrArg Edge.target isBack
  subst same
  exact ⟨seen, entered, instr, name, referred, referred.headed entered⟩

end Image

end Asm16
