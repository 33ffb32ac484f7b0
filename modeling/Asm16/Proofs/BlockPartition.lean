import Mathlib.Data.List.SplitBy
import Asm16.Flow.Block

namespace Asm16

variable {entries : List Nat} {visited : Std.TreeSet Nat} {edges : List Edge} {address next : Nat}

/-- Control enters the address from outside or by a jump. -/
def Entered (entries : List Nat) (edges : List Edge) (address : Nat) : Prop :=
  address ∈ entries ∨ ∃ edge ∈ edges, edge.kind ≠ .fallthrough ∧ edge.target = address

/-- Control leaves the address, and only for the one after it. -/
def FallsThrough (edges : List Edge) (address : Nat) : Prop :=
  (∃ edge ∈ edges, edge.source = address) ∧
    ∀ edge ∈ edges, edge.source = address → edge.kind = .fallthrough

namespace Block

structure Partition (entries : List Nat) (visited : Std.TreeSet Nat) (edges : List Edge)
    (blocks : List Block) : Prop where
  nonempty : ∀ block ∈ blocks, block.start < block.stop
  ordered : blocks.Pairwise fun left right => left.stop ≤ right.start
  covers : ∀ address, address ∈ visited ↔
    ∃ block ∈ blocks, block.start ≤ address ∧ address < block.stop
  entered : ∀ address ∈ visited, Entered entries edges address →
    ∃ block ∈ blocks, block.start = address
  straight : ∀ block ∈ blocks, ∀ address, block.start ≤ address → address + 1 < block.stop →
    FallsThrough edges address
  maximal : blocks.IsChain fun left right => left.stop = right.start →
    Entered entries edges right.start ∨ ¬ FallsThrough edges (right.start - 1)

theorem contains_starts_iff :
    (starts entries edges).contains address = true ↔ Entered entries edges address := by
  simp only [starts, Std.TreeSet.contains_ofList, List.contains_iff_mem, List.mem_append, List.mem_map,
    List.mem_filter, decide_eq_true_eq, Entered, and_assoc]

theorem ends_exits_iff : (exits edges).ends address = true ↔ ¬ FallsThrough edges address := by
  simp only [Exits.ends, exits, Std.TreeSet.contains_ofList, Bool.or_eq_true, Bool.not_eq_true',
    ← Bool.not_eq_true, List.contains_iff_mem, List.mem_map, List.mem_filter, decide_eq_true_eq,
    FallsThrough]
  grind

theorem joined_iff :
    joined (starts entries edges) (exits edges) address next = true ↔
      next = address + 1 ∧ ¬ Entered entries edges next ∧ FallsThrough edges address := by
  rw [joined, Bool.and_eq_true, Bool.and_eq_true, beq_iff_eq, Bool.not_eq_true', Bool.not_eq_true',
    ← Bool.not_eq_true, ← Bool.not_eq_true, contains_starts_iff, ends_exits_iff, not_not, and_assoc]

theorem mem_addresses {block : Block} :
    address ∈ block.addresses ↔ block.start ≤ address ∧ address < block.stop := by
  rw [addresses, List.mem_range'_1]
  omega

theorem start_lt_stop_iff {block : Block} : block.start < block.stop ↔ block.addresses ≠ [] := by
  rw [addresses, Ne, List.range'_eq_nil_iff]
  omega

theorem head_addresses {block : Block} (nonempty : block.addresses ≠ []) :
    block.addresses.head nonempty = block.start := by
  simp [addresses]

theorem getLast_addresses {block : Block} (nonempty : block.addresses ≠ []) :
    block.addresses.getLast nonempty = block.stop - 1 := by
  have positive := start_lt_stop_iff.mpr nonempty
  simp only [addresses, List.getLast_range']
  omega

theorem addresses_eq_cons {start stop : Nat} (positive : start < stop) :
    addresses ⟨start, stop⟩ = start :: addresses ⟨start + 1, stop⟩ := by
  have length : stop - start = stop - (start + 1) + 1 := by omega
  simp only [addresses, length, List.range'_succ]

theorem addresses_of_run {start : Nat} {rest : List Nat}
    (consecutive : (start :: rest).IsChain fun address next => next = address + 1) :
    addresses ⟨start, rest.getLastD start + 1⟩ = start :: rest := by
  induction rest generalizing start with
  | nil => simp [addresses]
  | cons next rest ih =>
      obtain ⟨follows, later⟩ := List.isChain_cons_cons.mp consecutive
      have tail := ih later
      have member : rest.getLastD next ∈ addresses ⟨next, rest.getLastD next + 1⟩ := by
        rw [tail]
        exact List.getLastD_mem_cons
      have above : next ≤ rest.getLastD next := (mem_addresses.mp member).1
      rw [List.getLastD_cons, addresses_eq_cons (by omega), ← follows, tail]

theorem map_addresses_filterMap {runs : List (List Nat)}
    (consecutive : ∀ run ∈ runs, run ≠ [] ∧ run.IsChain fun address next => next = address + 1) :
    (runs.filterMap ofRun?).map addresses = runs := by
  induction runs with
  | nil => rfl
  | cons run runs ih =>
      obtain ⟨nonempty, chain⟩ := consecutive run List.mem_cons_self
      have later := ih fun other member => consecutive other (List.mem_cons_of_mem run member)
      cases run with
      | nil => exact absurd rfl nonempty
      | cons start rest =>
          rw [List.filterMap_cons, ofRun?, List.map_cons, addresses_of_run chain, later]

theorem map_addresses_ofVisited (entries : List Nat) (visited : Std.TreeSet Nat) (edges : List Edge) :
    (ofVisited entries visited edges).map addresses =
      visited.toList.splitBy (joined (starts entries edges) (exits edges)) := by
  refine map_addresses_filterMap ?_
  intro run member
  refine ⟨List.ne_nil_of_mem_splitBy member, (List.isChain_of_mem_splitBy member).imp ?_⟩
  intro address next together
  exact (joined_iff.mp together).1

theorem flatMap_addresses_ofVisited (entries : List Nat) (visited : Std.TreeSet Nat) (edges : List Edge) :
    (ofVisited entries visited edges).flatMap addresses = visited.toList := by
  rw [List.flatMap_def, map_addresses_ofVisited, List.flatten_splitBy]

variable {block : Block}

theorem addresses_mem_splitBy (member : block ∈ ofVisited entries visited edges) :
    block.addresses ∈ visited.toList.splitBy (joined (starts entries edges) (exits edges)) := by
  rw [← map_addresses_ofVisited]
  exact List.mem_map_of_mem member

theorem start_lt_stop_of_mem (member : block ∈ ofVisited entries visited edges) :
    block.start < block.stop :=
  start_lt_stop_iff.mpr (List.ne_nil_of_mem_splitBy (addresses_mem_splitBy member))

theorem joined_of_mem (member : block ∈ ofVisited entries visited edges) (lower : block.start ≤ address)
    (upper : address + 1 < block.stop) :
    ¬ Entered entries edges (address + 1) ∧ FallsThrough edges address := by
  have chain := List.isChain_of_mem_splitBy (addresses_mem_splitBy member)
  have together := List.isChain_iff_getElem.mp chain (address - block.start)
    (by simp only [addresses, List.length_range']; omega)
  simp only [addresses, List.getElem_range', joined_iff] at together
  have here : block.start + 1 * (address - block.start) = address := by omega
  have there : block.start + 1 * (address - block.start + 1) = address + 1 := by omega
  rw [here, there] at together
  exact together.2

theorem ordered_ofVisited (entries : List Nat) (visited : Std.TreeSet Nat) (edges : List Edge) :
    (ofVisited entries visited edges).Pairwise fun left right => left.stop ≤ right.start := by
  have increasing : visited.toList.Pairwise (· < ·) :=
    Std.TreeSet.ordered_toList.imp Nat.compare_eq_lt.mp
  rw [← flatMap_addresses_ofVisited entries visited edges, List.pairwise_flatMap] at increasing
  refine increasing.2.imp_of_mem ?_
  intro left right leftMember rightMember before
  have leftNonempty := start_lt_stop_of_mem leftMember
  have rightNonempty := start_lt_stop_of_mem rightMember
  have last : left.stop - 1 < right.start := before _ (mem_addresses.mpr ⟨by omega, by omega⟩) _
    (mem_addresses.mpr ⟨Nat.le_refl _, rightNonempty⟩)
  omega

theorem mem_visited_iff :
    address ∈ visited ↔ ∃ block ∈ ofVisited entries visited edges,
      block.start ≤ address ∧ address < block.stop := by
  rw [← Std.TreeSet.mem_toList, ← flatMap_addresses_ofVisited entries visited edges, List.mem_flatMap]
  simp only [mem_addresses]

theorem exists_start (seen : address ∈ visited) (enters : Entered entries edges address) :
    ∃ block ∈ ofVisited entries visited edges, block.start = address := by
  obtain ⟨block, member, lower, upper⟩ := (@mem_visited_iff entries visited edges address).mp seen
  refine ⟨block, member, ?_⟩
  by_contra other
  -- inside a block, the address would be joined to the one before it
  have before : address - 1 + 1 = address := by omega
  have inside := (joined_of_mem member (by omega : block.start ≤ address - 1) (by omega)).1
  rw [before] at inside
  exact inside enters

theorem maximal_ofVisited (entries : List Nat) (visited : Std.TreeSet Nat) (edges : List Edge) :
    (ofVisited entries visited edges).IsChain fun left right => left.stop = right.start →
      Entered entries edges right.start ∨ ¬ FallsThrough edges (right.start - 1) := by
  have cuts := List.isChain_getLast_head_splitBy (joined (starts entries edges) (exits edges)) visited.toList
  rw [← map_addresses_ofVisited entries visited edges, List.isChain_map] at cuts
  refine cuts.imp ?_
  intro left right cut touching
  obtain ⟨leftNonempty, rightNonempty, apart⟩ := cut
  have positive := start_lt_stop_iff.mpr leftNonempty
  have follows : right.start = right.start - 1 + 1 := by omega
  rw [getLast_addresses, head_addresses, touching, ← Bool.not_eq_true, joined_iff] at apart
  by_contra joinable
  rw [not_or, not_not] at joinable
  exact apart ⟨follows, joinable⟩

/-- The blocks are the longest pieces of straight-line code among the visited addresses. -/
theorem ofVisited_partition (entries : List Nat) (visited : Std.TreeSet Nat) (edges : List Edge) :
    Partition entries visited edges (ofVisited entries visited edges) where
  nonempty _ := start_lt_stop_of_mem
  ordered := ordered_ofVisited entries visited edges
  covers _ := mem_visited_iff
  entered _ := exists_start
  straight _ member _ lower upper := (joined_of_mem member lower upper).2
  maximal := maximal_ofVisited entries visited edges

end Block

end Asm16
