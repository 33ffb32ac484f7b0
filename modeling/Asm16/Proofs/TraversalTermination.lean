import Mathlib.Data.Prod.Lex
import Asm16.Proofs.Reachability

/-!
# Traversals come to an end

A step takes one address from the queue. Either it puts none in, or it puts at most two in and
leaves fewer addresses to visit. Whatever advances like this comes to an end, also where the image
is full of cycles and the queue holds an address many times. So it is the queue that ends a
traversal, and no budget is needed for that.
-/

namespace Asm16

variable {image : Image} {entries : List Nat} {budget address : Nat}

namespace Traversal

variable {traversal first last : Traversal} {done : Traversal → Prop} {steps : Nat}

/-- The addresses that have a word and are not visited yet. -/
def remaining (image : Image) (traversal : Traversal) : Set Nat :=
  { address | image.Mapped address ∧ address ∉ traversal.visited }

theorem finite_remaining (image : Image) (traversal : Traversal) : (traversal.remaining image).Finite :=
  (List.finite_toSet (List.range' image.base.toNat image.words.size)).subset
    fun _ remains => List.mem_range'_1.mpr (Image.mapped_iff.mp remains.1)

/-- What a step does to the queue and to the addresses that remain. -/
inductive Advances (image : Image) (before after : Traversal) : Prop
  | drop (address : Nat) (first : before.queue = address :: after.queue)
      (same : after.remaining image = before.remaining image)
  | visit (address : Nat) (rest added : List Nat) (first : before.queue = address :: rest)
      (queued : after.queue = rest ++ added) (few : added.length ≤ 2)
      (remained : address ∈ before.remaining image)
      (fewer : after.remaining image = before.remaining image \ {address})

theorem remaining_visit (image : Image) (traversal : Traversal) (rest : List Nat) (address : Nat)
    (instr : Instr) :
    (traversal.visit image rest address instr).remaining image = traversal.remaining image \ {address} := by
  ext other
  have seen : other ∈ (traversal.visit image rest address instr).visited ↔
      other = address ∨ other ∈ traversal.visited := by
    rw [visited_visit, Std.TreeSet.mem_insert, Nat.compare_eq_eq, eq_comm]
  change image.Mapped other ∧ other ∉ (traversal.visit image rest address instr).visited ↔
    (image.Mapped other ∧ other ∉ traversal.visited) ∧ other ≠ address
  rw [seen, not_or, and_assoc, and_comm (a := other ∉ traversal.visited)]

theorem advances_step (image : Image) (queued : traversal.queue ≠ []) :
    traversal.Advances image (traversal.step image) := by
  obtain ⟨address, rest, first, ⟨_, stepped⟩ | ⟨instr, fresh, found, stepped⟩⟩ := step_cases image queued
  · rw [stepped]
    exact .drop address first rfl
  · have longer := traversal.length_queue_visit_le image rest address instr
    rw [stepped]
    refine .visit address rest _ first rfl ?_ ⟨Image.mapped_of_instr? found, fresh⟩
      (traversal.remaining_visit image rest address instr)
    simpa [visit] using longer

/-- The addresses that remain count first and the queue second. -/
theorem wellFounded_advances (image : Image) :
    WellFounded fun after before : Traversal => before.Advances image after := by
  let rank (traversal : Traversal) : Nat ×ₗ Nat :=
    toLex ((traversal.remaining image).ncard, traversal.queue.length)
  refine Subrelation.wf ?_ (InvImage.wf rank wellFounded_lt)
  intro after before advances
  change rank after < rank before
  rw [Prod.Lex.toLex_lt_toLex]
  cases advances with
  | drop address first same =>
      refine .inr ⟨by rw [same], ?_⟩
      rw [first, List.length_cons]
      exact Nat.lt_succ_self _
  | visit address rest added first queued few remained fewer =>
      -- the queue may be longer now, but it counts only between equal numbers of addresses
      left
      rw [fewer]
      exact Set.ncard_sdiff_singleton_lt_of_mem remained (finite_remaining image before)

/-- Stepping on as long as `done` fails leads from `first` to `last`. -/
inductive StepsUntil (image : Image) (done : Traversal → Prop) : Nat → Traversal → Traversal → Prop
  | here {traversal : Traversal} (isDone : done traversal) : StepsUntil image done 0 traversal traversal
  | step {steps : Nat} {first last : Traversal} (goesOn : ¬ done first)
      (rest : StepsUntil image done steps (first.step image) last) :
      StepsUntil image done (steps + 1) first last

theorem exists_stepsUntil (image : Image) (stops : ∀ traversal : Traversal, traversal.queue = [] → done traversal)
    (first : Traversal) : ∃ steps ≤ first.measure image, ∃ last, StepsUntil image done steps first last := by
  induction first using (wellFounded_advances image).induction with
  | _ first ih =>
      by_cases isDone : done first
      · exact ⟨0, Nat.zero_le _, first, .here isDone⟩
      · have queued : first.queue ≠ [] := fun empty => isDone (stops first empty)
        obtain ⟨steps, few, last, rest⟩ := ih (first.step image) (advances_step image queued)
        exact ⟨steps + 1, Nat.lt_of_le_of_lt few (measure_step_lt queued), last, .step isDone rest⟩

theorem StepsUntil.run_eq (ends : StepsUntil image (·.finished budget) steps first last) :
    first.run image budget = last := by
  induction ends with
  | here isDone => rw [run, if_pos isDone]
  | step goesOn _ ih => rw [run, if_neg goesOn, ih]

theorem Explores.size_visited_le (explores : traversal.Explores image entries) :
    traversal.visited.size ≤ image.words.size := by
  -- only addresses with a word are ever visited
  have inside : traversal.visitedSet ⊆ (List.range' image.base.toNat image.words.size).toFinset := by
    intro address seen
    obtain ⟨instr, found⟩ := explores.visits address (mem_visitedSet.mp seen)
    exact List.mem_toFinset.mpr (mem_range_of_instr? found)
  calc traversal.visited.size = traversal.visitedSet.card := (card_visitedSet traversal).symm
    _ ≤ (List.range' image.base.toNat image.words.size).toFinset.card := Finset.card_le_card inside
    _ ≤ (List.range' image.base.toNat image.words.size).length := List.toFinset_card_le _
    _ = image.words.size := List.length_range'

theorem StepsUntil.with_budget (explores : first.Explores image entries) (enough : image.words.size < budget)
    (ends : StepsUntil image (·.queue = []) steps first last) :
    StepsUntil image (·.finished budget) steps first last := by
  induction ends with
  | here empty => exact .here (by simp [finished, empty])
  | step queued _ ih =>
      refine .step ?_ (ih (explores.step queued))
      have small := explores.size_visited_le
      simp only [finished, Bool.or_eq_true, List.isEmpty_iff, decide_eq_true_eq, not_or]
      exact ⟨queued, by omega⟩

theorem measure_start_le (image : Image) (entries : List Nat) :
    (start image entries).measure image ≤ 2 * image.words.size + entries.length := by
  have unseen : ((start image entries).unvisited image).length ≤ image.words.size :=
    (List.length_filter_le _ _).trans_eq List.length_range'
  have queued : (start image entries).queue.length ≤ entries.length := List.length_filter_le _ _
  unfold measure
  omega

end Traversal

/-- Every step advances, and what advances comes to an end. So a traversal ends after a number of
steps that its image and entries bound, with any budget, and also if nothing but an empty queue may
end it. It then has the result of every budget that exceeds the number of words. -/
theorem Image.traverse_ends_without_budget (image : Image) (entries : List Nat) (budget : Nat) :
    (∀ traversal : Traversal, (traversal.remaining image).Finite ∧
      (traversal.queue ≠ [] → traversal.Advances image (traversal.step image))) ∧
    (WellFounded fun after before : Traversal => before.Advances image after) ∧
    (∃ steps ≤ 2 * image.words.size + entries.length,
      Traversal.StepsUntil image (·.finished budget) steps (.start image entries)
        (image.traverse entries budget)) ∧
    ∃ steps ≤ 2 * image.words.size + entries.length, ∃ last,
      Traversal.StepsUntil image (·.queue = []) steps (.start image entries) last ∧
      ∀ larger > image.words.size, image.traverse entries larger = last := by
  have bound := Traversal.measure_start_le image entries
  refine ⟨fun traversal => ⟨traversal.finite_remaining image, Traversal.advances_step image⟩,
    Traversal.wellFounded_advances image, ?_, ?_⟩
  · have stops : ∀ traversal : Traversal, traversal.queue = [] → traversal.finished budget :=
      fun traversal empty => by simp [Traversal.finished, empty]
    obtain ⟨steps, few, last, ends⟩ := Traversal.exists_stepsUntil image stops (.start image entries)
    rw [traverse, ends.run_eq]
    exact ⟨steps, few.trans bound, ends⟩
  · obtain ⟨steps, few, last, ends⟩ :=
      Traversal.exists_stepsUntil image (fun _ => id) (.start image entries)
    refine ⟨steps, few.trans bound, last, ends, ?_⟩
    intro larger enough
    exact (ends.with_budget (Traversal.explores_start image entries) enough).run_eq

/-- Jumps and branches to themselves and back and forth, from entries that repeat. -/
theorem Image.traverse_ends_in_cycles :
    let image : Image := ⟨0, #[0x9000, 0x9003, 0x8000, 0x9001]⟩
    let first := Traversal.start image [2, 0, 2, 3]
    first.queue ≠ [] ∧ first.Advances image (first.step image) ∧
      (first.step image).queue = [0, 2, 3, 3] ∧
      ∃ steps ≤ 12, ∃ last, Traversal.StepsUntil image (·.queue = []) steps first last ∧
        last.visited.toList = [0, 1, 2, 3] := by
  intro image first
  have queued : first.queue ≠ [] := by decide +kernel
  obtain ⟨advances, _, _, steps, few, last, ends, same⟩ := image.traverse_ends_without_budget [2, 0, 2, 3] 5
  refine ⟨queued, (advances first).2 queued, by decide +kernel, steps, few, last, ends, ?_⟩
  rw [← same 5 (by decide)]
  decide +kernel

end Asm16
