import Asm16.Proofs.Reachability

namespace Asm16

namespace Traversal

variable {image : Image} {budget more : Nat} {traversal before middle after : Traversal}

/-- Nothing found before is lost, and edges are only added behind. -/
structure Extends (before after : Traversal) : Prop where
  visited : ∀ address ∈ before.visited, address ∈ after.visited
  stops : ∀ address ∈ before.stops, address ∈ after.stops
  edges : before.edges.toList <+: after.edges.toList

theorem Extends.refl (traversal : Traversal) : traversal.Extends traversal :=
  ⟨fun _ => id, fun _ => id, List.prefix_rfl⟩

theorem Extends.trans (first : before.Extends middle) (second : middle.Extends after) :
    before.Extends after where
  visited address seen := second.visited address (first.visited address seen)
  stops address stopped := second.stops address (first.stops address stopped)
  edges := first.edges.trans second.edges

theorem extends_visit (image : Image) (traversal : Traversal) (rest : List Nat) (address : Nat)
    (instr : Instr) : traversal.Extends (traversal.visit image rest address instr) where
  visited other seen := Std.TreeSet.mem_insert.mpr (.inr seen)
  stops other stopped := by
    simp only [visit]
    split
    · exact Std.TreeSet.mem_insert.mpr (.inr stopped)
    · exact stopped
  edges := by
    have appended : (traversal.visit image rest address instr).edges.toList =
        traversal.edges.toList ++ instr.edges address := Array.toList_appendList
    rw [appended]
    exact List.prefix_append _ _

theorem extends_step (image : Image) (queued : traversal.queue ≠ []) :
    traversal.Extends (traversal.step image) := by
  obtain ⟨address, rest, _, ⟨_, stepped⟩ | ⟨instr, _, _, stepped⟩⟩ := step_cases image queued
  · rw [stepped]
    exact ⟨fun _ => id, fun _ => id, List.prefix_rfl⟩
  · rw [stepped]
    exact traversal.extends_visit image rest address instr

theorem extends_run (image : Image) (budget : Nat) (traversal : Traversal) :
    traversal.Extends (traversal.run image budget) := by
  refine @run_preserves image budget traversal traversal.Extends ?_ (.refl traversal)
  intro later unfinished soFar
  exact soFar.trans (extends_step image (queue_ne_nil_of_not_finished unfinished))

theorem finished_of_le (enough : budget ≤ more) (finished : traversal.finished more) :
    traversal.finished budget := by
  simp only [Traversal.finished, Bool.or_eq_true, decide_eq_true_eq] at finished ⊢
  exact finished.imp_right (Nat.le_trans enough)

theorem run_run (image : Image) (enough : budget ≤ more) (traversal : Traversal) :
    (traversal.run image budget).run image more = traversal.run image more := by
  fun_induction run image budget traversal with
  | case1 => rfl
  | case2 traversal unfinished ih =>
      have goesOn : ¬ traversal.finished more := fun finished => unfinished (finished_of_le enough finished)
      rw [ih, run.eq_def image more traversal, if_neg goesOn]

end Traversal

/-- A larger budget extends what a traversal reports: it visits and stops wherever the smaller one
does, and the edges of the smaller one are the first of its edges. -/
theorem Image.traverse_extends_with_budget (image : Image) (entries : List Nat) {budget more : Nat}
    (enough : budget ≤ more) :
    (∀ address ∈ (image.traverse entries budget).visited, address ∈ (image.traverse entries more).visited) ∧
      (∀ address ∈ (image.traverse entries budget).stops, address ∈ (image.traverse entries more).stops) ∧
      (image.traverse entries budget).edges.toList <+: (image.traverse entries more).edges.toList := by
  have grown := (image.traverse entries budget).extends_run image more
  rw [Image.traverse, Traversal.run_run image enough] at grown
  exact ⟨grown.visited, grown.stops, grown.edges⟩

/-- A budget that ends at a branch, before the halt and the jump it leads to. -/
theorem Image.traverse_extends_past_branch :
    let image : Image := ⟨0, #[0x8182, 0xF001, 0x9001]⟩
    1 ≤ 3 ∧ (image.traverse [0] 1).edges = #[⟨0, 2, .condBranch⟩, ⟨0, 1, .fallthrough⟩] ∧
      (image.traverse [0] 3).edges = #[⟨0, 2, .condBranch⟩, ⟨0, 1, .fallthrough⟩, ⟨2, 1, .branch⟩] ∧
      (image.traverse [0] 1).stops.toList = [] ∧ (image.traverse [0] 3).stops.toList = [1] ∧
      (∀ address ∈ (image.traverse [0] 1).visited, address ∈ (image.traverse [0] 3).visited) ∧
      (∀ address ∈ (image.traverse [0] 1).stops, address ∈ (image.traverse [0] 3).stops) ∧
      (image.traverse [0] 1).edges.toList <+: (image.traverse [0] 3).edges.toList := by
  intro image
  exact ⟨by decide, by decide +kernel, by decide +kernel, by decide +kernel, by decide +kernel,
    image.traverse_extends_with_budget [0] (by decide)⟩

end Asm16
