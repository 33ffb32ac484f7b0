import Std.Data.TreeSet
import Asm16.Flow.Edge
import Asm16.Image

/-!
# Following the control flow

A traversal visits the instructions of an image that control can reach from its entries, first
come, first served. Each step takes one address from the queue, and either drops it or visits it
and appends its targets. A visit leaves one address less to visit, so the traversal ends without a
limit on its steps.
-/

namespace Asm16

structure Traversal where
  queue : List Nat
  visited : Std.TreeSet Nat := ∅
  /-- The edges of the visited instructions, in the order of the visits. -/
  edges : Array Edge := #[]
  /-- The visited addresses that control does not leave. -/
  stops : Std.TreeSet Nat := ∅

namespace Traversal

def unvisited (image : Image) (traversal : Traversal) : List Nat :=
  (List.range' image.base.toNat image.words.size).filter (· ∉ traversal.visited)

/-- Visits the instruction at an address, with `rest` still in the queue. -/
def visit (image : Image) (traversal : Traversal) (rest : List Nat) (address : Nat)
    (instr : Instr) : Traversal :=
  let visited := traversal.visited.insert address
  let edges := instr.edges address
  { queue := rest ++
      (edges.map Edge.target).filter fun target => image.Mapped target ∧ target ∉ visited
    visited := visited
    edges := traversal.edges ++ edges
    stops := if edges.isEmpty then traversal.stops.insert address else traversal.stops }

/-- Whether the queue is empty or `budget` instructions are visited. -/
def finished (budget : Nat) (traversal : Traversal) : Bool :=
  traversal.queue.isEmpty || budget ≤ traversal.visited.size

/-- Takes the first address from the queue and visits it, unless that was done before or there is
no instruction. -/
def step (image : Image) (traversal : Traversal) : Traversal :=
  match traversal.queue with
  | [] => traversal
  | address :: rest =>
      if address ∈ traversal.visited then { traversal with queue := rest }
      else
        match image.instr? address with
        | none => { traversal with queue := rest }
        | some instr => traversal.visit image rest address instr

/-- What a step makes smaller. -/
def measure (image : Image) (traversal : Traversal) : Nat :=
  2 * (traversal.unvisited image).length + traversal.queue.length

theorem length_queue_visit_le (image : Image) (traversal : Traversal) (rest : List Nat)
    (address : Nat) (instr : Instr) :
    (traversal.visit image rest address instr).queue.length ≤ rest.length + 2 := by
  have few := instr.length_edges_le address
  have kept := List.length_filter_le
    (fun target => decide (image.Mapped target ∧ target ∉ traversal.visited.insert address))
    ((instr.edges address).map Edge.target)
  simp only [List.length_map] at kept
  simp only [visit, List.length_append]
  omega

theorem mem_range_of_instr? {image : Image} {address : Nat} {instr : Instr}
    (found : image.instr? address = some instr) :
    address ∈ List.range' image.base.toNat image.words.size :=
  List.mem_range'_1.mpr (Image.mapped_iff.mp (Image.mapped_of_instr? found))

theorem length_filter_lt {α : Type} {p q : α → Bool} {items : List α} {item : α}
    (member : item ∈ items) (before : p item = true) (after : q item = false)
    (fewer : ∀ other, q other = true → p other = true) :
    (items.filter q).length < (items.filter p).length := by
  induction items with
  | nil => simp at member
  | cons head tail ih =>
      have weaker : (tail.filter q).length ≤ (tail.filter p).length := by
        rw [← List.countP_eq_length_filter, ← List.countP_eq_length_filter]
        exact List.countP_mono_left fun other _ => fewer other
      rcases List.mem_cons.mp member with same | member
      · subst same
        simp only [List.filter_cons, before, after, if_true, Bool.false_eq_true, if_false,
          List.length_cons]
        omega
      · have smaller := ih member
        by_cases kept : q head = true
        · rw [List.filter_cons_of_pos kept, List.filter_cons_of_pos (fewer head kept),
            List.length_cons, List.length_cons]
          omega
        · rw [List.filter_cons_of_neg kept, List.filter_cons]
          split
          · rw [List.length_cons]
            omega
          · exact smaller

theorem length_unvisited_visit_lt {image : Image} {traversal : Traversal} {address : Nat}
    {instr : Instr} (rest : List Nat) (fresh : address ∉ traversal.visited)
    (found : image.instr? address = some instr) :
    ((traversal.visit image rest address instr).unvisited image).length <
      (traversal.unvisited image).length := by
  refine length_filter_lt (mem_range_of_instr? found) (by simpa using fresh) ?_ ?_
  · simp [visit]
  · intro other
    simp only [visit, decide_eq_true_eq, Std.TreeSet.mem_insert]
    intro absent present
    exact absent (Or.inr present)

theorem measure_step_lt {image : Image} {traversal : Traversal} (queued : traversal.queue ≠ []) :
    (traversal.step image).measure image < traversal.measure image := by
  unfold step
  split
  · next empty => exact absurd empty queued
  · next address rest first =>
      have shorter : traversal.queue.length = rest.length + 1 := by rw [first]; rfl
      split
      · simp only [measure, unvisited]
        omega
      · next fresh =>
          split
          · simp only [measure, unvisited]
            omega
          · next instr found =>
              have fewer := length_unvisited_visit_lt rest fresh found
              have longer := traversal.length_queue_visit_le image rest address instr
              unfold measure
              omega

theorem queue_ne_nil_of_not_finished {budget : Nat} {traversal : Traversal}
    (unfinished : ¬ traversal.finished budget = true) : traversal.queue ≠ [] := by
  intro empty
  simp [finished, empty] at unfinished

def run (image : Image) (budget : Nat) (traversal : Traversal) : Traversal :=
  if traversal.finished budget then traversal
  else (traversal.step image).run image budget
termination_by traversal.measure image
decreasing_by
  next unfinished => exact measure_step_lt (queue_ne_nil_of_not_finished unfinished)

def start (image : Image) (entries : List Nat) : Traversal :=
  { queue := entries.filter fun entry => image.Mapped entry }

end Traversal

/-- Follows the control flow from `entries` through at most `budget` instructions. -/
def Image.traverse (image : Image) (entries : List Nat) (budget : Nat) : Traversal :=
  (Traversal.start image entries).run image budget

end Asm16
