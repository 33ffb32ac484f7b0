import Mathlib.Data.Set.Card
import Asm16.Flow.Traversal

/-!
# What a traversal visits

Control reaches the entries that hold an instruction, and from an instruction its successors that
hold one. A traversal visits such addresses only, and as long as its budget lasts, whatever it has
not visited yet is still to be found from the queue. So it ends with all of them, or with as many
as the budget allows.
-/

namespace Asm16

variable {image : Image} {entries : List Nat} {budget address target : Nat} {instr : Instr}

/-- Control can reach the instruction at an address. -/
inductive Image.Reaches (image : Image) (entries : List Nat) : Nat → Prop
  | entry {address : Nat} {instr : Instr} (listed : address ∈ entries)
      (found : image.instr? address = some instr) : Reaches image entries address
  | successor {address target : Nat} {instr next : Instr} {kind : EdgeKind}
      (reached : Reaches image entries address) (found : image.instr? address = some instr)
      (follows : (target, kind) ∈ instr.successors address)
      (foundNext : image.instr? target = some next) : Reaches image entries target

def Image.reach (image : Image) (entries : List Nat) : Set Nat :=
  { address | image.Reaches entries address }

theorem Image.Reaches.exists_instr (reached : image.Reaches entries address) :
    ∃ instr, image.instr? address = some instr := by
  cases reached with
  | entry _ found => exact ⟨_, found⟩
  | successor _ _ _ found => exact ⟨_, found⟩

theorem Image.Reaches.mono {others : List Nat} (more : entries ⊆ others)
    (reached : image.Reaches entries address) : image.Reaches others address := by
  induction reached with
  | entry listed found => exact .entry (more listed) found
  | successor _ found follows foundNext ih => exact .successor ih found follows foundNext

theorem Image.reach_finite (image : Image) (entries : List Nat) : (image.reach entries).Finite := by
  refine (List.finite_toSet (List.range' image.base.toNat image.words.size)).subset ?_
  intro address reached
  obtain ⟨instr, found⟩ := Image.Reaches.exists_instr reached
  exact Traversal.mem_range_of_instr? found

namespace Traversal

variable {traversal : Traversal} {rest : List Nat}

theorem visited_visit : (traversal.visit image rest address instr).visited = traversal.visited.insert address :=
  rfl

theorem mem_queue_visit :
    target ∈ (traversal.visit image rest address instr).queue ↔
      target ∈ rest ∨ (∃ kind, (target, kind) ∈ instr.successors address) ∧
        image.Mapped target ∧ target ∉ traversal.visited.insert address := by
  simp [visit, Instr.edges]

theorem step_cases (image : Image) (queued : traversal.queue ≠ []) :
    ∃ address rest, traversal.queue = address :: rest ∧
      ((address ∈ traversal.visited ∨ image.instr? address = none) ∧
          traversal.step image = { traversal with queue := rest } ∨
        ∃ instr, address ∉ traversal.visited ∧ image.instr? address = some instr ∧
          traversal.step image = traversal.visit image rest address instr) := by
  obtain ⟨address, rest, first⟩ := List.exists_cons_of_ne_nil queued
  refine ⟨address, rest, first, ?_⟩
  by_cases seen : address ∈ traversal.visited
  · exact .inl ⟨.inl seen, by simp only [step, first, if_pos seen]⟩
  · cases found : image.instr? address with
    | none => exact .inl ⟨.inr rfl, by simp only [step, first, if_neg seen, found]⟩
    | some instr => exact .inr ⟨instr, seen, rfl, by simp only [step, first, if_neg seen, found]⟩

theorem run_preserves {property : Traversal → Prop}
    (step : ∀ traversal, ¬ traversal.finished budget → property traversal → property (traversal.step image))
    (start : property traversal) : property (traversal.run image budget) := by
  fun_induction run image budget traversal with
  | case1 => exact start
  | case2 traversal unfinished ih => exact ih (step traversal unfinished start)

theorem finished_run (image : Image) (budget : Nat) (traversal : Traversal) :
    (traversal.run image budget).finished budget := by
  fun_induction run image budget traversal with
  | case1 traversal finished => exact finished
  | case2 _ _ ih => exact ih

def Known (traversal : Traversal) (address : Nat) : Prop :=
  address ∈ traversal.visited ∨ address ∈ traversal.queue

theorem known_drop_iff {next : Instr} (first : traversal.queue = address :: rest)
    (done : address ∈ traversal.visited ∨ image.instr? address = none)
    (found : image.instr? target = some next) :
    Known { traversal with queue := rest } target ↔ traversal.Known target := by
  simp only [Known, first, List.mem_cons]
  refine ⟨Or.imp_right .inr, ?_⟩
  rintro (seen | rfl | later)
  · exact .inl seen
  -- the dropped address itself: visited before, or without an instruction
  · rcases done with seen | absent
    · exact .inl seen
    · rw [absent] at found
      cases found
  · exact .inr later

theorem known_visit_iff (first : traversal.queue = address :: rest) :
    (traversal.visit image rest address instr).Known target ↔
      traversal.Known target ∨ (∃ kind, (target, kind) ∈ instr.successors address) ∧ image.Mapped target := by
  simp only [Known, visited_visit, mem_queue_visit, Std.TreeSet.mem_insert, Nat.compare_eq_eq, first,
    List.mem_cons]
  by_cases same : address = target
  · simp [same]
  · by_cases seen : target ∈ traversal.visited
    · simp [seen]
    · simp [same, seen, Ne.symm same]

/-- The state of a traversal on its way: what it knows can be reached, and what can be reached
follows from what it knows. -/
structure Explores (image : Image) (entries : List Nat) (traversal : Traversal) : Prop where
  visits : ∀ address ∈ traversal.visited, ∃ instr, image.instr? address = some instr
  sound : ∀ address instr, image.instr? address = some instr → traversal.Known address →
    image.Reaches entries address
  entered : ∀ address instr, image.instr? address = some instr → address ∈ entries →
    traversal.Known address
  closed : ∀ address ∈ traversal.visited, ∀ instr, image.instr? address = some instr →
    ∀ target kind next, (target, kind) ∈ instr.successors address → image.instr? target = some next →
      traversal.Known target

theorem explores_start (image : Image) (entries : List Nat) :
    (start image entries).Explores image entries where
  visits := by simp [start]
  sound := by
    intro address instr found known
    rcases known with seen | queued
    · simp [start] at seen
    · exact .entry (List.mem_of_mem_filter queued) found
  entered := by
    intro address instr found listed
    exact .inr (List.mem_filter.mpr ⟨listed, by simpa using Image.mapped_of_instr? found⟩)
  closed := by simp [start]

namespace Explores

theorem drop (explores : traversal.Explores image entries) (first : traversal.queue = address :: rest)
    (done : address ∈ traversal.visited ∨ image.instr? address = none) :
    Explores image entries { traversal with queue := rest } where
  visits := explores.visits
  sound := by
    intro other instr found known
    exact explores.sound other instr found ((known_drop_iff first done found).mp known)
  entered := by
    intro other instr found listed
    exact (known_drop_iff first done found).mpr (explores.entered other instr found listed)
  closed := by
    intro source seen instr found target kind next follows foundNext
    exact (known_drop_iff first done foundNext).mpr
      (explores.closed source seen instr found target kind next follows foundNext)

theorem visit (explores : traversal.Explores image entries) (first : traversal.queue = address :: rest)
    (found : image.instr? address = some instr) :
    Explores image entries (traversal.visit image rest address instr) where
  visits := by
    intro other seen
    rcases Std.TreeSet.mem_insert.mp seen with same | earlier
    · exact ⟨instr, Nat.compare_eq_eq.mp same ▸ found⟩
    · exact explores.visits other earlier
  sound := by
    intro other next foundNext known
    rcases (known_visit_iff first).mp known with old | ⟨⟨kind, follows⟩, _⟩
    · exact explores.sound other next foundNext old
    · have reached := explores.sound address instr found (.inr (by simp [first]))
      exact .successor reached found follows foundNext
  entered := by
    intro other next foundNext listed
    exact (known_visit_iff first).mpr (.inl (explores.entered other next foundNext listed))
  closed := by
    intro source seen next foundSource target kind last follows foundTarget
    apply (known_visit_iff first).mpr
    rcases Std.TreeSet.mem_insert.mp seen with same | earlier
    · cases Nat.compare_eq_eq.mp same
      cases found.symm.trans foundSource
      exact .inr ⟨⟨kind, follows⟩, Image.mapped_of_instr? foundTarget⟩
    · exact .inl (explores.closed source earlier next foundSource target kind last follows foundTarget)

theorem step (explores : traversal.Explores image entries) (queued : traversal.queue ≠ []) :
    Explores image entries (traversal.step image) := by
  obtain ⟨address, rest, first, ⟨done, stepped⟩ | ⟨instr, _, found, stepped⟩⟩ := step_cases image queued
  · rw [stepped]
    exact explores.drop first done
  · rw [stepped]
    exact explores.visit first found

theorem reaches (explores : traversal.Explores image entries) (seen : address ∈ traversal.visited) :
    image.Reaches entries address := by
  obtain ⟨instr, found⟩ := explores.visits address seen
  exact explores.sound address instr found (.inl seen)

theorem visited_iff (explores : traversal.Explores image entries) (empty : traversal.queue = []) :
    address ∈ traversal.visited ↔ image.Reaches entries address := by
  have known : ∀ {target}, traversal.Known target → target ∈ traversal.visited :=
    fun known => known.resolve_right (by simp [empty])
  refine ⟨explores.reaches, fun reached => ?_⟩
  induction reached with
  | entry listed found => exact known (explores.entered _ _ found listed)
  | successor _ found follows foundNext ih =>
      exact known (explores.closed _ ih _ found _ _ _ follows foundNext)

end Explores

theorem size_visited_step_le (image : Image) (traversal : Traversal) (queued : traversal.queue ≠ []) :
    (traversal.step image).visited.size ≤ traversal.visited.size + 1 := by
  obtain ⟨address, rest, _, ⟨_, stepped⟩ | ⟨instr, _, _, stepped⟩⟩ := step_cases image queued
  · rw [stepped]
    exact Nat.le_add_right _ 1
  · rw [stepped, visited_visit, Std.TreeSet.size_insert]
    split <;> omega

theorem size_visited_run_le (image : Image) (start : traversal.visited.size ≤ budget) :
    (traversal.run image budget).visited.size ≤ budget := by
  refine @run_preserves image budget traversal (·.visited.size ≤ budget) ?_ start
  intro traversal unfinished _
  have more := size_visited_step_le image traversal (queue_ne_nil_of_not_finished unfinished)
  have room : traversal.visited.size < budget := by
    simp only [finished, Bool.or_eq_true, decide_eq_true_eq, not_or] at unfinished
    omega
  omega

def visitedSet (traversal : Traversal) : Finset Nat :=
  traversal.visited.toList.toFinset

theorem mem_visitedSet : address ∈ traversal.visitedSet ↔ address ∈ traversal.visited := by
  rw [visitedSet, List.mem_toFinset, Std.TreeSet.mem_toList]

theorem card_visitedSet (traversal : Traversal) : traversal.visitedSet.card = traversal.visited.size := by
  have distinct : traversal.visited.toList.Nodup :=
    Std.TreeSet.distinct_toList.imp fun different same => different (Nat.compare_eq_eq.mpr same)
  rw [visitedSet, List.toFinset_card_of_nodup distinct, Std.TreeSet.length_toList]

end Traversal

theorem Image.explores_traverse (image : Image) (entries : List Nat) (budget : Nat) :
    (image.traverse entries budget).Explores image entries :=
  Traversal.run_preserves
    (fun _ unfinished explores => explores.step (Traversal.queue_ne_nil_of_not_finished unfinished))
    (Traversal.explores_start image entries)

theorem Image.visitedSet_traverse_subset (image : Image) (entries : List Nat) (budget : Nat) :
    ((image.traverse entries budget).visitedSet : Set Nat) ⊆ image.reach entries := by
  intro address seen
  exact (image.explores_traverse entries budget).reaches (Traversal.mem_visitedSet.mp seen)

theorem Image.size_visited_traverse (image : Image) (entries : List Nat) (budget : Nat) :
    (image.traverse entries budget).visited.size = min budget (image.reach entries).ncard := by
  have atMost : (image.traverse entries budget).visited.size ≤ budget :=
    Traversal.size_visited_run_le image (Nat.zero_le budget)
  have inside := Set.ncard_le_ncard (image.visitedSet_traverse_subset entries budget)
    (image.reach_finite entries)
  rw [Set.ncard_coe_finset, Traversal.card_visitedSet] at inside
  have finished : (image.traverse entries budget).finished budget :=
    Traversal.finished_run image budget (Traversal.start image entries)
  simp only [Traversal.finished, Bool.or_eq_true, List.isEmpty_iff, decide_eq_true_eq] at finished
  -- either the queue ran dry, and all is visited, or the budget is spent
  rcases finished with empty | spent
  · have all : ((image.traverse entries budget).visitedSet : Set Nat) = image.reach entries := by
      ext address
      exact Traversal.mem_visitedSet.trans ((image.explores_traverse entries budget).visited_iff empty)
    rw [← all, Set.ncard_coe_finset, Traversal.card_visitedSet]
    omega
  · omega

theorem Image.mem_visited_traverse_iff (enough : (image.reach entries).ncard ≤ budget) :
    address ∈ (image.traverse entries budget).visited ↔ image.Reaches entries address := by
  have size := image.size_visited_traverse entries budget
  rw [Nat.min_eq_right enough, ← Traversal.card_visitedSet, ← Set.ncard_coe_finset] at size
  have all := Set.eq_of_subset_of_ncard_le (image.visitedSet_traverse_subset entries budget) size.ge
    (image.reach_finite entries)
  rw [← Traversal.mem_visitedSet, ← Finset.mem_coe, all]
  rfl

/-- A traversal visits reachable instructions only, and as many of them as its budget allows. A
budget for all of them visits all, in whatever order the entries come. -/
theorem Image.traverse_visits_reach (image : Image) (entries : List Nat) (budget : Nat) :
    (image.reach entries).Finite ∧
      (∀ address ∈ (image.traverse entries budget).visited, image.Reaches entries address) ∧
      (image.traverse entries budget).visited.size = min budget (image.reach entries).ncard ∧
      ((image.reach entries).ncard ≤ budget → ∀ others, (∀ entry, entry ∈ others ↔ entry ∈ entries) →
        ∀ address, address ∈ (image.traverse others budget).visited ↔ image.Reaches entries address) := by
  refine ⟨image.reach_finite entries, fun _ => (image.explores_traverse entries budget).reaches,
    image.size_visited_traverse entries budget, ?_⟩
  intro enough others same address
  have sameReach : image.reach others = image.reach entries := by
    ext target
    exact ⟨.mono fun entry => (same entry).mp, .mono fun entry => (same entry).mpr⟩
  rw [Image.mem_visited_traverse_iff (sameReach ▸ enough)]
  exact Set.ext_iff.mp sameReach address

/-- A branch to a jump back, a halt behind the branch, and a word that control does not reach. One of
the entries is outside the image. -/
theorem Image.traverse_visits_reach_loop :
    let image : Image := ⟨0, #[0x8002, 0xF001, 0x9000, 0xF000]⟩
    (image.reach [0, 9, 0]).ncard = 3 ∧
      (image.traverse [0, 9, 0] 2).visited.toList = [0, 2] ∧
      (∀ address, address ∈ (image.traverse [9, 0] 3).visited ↔ image.Reaches [0, 9, 0] address) ∧
      image.Reaches [0, 9, 0] 1 ∧ ¬ image.Reaches [0, 9, 0] 3 := by
  intro image
  have count : (image.reach [0, 9, 0]).ncard = 3 := by
    have size := (image.traverse_visits_reach [0, 9, 0] 4).2.2.1
    have three : (image.traverse [0, 9, 0] 4).visited.size = 3 := by decide +kernel
    omega
  have all := (image.traverse_visits_reach [0, 9, 0] 3).2.2.2 count.le [9, 0] (by simp [or_comm])
  refine ⟨count, by decide +kernel, all, (all 1).mp ?_, mt (all 3).mpr ?_⟩
  · decide +kernel
  · decide +kernel

end Asm16
