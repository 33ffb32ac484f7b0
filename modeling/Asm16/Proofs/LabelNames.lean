import Mathlib.Logic.Basic
import Asm16.Flow.Listing

/-!
# Which name an address gets

An imported name stays. Entries and call targets ought to be subroutines, and the targets of
branches alone locations. Targets get their names in the order of the edges, though, so a target
that a branch reaches before a call does is named as a location.
-/

namespace Asm16

variable {address : Nat} {edge : Edge} {entries : List Nat} {edges : List Edge}

namespace Edge

def Enters (edge : Edge) (address : Nat) : Prop :=
  edge.kind ≠ .fallthrough ∧ edge.target = address

/-- The name that the edge has for an address. -/
def nameFor? (edge : Edge) (address : Nat) : Option String :=
  if edge.target = address then
    match edge.kind with
    | .call => some (Labels.subroutine address)
    | .branch | .condBranch => some (Labels.location address)
    | .fallthrough => none
  else none

theorem nameFor?_eq_none_iff : edge.nameFor? address = none ↔ ¬ edge.Enters address := by
  unfold nameFor? Enters
  cases edge.kind <;> simp

theorem enters_of_nameFor? {name : String} (named : edge.nameFor? address = some name) :
    edge.Enters address := by
  have present : edge.nameFor? address ≠ none := by
    rw [named]
    nofun
  exact not_not.mp (mt nameFor?_eq_none_iff.mpr present)

theorem nameFor?_of_call (entered : edge.Enters address) (call : edge.kind = .call) :
    edge.nameFor? address = some (Labels.subroutine address) := by
  rw [nameFor?, if_pos entered.2, call]

theorem nameFor?_of_branch (entered : edge.Enters address) (branch : edge.kind ≠ .call) :
    edge.nameFor? address = some (Labels.location address) := by
  obtain ⟨leaves, target⟩ := entered
  rw [nameFor?, if_pos target]
  cases kind : edge.kind with
  | call => exact absurd kind branch
  | fallthrough => exact absurd kind leaves
  | branch | condBranch => rfl

end Edge

def Called (edges : List Edge) (address : Nat) : Prop :=
  ∃ edge ∈ edges, edge.kind = .call ∧ edge.target = address

def Branched (edges : List Edge) (address : Nat) : Prop :=
  ∃ edge ∈ edges, (edge.kind = .branch ∨ edge.kind = .condBranch) ∧ edge.target = address

instance : DecidablePred (Called edges) :=
  fun address => inferInstanceAs (Decidable (∃ edge ∈ edges, edge.kind = .call ∧ edge.target = address))

instance : DecidablePred (Branched edges) :=
  fun address => inferInstanceAs (Decidable (∃ edge ∈ edges,
    (edge.kind = .branch ∨ edge.kind = .condBranch) ∧ edge.target = address))

/-- A branch is the first edge to enter the address, and a later one is a call. -/
def BranchedThenCalled (edges : List Edge) (address : Nat) : Prop :=
  ∃ before branch after, edges = before ++ branch :: after ∧
    (∀ edge ∈ before, ¬ edge.Enters address) ∧ branch.Enters address ∧ branch.kind ≠ .call ∧
    Called after address

theorem branched_of_enters (member : edge ∈ edges) (entered : edge.Enters address)
    (branch : edge.kind ≠ .call) : Branched edges address := by
  refine ⟨edge, member, ?_, entered.2⟩
  cases kind : edge.kind with
  | branch => exact .inl rfl
  | condBranch => exact .inr rfl
  | call => exact absurd kind branch
  | fallthrough => exact absurd kind entered.1

theorem Called.exists_enters (called : Called edges address) :
    ∃ edge ∈ edges, edge.Enters address := by
  obtain ⟨edge, member, kind, target⟩ := called
  exact ⟨edge, member, by simp [kind], target⟩

theorem Branched.exists_enters (branched : Branched edges address) :
    ∃ edge ∈ edges, edge.Enters address := by
  obtain ⟨edge, member, kind, target⟩ := branched
  refine ⟨edge, member, ?_, target⟩
  rcases kind with kind | kind <;> simp [kind]

theorem BranchedThenCalled.called (late : BranchedThenCalled edges address) : Called edges address := by
  obtain ⟨before, branch, after, split, _, _, _, call, member, kind, target⟩ := late
  exact ⟨call, by simp [split, member], kind, target⟩

namespace Labels

variable {labels imported : Labels}

theorem getElem?_insertIfNew_eq_or (labels : Labels) (key address : Nat) (name : String) :
    (labels.insertIfNew key name)[address]? =
      labels[address]?.or (if key = address then some name else none) := by
  rw [Std.TreeMap.getElem?_insertIfNew]
  by_cases same : key = address
  · subst same
    by_cases known : key ∈ labels <;> simp [known]
  · simp [same]

theorem getElem?_nameEntries (labels : Labels) (entries : List Nat) (address : Nat) :
    (entries.foldl (fun labels entry => labels.insertIfNew entry (subroutine entry)) labels)[address]? =
      labels[address]?.or (if address ∈ entries then some (subroutine address) else none) := by
  induction entries generalizing labels with
  | nil => simp
  | cons entry rest ih =>
      rw [List.foldl_cons, ih, getElem?_insertIfNew_eq_or, Option.or_assoc]
      by_cases same : entry = address
      · simp [same]
      · simp [same, Ne.symm same]

theorem getElem?_nameTarget (labels : Labels) (edge : Edge) (address : Nat) :
    (labels.nameTarget edge)[address]? = labels[address]?.or (edge.nameFor? address) := by
  cases kind : edge.kind with
  | call | branch | condBranch =>
      simp only [nameTarget, Edge.nameFor?, kind, getElem?_insertIfNew_eq_or]
      split
      · next same => rw [same]
      · rfl
  | fallthrough => simp [nameTarget, Edge.nameFor?, kind]

theorem getElem?_nameTargets (labels : Labels) (edges : List Edge) (address : Nat) :
    (edges.foldl nameTarget labels)[address]? =
      labels[address]?.or (edges.findSome? (·.nameFor? address)) := by
  induction edges generalizing labels with
  | nil => simp
  | cons edge rest ih =>
      rw [List.foldl_cons, ih, getElem?_nameTarget, Option.or_assoc, List.findSome?_cons]
      cases edge.nameFor? address <;> rfl

theorem getElem?_extend (imported : Labels) (entries : List Nat) (edges : List Edge) (address : Nat) :
    (imported.extend entries edges)[address]? =
      imported[address]?.or ((if address ∈ entries then some (subroutine address) else none).or
        (edges.findSome? (·.nameFor? address))) := by
  rw [extend, getElem?_nameTargets, getElem?_nameEntries, Option.or_assoc]

theorem findSome?_nameFor?_eq_none_iff :
    edges.findSome? (·.nameFor? address) = none ↔ ∀ edge ∈ edges, ¬ edge.Enters address := by
  simp only [List.findSome?_eq_none_iff, Edge.nameFor?_eq_none_iff]

/-- The name that an address should get. -/
def ruled (imported : Labels) (entries : List Nat) (edges : List Edge) (address : Nat) : Option String :=
  match imported[address]? with
  | some name => some name
  | none =>
      if address ∈ entries ∨ Called edges address then some (subroutine address)
      else if Branched edges address then some (location address)
      else none

theorem findSome?_of_branchedThenCalled (late : BranchedThenCalled edges address) :
    edges.findSome? (·.nameFor? address) = some (location address) := by
  obtain ⟨before, branch, after, split, untouched, entered, kind, _⟩ := late
  rw [List.findSome?_eq_some_iff]
  refine ⟨before, branch, after, split, Edge.nameFor?_of_branch entered kind, ?_⟩
  exact fun edge member => Edge.nameFor?_eq_none_iff.mpr (untouched edge member)

/-- Unless a branch comes before a call, the first edge that enters an address has its name. -/
theorem findSome?_eq_of_not_late (timely : ¬ BranchedThenCalled edges address) :
    edges.findSome? (·.nameFor? address) =
      if Called edges address then some (subroutine address)
      else if Branched edges address then some (location address)
      else none := by
  cases first : edges.findSome? (·.nameFor? address) with
  | none =>
      have untouched : ¬ ∃ edge ∈ edges, edge.Enters address := by
        intro ⟨edge, member, entered⟩
        exact findSome?_nameFor?_eq_none_iff.mp first edge member entered
      rw [if_neg (mt Called.exists_enters untouched), if_neg (mt Branched.exists_enters untouched)]
  | some name =>
      obtain ⟨before, edge, after, split, named, earlier⟩ := List.findSome?_eq_some_iff.mp first
      have untouched : ∀ other ∈ before, ¬ other.Enters address :=
        fun other member => Edge.nameFor?_eq_none_iff.mp (earlier other member)
      have entered := Edge.enters_of_nameFor? named
      have member : edge ∈ edges := by simp [split]
      by_cases call : edge.kind = .call
      · rw [if_pos ⟨edge, member, call, entered.2⟩, ← named, Edge.nameFor?_of_call entered call]
      · -- a call that enters the address could only come later
        have uncalled : ¬ Called edges address := by
          intro ⟨other, inside, kind, target⟩
          have enters : other.Enters address := ⟨by simp [kind], target⟩
          rw [split, List.mem_append, List.mem_cons] at inside
          rcases inside with sooner | rfl | later
          · exact untouched other sooner enters
          · exact call kind
          · exact timely ⟨before, edge, after, split, untouched, entered, call, other, later, kind, target⟩
        rw [if_neg uncalled, if_pos (branched_of_enters member entered call), ← named,
          Edge.nameFor?_of_branch entered call]

theorem ruled_congr {others : List Edge} (same : ∀ edge, edge ∈ others ↔ edge ∈ edges) :
    imported.ruled entries others address = imported.ruled entries edges address := by
  have called : Called others address ↔ Called edges address := by simp only [Called, same]
  have branched : Branched others address ↔ Branched edges address := by simp only [Branched, same]
  unfold ruled
  cases imported[address]? with
  | some name => rfl
  | none => exact if_congr (or_congr_right called) rfl (if_congr branched rfl rfl)

/-- The names follow the rule, except for a call target that a branch was first to enter and that is
neither imported nor an entry: it is named as a location. The rule itself asks for no order. -/
theorem extend_follows_rule (imported : Labels) (entries : List Nat) (edges : List Edge) (address : Nat) :
    (∀ others : List Edge, (∀ edge, edge ∈ others ↔ edge ∈ edges) →
      imported.ruled entries others address = imported.ruled entries edges address) ∧
    (address ∈ imported ∨ address ∈ entries ∨ ¬ BranchedThenCalled edges address →
      (imported.extend entries edges)[address]? = imported.ruled entries edges address) ∧
    (address ∉ imported → address ∉ entries → BranchedThenCalled edges address →
      (imported.extend entries edges)[address]? = some (location address) ∧
      imported.ruled entries edges address = some (subroutine address)) := by
  refine ⟨fun others same => ruled_congr same, ?_⟩
  rw [getElem?_extend, ruled]
  by_cases known : address ∈ imported
  · rw [Std.TreeMap.getElem?_eq_some_getElem known]
    exact ⟨fun _ => rfl, fun unknown => absurd known unknown⟩
  · rw [Std.TreeMap.getElem?_eq_none known]
    by_cases entry : address ∈ entries
    · simp [entry]
    · refine ⟨?_, ?_⟩
      · intro timely
        simp only [known, entry, false_or] at timely
        simp [entry, findSome?_eq_of_not_late timely]
      · intro _ _ late
        simp [entry, findSome?_of_branchedThenCalled late, late.called]

end Labels

/-- A branch to a subroutine comes before the call, and the subroutine is named as a location. -/
theorem Image.analyze_names_called_location :
    let image : Image := ⟨0, #[0x8183, 0xA003, 0xF001, 0xF001]⟩
    let analysis := image.analyze [0] 9 ∅
    let edges := analysis.traversal.edges.toList
    edges = [⟨0, 3, .condBranch⟩, ⟨0, 1, .fallthrough⟩, ⟨1, 3, .call⟩, ⟨1, 2, .fallthrough⟩] ∧
      analysis.labels[3]? = some "loc_0003" ∧
      Labels.ruled ∅ [0] edges 3 = some "sub_0003" ∧
      ((∅ : Labels).extend [0] edges.reverse)[3]? = some "sub_0003" := by
  decide +kernel

end Asm16
