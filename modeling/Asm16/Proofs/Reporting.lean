import Mathlib.Data.List.Forall2
import Asm16.Reporting

namespace Asm16

variable {ε δ α β : Type} {outcome : Except ε α}

theorem mapError_eq_ok_iff {wrap : ε → δ} {value : α} :
    outcome.mapError wrap = .ok value ↔ outcome = .ok value := by
  cases outcome <;> simp [Except.mapError]

theorem mapError_eq_error_iff {wrap : ε → δ} {error : δ} :
    outcome.mapError wrap = .error error ↔ ∃ cause, outcome = .error cause ∧ wrap cause = error := by
  cases outcome <;> simp [Except.mapError]

theorem toOption_eq_some_iff {value : α} : outcome.toOption = some value ↔ outcome = .ok value := by
  cases outcome <;> simp [Except.toOption]

theorem map_eq_ok_iff {f : α → β} {result : β} :
    outcome.map f = .ok result ↔ ∃ value, outcome = .ok value ∧ f value = result := by
  cases outcome <;> simp [Except.map]

theorem map_map {γ : Type} {f : α → β} {g : β → γ} : (outcome.map f).map g = outcome.map (g ∘ f) := by
  cases outcome <;> rfl

theorem bind_eq_ok_iff {next : α → Except ε β} {result : β} :
    (outcome >>= next) = .ok result ↔ ∃ value, outcome = .ok value ∧ next value = .ok result := by
  cases outcome <;> simp [bind, Except.bind]

theorem bind_eq_error_iff {next : α → Except ε β} {error : ε} :
    (outcome >>= next) = .error error ↔
      outcome = .error error ∨ ∃ value, outcome = .ok value ∧ next value = .error error := by
  cases outcome <;> simp [bind, Except.bind]

variable {f : α → Except ε β} {inputs : List α} {outputs : List β}

theorem mapM_eq_ok_iff :
    inputs.mapM f = .ok outputs ↔
      List.Forall₂ (fun input output => f input = .ok output) inputs outputs := by
  induction inputs generalizing outputs with
  | nil => simp [pure, Except.pure, eq_comm]
  | cons input rest ih =>
      rw [List.mapM_cons, List.forall₂_cons_left_iff]
      constructor
      · intro mapped
        obtain ⟨output, first, tailMapped⟩ := bind_eq_ok_iff.mp mapped
        obtain ⟨tail, remaining, joined⟩ := bind_eq_ok_iff.mp tailMapped
        cases joined
        exact ⟨output, tail, first, ih.mp remaining, rfl⟩
      · intro ⟨output, tail, first, remaining, joined⟩
        subst joined
        exact bind_eq_ok_iff.mpr ⟨output, first, bind_eq_ok_iff.mpr ⟨tail, ih.mpr remaining, rfl⟩⟩

theorem exists_ok_of_mem {input : α}
    (related : List.Forall₂ (fun input output => f input = .ok output) inputs outputs)
    (member : input ∈ inputs) : ∃ output, f input = .ok output := by
  induction related with
  | nil => cases member
  | cons first _ ih =>
      rcases List.mem_cons.mp member with same | member
      · exact ⟨_, same ▸ first⟩
      · exact ih member

theorem exists_input_of_mem {α β : Type} {relation : α → β → Prop} {inputs : List α} {outputs : List β}
    {output : β} (related : List.Forall₂ relation inputs outputs) (member : output ∈ outputs) :
    ∃ input ∈ inputs, relation input output := by
  induction related with
  | nil => cases member
  | cons first _ ih =>
      rcases List.mem_cons.mp member with same | later
      · exact ⟨_, List.mem_cons_self, same ▸ first⟩
      · obtain ⟨input, inside, holds⟩ := ih later
        exact ⟨input, List.mem_cons_of_mem _ inside, holds⟩

theorem exists_related_at {α β : Type} {relation : α → β → Prop} {inputs : List α} {outputs : List β}
    {input : α} {index : Nat} (related : List.Forall₂ relation inputs outputs)
    (left : inputs[index]? = some input) : ∃ output, outputs[index]? = some output ∧ relation input output := by
  induction related generalizing index with
  | nil => simp at left
  | cons first _ ih =>
      cases index with
      | zero =>
          cases left
          exact ⟨_, rfl, first⟩
      | succ index => exact ih left

theorem exists_mapM_eq_ok_iff :
    (∃ outputs, inputs.mapM f = .ok outputs) ↔ ∀ input ∈ inputs, ∃ output, f input = .ok output := by
  simp only [mapM_eq_ok_iff]
  constructor
  · intro ⟨outputs, related⟩ input member
    exact exists_ok_of_mem related member
  · intro succeeds
    induction inputs with
    | nil => exact ⟨[], .nil⟩
    | cons input rest ih =>
        obtain ⟨output, first⟩ := succeeds input (by simp)
        obtain ⟨outputs, later⟩ := ih fun candidate member => succeeds candidate (by simp [member])
        exact ⟨output :: outputs, .cons first later⟩

/-- The input at the index is the first one on which `f` fails. -/
def FirstFailure (f : α → Except ε β) (inputs : List α) (index : Nat) (error : ε) : Prop :=
  (∃ input, inputs[index]? = some input ∧ f input = .error error) ∧
    ∀ earlier < index, ∀ input, inputs[earlier]? = some input → ∃ output, f input = .ok output

theorem firstFailure_zero_iff {input : α} {rest : List α} {error : ε} :
    FirstFailure f (input :: rest) 0 error ↔ f input = .error error := by
  simp [FirstFailure]

theorem firstFailure_succ_iff {input : α} {rest : List α} {index : Nat} {error : ε} :
    FirstFailure f (input :: rest) (index + 1) error ↔
      (∃ output, f input = .ok output) ∧ FirstFailure f rest index error := by
  simp only [FirstFailure, Nat.forall_lt_succ_left, List.getElem?_cons_zero, List.getElem?_cons_succ,
    Option.some.injEq, forall_eq']
  tauto

theorem mapM_eq_error_iff {error : ε} :
    inputs.mapM f = .error error ↔ ∃ index, FirstFailure f inputs index error := by
  induction inputs with
  | nil => simp [pure, Except.pure, FirstFailure]
  | cons input rest ih =>
      rw [List.mapM_cons, bind_eq_error_iff]
      constructor
      · intro failure
        rcases failure with fails | ⟨output, first, tailFails⟩
        · exact ⟨0, firstFailure_zero_iff.mpr fails⟩
        · rcases bind_eq_error_iff.mp tailFails with fails | ⟨tail, _, impossible⟩
          · obtain ⟨index, failure⟩ := ih.mp fails
            exact ⟨index + 1, firstFailure_succ_iff.mpr ⟨⟨output, first⟩, failure⟩⟩
          · cases impossible
      · intro ⟨index, failure⟩
        cases index with
        | zero => exact .inl (firstFailure_zero_iff.mp failure)
        | succ index =>
            obtain ⟨⟨output, first⟩, later⟩ := firstFailure_succ_iff.mp failure
            exact .inr ⟨output, first, bind_eq_error_iff.mpr (.inl (ih.mpr ⟨index, later⟩))⟩

theorem collect_eq_ok_iff :
    collect f inputs = .ok outputs ↔
      List.Forall₂ (fun input output => f input = .ok output) inputs outputs := by
  induction inputs generalizing outputs with
  | nil => simp [collect, eq_comm]
  | cons input rest ih =>
      rw [List.forall₂_cons_left_iff]
      cases first : f input with
      | error reason => simp [collect, first, failure?]
      | ok output =>
          have tail : collect f (input :: rest) = (collect f rest).map (output :: ·) := by
            simp only [collect, List.map_cons, first, List.filterMap_cons, failure?, Except.toOption]
            cases (rest.map f).filterMap failure? <;> rfl
          rw [tail, map_eq_ok_iff]
          simp [ih, eq_comm]

theorem Reporting.traverse_eq_ok_iff {reporting : Reporting} :
    reporting.traverse f inputs = .ok outputs ↔
      List.Forall₂ (fun input output => f input = .ok output) inputs outputs := by
  cases reporting with
  | first => rw [Reporting.traverse, mapError_eq_ok_iff, mapM_eq_ok_iff]
  | all => exact collect_eq_ok_iff

theorem Reporting.traverse_eq_ok_map {reporting : Reporting} {g : α → β}
    (succeeds : ∀ input ∈ inputs, f input = .ok (g input)) :
    reporting.traverse f inputs = .ok (inputs.map g) := by
  rw [Reporting.traverse_eq_ok_iff, List.forall₂_map_right_iff, List.forall₂_same]
  exact succeeds

end Asm16
