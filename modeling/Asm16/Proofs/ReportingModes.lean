import Asm16.Assembly
import Asm16.Proofs.Reporting

/-!
# The first failure and all failures

A stage that goes on after a failure fails exactly if the stage that stops does, and what made the
other stop is the first failure in its report. The stages of an assembly follow one another only on
success, so the same holds of the whole.
-/

namespace Asm16

variable {ε δ α β : Type}

/-- A stage that stops beside the same stage going on: one result for both, or the failure of the
one as the first in the report of the other. -/
inductive Leads : Except (List ε) α → Except (List ε) α → Prop
  | ok (value : α) : Leads (.ok value) (.ok value)
  | error (first : ε) (later : List ε) : Leads (.error [first]) (.error (first :: later))

theorem Leads.mapError {first all : Except (List ε) α} (wrap : ε → δ) (leads : Leads first all) :
    Leads (first.mapError (·.map wrap)) (all.mapError (·.map wrap)) := by
  cases leads with
  | ok value => exact .ok value
  | error error later => exact .error (wrap error) (later.map wrap)

theorem Leads.map {first all : Except (List ε) α} (f : α → β) (leads : Leads first all) :
    Leads (first.map f) (all.map f) := by
  cases leads with
  | ok value => exact .ok (f value)
  | error error later => exact .error error later

theorem mapError_mapError {γ : Type} {outcome : Except ε α} {wrap : ε → δ} {again : δ → γ} :
    (outcome.mapError wrap).mapError again = outcome.mapError (again ∘ wrap) := by
  cases outcome <;> rfl

theorem map_mapError {outcome : Except ε α} {wrap : ε → δ} {f : α → β} :
    (outcome.mapError wrap).map f = (outcome.map f).mapError wrap := by
  cases outcome <;> rfl

section

variable {f : α → Except ε β} {input : α} {inputs : List α}

theorem mapM_cons_ok {output : β} (first : f input = .ok output) :
    (input :: inputs).mapM f = (inputs.mapM f).map (output :: ·) := by
  rw [List.mapM_cons, first]
  cases inputs.mapM f <;> rfl

theorem mapM_cons_error {error : ε} (first : f input = .error error) :
    (input :: inputs).mapM f = .error error := by
  rw [List.mapM_cons, first]
  rfl

theorem mapM_append_error {later : List α} {outputs : List β} {error : ε}
    (succeeds : inputs.mapM f = .ok outputs) (fails : f input = .error error) :
    (inputs ++ input :: later).mapM f = .error error := by
  rw [List.mapM_append, succeeds, mapM_cons_error fails]
  rfl

theorem collect_cons_ok {output : β} (first : f input = .ok output) :
    collect f (input :: inputs) = (collect f inputs).map (output :: ·) := by
  simp only [collect, List.map_cons, first, List.filterMap_cons, failure?, Except.toOption]
  cases (inputs.map f).filterMap failure? <;> rfl

theorem collect_cons_error {error : ε} (first : f input = .error error) :
    collect f (input :: inputs) = .error (error :: (inputs.map f).filterMap failure?) := by
  simp only [collect, List.map_cons, first, List.filterMap_cons, failure?]

theorem mapM_leads (f : α → Except ε β) (inputs : List α) :
    Leads ((inputs.mapM f).mapError ([·])) (collect f inputs) := by
  induction inputs with
  | nil => exact .ok []
  | cons input rest ih =>
      cases first : f input with
      | error error =>
          rw [mapM_cons_error first, collect_cons_error first]
          exact .error error _
      | ok output =>
          rw [mapM_cons_ok first, collect_cons_ok first, ← map_mapError]
          exact ih.map _

theorem Reporting.traverse_leads (f : α → Except ε β) (inputs : List α) :
    Leads (Reporting.first.traverse f inputs) (Reporting.all.traverse f inputs) :=
  mapM_leads f inputs

/-- The failures that a report still names after its first. -/
def Reporting.further (reporting : Reporting) (f : α → Except ε β) (inputs : List α) : List ε :=
  match reporting with
  | .first => []
  | .all => (inputs.map f).filterMap failure?

theorem Reporting.traverse_cons_ok (reporting : Reporting) {output : β} (first : f input = .ok output) :
    reporting.traverse f (input :: inputs) = (reporting.traverse f inputs).map (output :: ·) := by
  cases reporting with
  | first => rw [traverse, mapM_cons_ok first, ← map_mapError, traverse]
  | all => exact collect_cons_ok first

theorem Reporting.traverse_cons_error (reporting : Reporting) {error : ε} (first : f input = .error error) :
    reporting.traverse f (input :: inputs) = .error (error :: reporting.further f inputs) := by
  cases reporting with
  | first =>
      rw [traverse, mapM_cons_error first]
      rfl
  | all => exact collect_cons_error first

theorem Reporting.traverse_nil (reporting : Reporting) (f : α → Except ε β) :
    reporting.traverse f [] = .ok [] := by
  cases reporting <;> rfl

theorem Reporting.traverse_singleton (reporting : Reporting) (f : α → Except ε β) (input : α) :
    reporting.traverse f [input] = ((f input).map ([·])).mapError ([·]) := by
  cases outcome : f input with
  | ok output =>
      rw [reporting.traverse_cons_ok outcome, reporting.traverse_nil]
      rfl
  | error error =>
      rw [reporting.traverse_cons_error outcome]
      cases reporting <;> rfl

end

namespace SymbolTable

variable {table next : SymbolTable} {symbol : Symbol} {symbols : List Symbol}
  {duplicate : DuplicateLabel}

/-- Going on never takes back what was noted. -/
theorem exists_foldl_defineNoting (symbols : List Symbol) (table : SymbolTable)
    (noted : List DuplicateLabel) :
    ∃ later, (symbols.foldl defineNoting (table, noted)).2 = later ++ noted := by
  induction symbols generalizing table noted with
  | nil => exact ⟨[], rfl⟩
  | cons symbol rest ih =>
      rw [List.foldl_cons, defineNoting]
      cases table.define symbol with
      | ok next => exact ih next noted
      | error duplicate =>
          obtain ⟨later, same⟩ := ih table (duplicate :: noted)
          exact ⟨later ++ [duplicate], by simpa using same⟩

theorem defineAll_cons_ok (first : table.define symbol = .ok next) :
    table.defineAll (symbol :: symbols) = next.defineAll symbols := by
  simp only [defineAll, List.foldl_cons, defineNoting, first]

theorem defineAll_cons_error (first : table.define symbol = .error duplicate) :
    ∃ later, table.defineAll (symbol :: symbols) = .error (duplicate :: later) := by
  obtain ⟨later, same⟩ := exists_foldl_defineNoting symbols table [duplicate]
  refine ⟨later.reverse, ?_⟩
  simp [defineAll, defineNoting, first, same]

theorem defineEach_leads (symbols : List Symbol) (table : SymbolTable) :
    Leads ((table.defineEach symbols).mapError ([·])) (table.defineAll symbols) := by
  induction symbols generalizing table with
  | nil => exact .ok table
  | cons symbol rest ih =>
      rw [defineEach, List.foldlM_cons]
      cases first : table.define symbol with
      | ok next =>
          rw [defineAll_cons_ok first]
          exact ih next
      | error duplicate =>
          obtain ⟨later, report⟩ := @defineAll_cons_error table symbol rest duplicate first
          rw [report]
          exact .error duplicate later

end SymbolTable

namespace Program

theorem symbols_leads (program : Program) (origin : Word) :
    Leads (program.symbols .first origin) (program.symbols .all origin) := by
  unfold symbols
  split
  · have labels := (SymbolTable.defineEach_leads (program.labels origin) .empty).mapError
      ResolveError.duplicateLabel
    rw [mapError_mapError] at labels
    exact labels
  · exact .error _ []

theorem substitute_leads (program : Program) (origin : Word) (table : SymbolTable) :
    Leads (program.substitute .first origin table) (program.substitute .all origin table) :=
  Reporting.traverse_leads _ _

theorem parse_leads (source : String) : Leads ((parse source).mapError ([·])) (parseAll source) := by
  have lines := (mapM_leads parseLineAt (sourceLines source)).map fun parts => Program.mk parts.flatten
  rw [map_mapError] at lines
  simp only [parse, parseAll, bind_pure_comp]
  exact lines

end Program

/-- The two reports of an assembly: one result for both, or the error of the one as the first single
error inside the error of the other. -/
inductive Agree : Except AssemblyError α → Except AssemblyError α → Prop
  | ok (value : α) : Agree (.ok value) (.ok value)
  | error {first all : AssemblyError} (leads : all.flatten.head? = some first) :
      Agree (.error first) (.error all)

theorem Agree.bind {first all : Except AssemblyError α} {next other : α → Except AssemblyError β}
    (agree : Agree first all) (later : ∀ value, Agree (next value) (other value)) :
    Agree (first >>= next) (all >>= other) := by
  cases agree with
  | ok value => exact later value
  | error leads => exact .error leads

theorem AssemblyError.head?_flatten_ofList {error : AssemblyError} (single : error.flatten = [error])
    (later : List AssemblyError) : (ofList (error :: later)).flatten.head? = some error := by
  cases later with
  | nil => rw [ofList, single, List.head?_cons]
  | cons second later => simp [ofList, flatten, flattenAll, single]

/-- A stage does its part, if it makes no lists of errors itself. -/
theorem Leads.agree {first all : Except (List ε) α} {wrap : ε → AssemblyError} (leads : Leads first all)
    (single : ∀ error, first = .error [error] → (wrap error).flatten = [wrap error]) :
    Agree (first.mapError fun errors => .ofList (errors.map wrap))
      (all.mapError fun errors => .ofList (errors.map wrap)) := by
  cases leads with
  | ok value => exact .ok value
  | error error later =>
      exact .error (AssemblyError.head?_flatten_ofList (single error rfl) (later.map wrap))

theorem Program.parseWith_agree (source : String) :
    Agree (parseWith .first source) (parseWith .all source) := by
  have agree : Agree _ ((parseAll source).mapError fun errors => .ofList (errors.map .parse)) :=
    (parse_leads source).agree fun _ _ => rfl
  rw [mapError_mapError] at agree
  exact agree

theorem encodeStatements_agree (statements : List Resolved) :
    Agree (encodeStatements .first statements) (encodeStatements .all statements) := by
  -- this stage wraps each failure itself, and what it wraps is a single error
  have single : ∀ error, Reporting.first.traverse (fun stmt : Resolved =>
      (encode stmt.instr).mapError (AssemblyError.encode stmt.lineNo ·)) statements = .error [error] →
      (id error).flatten = [id error] := by
    intro error failed
    obtain ⟨cause, stopped, same⟩ := mapError_eq_error_iff.mp failed
    obtain ⟨index, ⟨stmt, _, fails⟩, _⟩ := mapM_eq_error_iff.mp stopped
    obtain ⟨reason, _, wrapped⟩ := mapError_eq_error_iff.mp fails
    cases same
    rw [id, ← wrapped, AssemblyError.flatten]
  have agree := (Reporting.traverse_leads _ statements).agree single
  simp only [List.map_id] at agree
  exact agree

theorem assemble_agree (source : String) (origin : Word) :
    Agree (assemble source ⟨origin, .first⟩) (assemble source ⟨origin, .all⟩) := by
  refine (Program.parseWith_agree source).bind fun program => ?_
  refine ((program.symbols_leads origin).agree fun _ _ => rfl).bind fun table => ?_
  refine ((program.substitute_leads origin table).agree fun _ _ => rfl).bind fun statements => ?_
  exact (encodeStatements_agree statements).bind fun words => .ok _

/-- Both ways of reporting assemble the same texts to the same result, and where they fail, the
error of the one is the first in the report of the other. -/
theorem assemble_first_leads_all (source : String) (origin : Word) :
    (∀ assembly, assemble source ⟨origin, .all⟩ = .ok assembly ↔
      assemble source ⟨origin, .first⟩ = .ok assembly) ∧
    ∀ error, assemble source ⟨origin, .first⟩ = .error error ↔
      ∃ report, assemble source ⟨origin, .all⟩ = .error report ∧ report.flatten.head? = some error := by
  have agree := assemble_agree source origin
  generalize assemble source ⟨origin, .first⟩ = first at agree
  generalize assemble source ⟨origin, .all⟩ = all at agree
  cases agree with
  | ok assembly => simp
  | error leads => simp [leads]

end Asm16
