import Asm16.Proofs.Grammar
import Asm16.Proofs.ReportingModes
import Asm16.Proofs.Resolution

namespace Asm16

variable {ε α β : Type} {fails : Nat → ε → Prop} {error : ε} {errors : List ε}

/-- The errors of the failing places, each once and in the order of the places. -/
def InOrder (fails : Nat → ε → Prop) (errors : List ε) : Prop :=
  ∃ places : List Nat, places.Pairwise (· < ·) ∧
    (∀ place, place ∈ places ↔ ∃ error, fails place error) ∧ List.Forall₂ fails places errors

/-- The stage succeeds if no place fails, and otherwise reports the errors of all that do. -/
inductive ReportsEvery (fails : Nat → ε → Prop) : Except (List ε) α → Prop
  | ok {value : α} (none : ∀ place error, ¬ fails place error) : ReportsEvery fails (.ok value)
  | error {errors : List ε} (nonempty : errors ≠ []) (inOrder : InOrder fails errors) :
      ReportsEvery fails (.error errors)

theorem inOrder_nil_iff : InOrder fails [] ↔ ∀ place error, ¬ fails place error := by
  refine ⟨?_, fun none => ⟨[], .nil, by simp [none], .nil⟩⟩
  rintro ⟨places, _, complete, related⟩ place error failed
  cases related
  simpa using (complete place).mpr ⟨error, failed⟩

theorem InOrder.skip (passes : ∀ error, ¬ fails 0 error)
    (later : InOrder (fun place => fails (place + 1)) errors) : InOrder fails errors := by
  obtain ⟨places, increasing, complete, related⟩ := later
  refine ⟨places.map (· + 1), ?_, ?_, List.forall₂_map_left_iff.mpr related⟩
  · exact List.pairwise_map.mpr (increasing.imp Nat.succ_lt_succ)
  · intro place
    cases place with
    | zero => simp [passes]
    | succ place => simpa using complete place

theorem InOrder.report (failed : fails 0 error) (later : InOrder (fun place => fails (place + 1)) errors) :
    InOrder fails (error :: errors) := by
  obtain ⟨places, increasing, complete, related⟩ := later
  refine ⟨0 :: places.map (· + 1), ?_, ?_, .cons failed (List.forall₂_map_left_iff.mpr related)⟩
  · refine List.pairwise_cons.mpr ⟨?_, List.pairwise_map.mpr (increasing.imp Nat.succ_lt_succ)⟩
    intro place member
    obtain ⟨earlier, _, rfl⟩ := List.mem_map.mp member
    exact Nat.succ_pos earlier
  · intro place
    cases place with
    | zero => simpa using ⟨error, failed⟩
    | succ place => simpa using complete place

theorem InOrder.reportsEvery_ok {value : α} (none : InOrder fails []) :
    ReportsEvery fails (.ok value : Except (List ε) α) :=
  .ok (inOrder_nil_iff.mp none)

theorem ReportsEvery.map {stage : Except (List ε) α} (f : α → β) (reports : ReportsEvery fails stage) :
    ReportsEvery fails (stage.map f) := by
  cases reports with
  | ok none => exact .ok none
  | error nonempty inOrder => exact .error nonempty inOrder

/-- The part at a place fails. -/
def FailsAt (f : α → Except ε β) (inputs : List α) (place : Nat) (error : ε) : Prop :=
  ∃ input, inputs[place]? = some input ∧ f input = .error error

theorem failures_inOrder (f : α → Except ε β) (inputs : List α) :
    InOrder (FailsAt f inputs) ((inputs.map f).filterMap failure?) := by
  induction inputs with
  | nil => exact inOrder_nil_iff.mpr (by simp [FailsAt])
  | cons input rest ih =>
      cases outcome : f input with
      | ok output =>
          simp only [List.map_cons, outcome, List.filterMap_cons, failure?]
          refine .skip ?_ ih
          rintro error ⟨_, ⟨⟩, failed⟩
          rw [outcome] at failed
          cases failed
      | error error =>
          simp only [List.map_cons, outcome, List.filterMap_cons, failure?]
          exact .report ⟨input, rfl, outcome⟩ ih

theorem collect_reportsEvery (f : α → Except ε β) (inputs : List α) :
    ReportsEvery (FailsAt f inputs) (collect f inputs) := by
  have inOrder := failures_inOrder f inputs
  simp only [collect]
  split
  · rename_i none
    exact (none ▸ inOrder).reportsEvery_ok
  · rename_i some
    exact .error some inOrder

/-- A line that is no program of its own. What is wrong with it is reported with its number and its
text. -/
inductive LineFault (source : String) (place : Nat) : ParseError → Prop
  | mk {line : List Char} {alone : ParseError} (found : (Text.lines source.toList)[place]? = some line)
      (bad : Program.parse (String.ofList line) = .error alone) :
      LineFault source place ⟨place + 1, String.ofList line, alone.cause⟩

section

variable {source : String} {line : List Char} {place : Nat}

theorem parseLineAt_eq_error_iff {error : ParseError} :
    parseLineAt (line, place) = .error error ↔
      ∃ cause, readParts (lineText line) = .error cause ∧ error = ⟨place + 1, String.ofList line, cause⟩ := by
  rw [parseLineAt, readLine_eq_map]
  cases readParts (lineText line) <;> simp [Except.map, Except.mapError, eq_comm]

theorem parse_line_eq_error_iff {error : ParseError} (free : '\n' ∉ line) :
    Program.parse (String.ofList line) = .error error ↔
      ∃ cause, readParts (lineText line) = .error cause ∧ error = ⟨1, String.ofList line, cause⟩ := by
  rw [Program.parse_single_line free, ← @parseLineAt_eq_error_iff line 0]
  cases parseLineAt (line, 0) <;> simp [Except.map]

theorem failsAt_parseLineAt_iff {error : ParseError} :
    FailsAt parseLineAt (Program.sourceLines source) place error ↔ LineFault source place error := by
  simp only [FailsAt, Program.sourceLines, List.getElem?_zipIdx, Nat.zero_add]
  refine ⟨?_, ?_⟩
  · rintro ⟨input, located, failed⟩
    obtain ⟨line, found, rfl⟩ := Option.map_eq_some_iff.mp located
    obtain ⟨cause, unread, rfl⟩ := parseLineAt_eq_error_iff.mp failed
    have free := Text.not_mem_of_mem_lines (List.mem_of_getElem? found)
    exact .mk found ((parse_line_eq_error_iff free).mpr ⟨cause, unread, rfl⟩)
  · rintro ⟨found, bad⟩
    rename_i line alone
    have free := Text.not_mem_of_mem_lines (List.mem_of_getElem? found)
    obtain ⟨cause, unread, rfl⟩ := (parse_line_eq_error_iff free).mp bad
    exact ⟨_, by rw [found]; rfl, parseLineAt_eq_error_iff.mpr ⟨cause, unread, rfl⟩⟩

theorem Program.parseAll_reportsEvery (source : String) :
    ReportsEvery (LineFault source) (Program.parseAll source) := by
  have lines := collect_reportsEvery parseLineAt (Program.sourceLines source)
  have faults : FailsAt parseLineAt (Program.sourceLines source) = LineFault source := by
    funext place error
    exact propext failsAt_parseLineAt_iff
  rw [faults] at lines
  simp only [Program.parseAll, bind_pure_comp]
  exact lines.map fun parts => Program.mk parts.flatten

end

namespace Program

/-- A label that was defined before, reported with the line of its first definition. -/
inductive LabelFault (program : Program) (place : Nat) : ResolveError → Prop
  | duplicateLabel {before after head tail : Program} {name : String} {lineNo firstLineNo : Nat}
      (second : program.Splits before name lineNo after) (position : before.items.length = place)
      (first : before.Splits head name firstLineNo tail) (fresh : name ∉ head.definedNames) :
      LabelFault program place (.duplicateLabel ⟨name, lineNo, firstLineNo⟩)

variable {program : Program} {origin : Word} {table : SymbolTable} {front rest : List Item} {item : Item}

theorem labelFault_iff (origin : Word) {error : ResolveError} :
    LabelFault ⟨front ++ item :: rest⟩ front.length error ↔
      ∃ name lineNo first, item = .label name lineNo ∧
        (labels ⟨front⟩ origin).find? (·.name = name) = some first ∧
        error = .duplicateLabel ⟨name, lineNo, first.lineNo⟩ := by
  refine ⟨?_, ?_⟩
  · rintro ⟨second, position, first, fresh⟩
    rename_i before after head tail name lineNo firstLineNo
    obtain ⟨sameFront, sameItem⟩ := List.append_inj second position.symm
    obtain ⟨rfl, _⟩ := List.cons.inj sameItem
    have same : before = ⟨front⟩ := congrArg Program.mk sameFront.symm
    subst same
    exact ⟨name, lineNo, _, rfl, find?_labels_eq_some_iff.mpr ⟨_, _, _, first, fresh, rfl⟩, rfl⟩
  · rintro ⟨name, lineNo, first, rfl, found, rfl⟩
    obtain ⟨head, firstLineNo, tail, splits, fresh, rfl⟩ := find?_labels_eq_some_iff.mp found
    exact @LabelFault.duplicateLabel _ _ ⟨front⟩ ⟨rest⟩ head tail name lineNo firstLineNo rfl rfl splits fresh

theorem labels_concat (front : List Item) (item : Item) (origin : Word) :
    labels ⟨front ++ [item]⟩ origin =
      labels ⟨front⟩ origin ++ symbolsFrom (origin + UInt16.ofNat (size ⟨front⟩)) [item] := by
  rw [labels_eq_symbolsFrom, labels_eq_symbolsFrom, symbolsFrom_append]

theorem symbolsFrom_cons_behind (front : List Item) (item : Item) (rest : List Item) (origin : Word) :
    symbolsFrom (origin + UInt16.ofNat (size ⟨front⟩)) (item :: rest) =
      symbolsFrom (origin + UInt16.ofNat (size ⟨front⟩)) [item] ++
        symbolsFrom (origin + UInt16.ofNat (size ⟨front ++ [item]⟩)) rest := by
  have sizes : size ⟨front ++ [item]⟩ = size ⟨front⟩ + size ⟨[item]⟩ := by
    simp [size, statements, List.filterMap_append]
  rw [sizes, UInt16.ofNat_add, ← UInt16.add_assoc, ← symbolsFrom_append, List.singleton_append]

theorem not_labelFault_behind {place : Nat} {error : ResolveError} (behind : program.items.length ≤ place) :
    ¬ program.LabelFault place error := by
  rintro ⟨second, position, _, _⟩
  have length := congrArg List.length second
  rw [List.length_append, List.length_cons] at length
  omega

/-- Each label behind `front` is judged by what stands before it. A duplicate leaves the table as it
was, so it does not count for the labels behind it. -/
theorem foldl_defineNoting_inOrder {noted : List DuplicateLabel}
    (represents : table.Represents (labels ⟨front⟩ origin)) :
    ∃ later : List DuplicateLabel,
      ((symbolsFrom (origin + UInt16.ofNat (size ⟨front⟩)) rest).foldl SymbolTable.defineNoting
        (table, noted)).2 = later.reverse ++ noted ∧
      InOrder (fun place => LabelFault ⟨front ++ rest⟩ (front.length + place))
        (later.map .duplicateLabel) := by
  induction rest generalizing front table noted with
  | nil =>
      refine ⟨[], rfl, inOrder_nil_iff.mpr fun place error => not_labelFault_behind ?_⟩
      simp
  | cons item rest ih =>
      have behind : (fun place => LabelFault ⟨front ++ item :: rest⟩ (front.length + (place + 1))) =
          fun place => LabelFault ⟨front ++ [item] ++ rest⟩ ((front ++ [item]).length + place) := by
        funext place
        rw [List.append_assoc, List.singleton_append, List.length_append, List.length_singleton]
        congr 1
        omega
      have extended := labels_concat front item origin
      rw [symbolsFrom_cons_behind, List.foldl_append]
      cases item with
      | stmt stmt =>
          rw [symbolsFrom, symbolsFrom, List.append_nil] at extended
          obtain ⟨later, noting, inOrder⟩ := @ih table (front ++ [.stmt stmt]) noted (extended ▸ represents)
          refine ⟨later, noting, .skip ?_ (behind ▸ inOrder)⟩
          intro error fault
          obtain ⟨name, lineNo, _, impossible, _⟩ := (labelFault_iff origin).mp fault
          cases impossible
      | label name lineNo =>
          rw [symbolsFrom, symbolsFrom] at extended ⊢
          rw [List.foldl_cons, List.foldl_nil, SymbolTable.defineNoting]
          rcases represents.define_cases ⟨name, origin + UInt16.ofNat (size ⟨front⟩), lineNo⟩ with
            ⟨fresh, next, defined, represents⟩ | ⟨first, found, refused, represents⟩
          · rw [← extended] at represents
            obtain ⟨later, noting, inOrder⟩ := @ih _ _ noted represents
            refine ⟨later, by rw [defined]; exact noting, .skip ?_ (behind ▸ inOrder)⟩
            intro error fault
            obtain ⟨_, _, first, ⟨⟩, found, _⟩ := (labelFault_iff origin).mp fault
            rw [SymbolTable.find?_eq_none_iff.mpr fresh] at found
            cases found
          · rw [← extended] at represents
            obtain ⟨later, noting, inOrder⟩ := @ih _ _ (⟨name, lineNo, first.lineNo⟩ :: noted) represents
            refine ⟨⟨name, lineNo, first.lineNo⟩ :: later, ?_, .report ?_ (behind ▸ inOrder)⟩
            · rw [refused]
              simpa using noting
            · exact (labelFault_iff origin).mpr ⟨name, lineNo, first, rfl, found, rfl⟩

theorem symbols_reportsEvery (small : origin.toNat + program.size < addressSpace) :
    ReportsEvery program.LabelFault (program.symbols .all origin) := by
  have none : SymbolTable.empty.Represents (labels ⟨[]⟩ origin) := SymbolTable.empty_represents
  obtain ⟨later, noting, inOrder⟩ := @foldl_defineNoting_inOrder origin _ _ program.items [] none
  simp only [size_nil, List.nil_append, List.length_nil, Nat.zero_add, List.append_nil] at noting inOrder
  have start : origin + UInt16.ofNat 0 = origin := by simp
  rw [start, ← labels_eq_symbolsFrom] at noting
  simp only [symbols, if_pos small, SymbolTable.defineAll, noting]
  split
  · rename_i empty
    have same : later = [] := by simpa using empty
    subst same
    exact inOrder.reportsEvery_ok
  · rename_i nonempty
    rw [List.reverse_reverse]
    exact .error (by simpa using nonempty) inOrder

/-- A statement that cannot be resolved at its own address. -/
inductive SubstitutionFault (program : Program) (origin : Word) (table : SymbolTable) (place : Nat) :
    ResolveError → Prop
  | mk {stmt : Statement} {address : Word} {error : ResolveError}
      (found : program.statements[place]? = some stmt) (position : address.toNat = origin.toNat + place)
      (refused : stmt.resolve table address = .error error) :
      SubstitutionFault program origin table place error

theorem failsAt_placed_iff {place : Nat} {error : ResolveError}
    (small : origin.toNat + program.size < addressSpace) :
    FailsAt (fun pair => Statement.resolve table pair.1 pair.2) (program.placed origin) place error ↔
      program.SubstitutionFault origin table place error := by
  simp only [FailsAt, getElem?_placed]
  refine ⟨?_, ?_⟩
  · rintro ⟨pair, located, refused⟩
    obtain ⟨stmt, found, rfl⟩ := Option.map_eq_some_iff.mp located
    exact .mk found (toNat_address small found) refused
  · rintro ⟨found, position, refused⟩
    have same := UInt16.toNat_inj.mp (position.trans (toNat_address small found).symm)
    subst same
    exact ⟨_, by rw [found]; rfl, refused⟩

theorem substitute_reportsEvery (small : origin.toNat + program.size < addressSpace) (table : SymbolTable) :
    ReportsEvery (program.SubstitutionFault origin table) (program.substitute .all origin table) := by
  have statements := collect_reportsEvery (fun pair => Statement.resolve table pair.1 pair.2)
    (program.placed origin)
  have faults : FailsAt (fun pair => Statement.resolve table pair.1 pair.2) (program.placed origin) =
      program.SubstitutionFault origin table := by
    funext place error
    exact propext (failsAt_placed_iff small)
  rwa [faults] at statements

end Program

/-- Going on after a failure reports every failure of the stage once and in source order: each bad
line as it is bad on its own, each label defined before, each statement refused at its address. -/
theorem collecting_reports_every_failure :
    (∀ source : String, ReportsEvery (LineFault source) (Program.parseAll source)) ∧
    (∀ (program : Program) (origin : Word), origin.toNat + program.size ≤ 65535 →
      ReportsEvery program.LabelFault (program.symbols .all origin)) ∧
    ∀ (program : Program) (origin : Word) (table : SymbolTable), origin.toNat + program.size ≤ 65535 →
      ReportsEvery (program.SubstitutionFault origin table) (program.substitute .all origin table) := by
  refine ⟨Program.parseAll_reportsEvery, ?_, ?_⟩
  · intro program origin fits
    exact Program.symbols_reportsEvery (Nat.lt_succ_of_le fits)
  · intro program origin table fits
    exact Program.substitute_reportsEvery (Nat.lt_succ_of_le fits) table

end Asm16
