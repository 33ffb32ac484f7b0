import Asm16.Proofs.Grammar
import Asm16.Proofs.Pipeline
import Asm16.Proofs.Relabeling

/-!
# Comments, blanks and empty lines

The layout of a source carries no meaning. Sources whose lines say the same, once comments, blanks
around and empty lines are left out, assemble to the same words at the same addresses or fail for
the same reasons. Only line numbers and the text of lines tell them apart.
-/

namespace Asm16

variable {line text : List Char} {source : String}

/-- The texts that lines hold, without the lines that hold none. -/
inductive Meaningful : List (List Char) → List (List Char) → Prop
  | nil : Meaningful [] []
  | blank {line kept : List Char} {lines texts : List (List Char)} (uncommented : Uncommented line kept)
      (trimmed : Trimmed kept []) (tail : Meaningful lines texts) : Meaningful (line :: lines) texts
  | text {line kept core : List Char} {lines texts : List (List Char)}
      (uncommented : Uncommented line kept) (trimmed : Trimmed kept core) (nonempty : core ≠ [])
      (tail : Meaningful lines texts) : Meaningful (line :: lines) (core :: texts)

/-- A source without its comments, the blanks around its lines and its empty lines. -/
def NormalForm (source normal : String) : Prop :=
  ∃ lines texts, Lines source.toList lines ∧ Meaningful lines texts ∧
    normal.toList = ['\n'].intercalate texts

def meaningfulLines (source : String) : List (List Char) :=
  ((Text.lines source.toList).map lineText).filter (!·.isEmpty)

def normalize (source : String) : String :=
  String.ofList (['\n'].intercalate (meaningfulLines source))

theorem meaningful_filter (lines : List (List Char)) :
    Meaningful lines ((lines.map lineText).filter (!·.isEmpty)) := by
  induction lines with
  | nil => exact .nil
  | cons line rest ih =>
      obtain ⟨kept, uncommented, trimmed⟩ := exists_kept_lineText line
      rw [List.map_cons]
      by_cases empty : lineText line = []
      · rw [List.filter_cons_of_neg (by simp [empty])]
        exact .blank uncommented (empty ▸ trimmed) ih
      · rw [List.filter_cons_of_pos (by simp [empty])]
        exact .text uncommented trimmed empty ih

theorem normalForm_normalize (source : String) : NormalForm source (normalize source) :=
  ⟨_, _, Text.lines_eq_iff.mp rfl, meaningful_filter _, String.toList_ofList⟩

theorem mem_of_mem_lineText {c : Char} (member : c ∈ lineText line) : c ∈ line ∧ c ≠ '#' := by
  obtain ⟨kept, uncommented, trimmed⟩ := exists_kept_lineText line
  have inside := trimmed.mem_text member
  cases uncommented with
  | plain free => exact ⟨inside, fun same => free (same ▸ inside)⟩
  | comment free => exact ⟨List.mem_append_left _ inside, fun same => free (same ▸ inside)⟩

theorem trimmed_lineText (line : List Char) : Trimmed (lineText line) (lineText line) := by
  obtain ⟨kept, _, trimmed⟩ := exists_kept_lineText line
  exact ⟨⟨[], [], by simp, nofun, nofun⟩, trimmed.first, trimmed.last⟩

theorem lineText_lineText (line : List Char) : lineText (lineText line) = lineText line :=
  lineText_eq_iff.mpr
    ⟨lineText line, .plain fun member => (mem_of_mem_lineText member).2 rfl, trimmed_lineText line⟩

theorem exists_line_of_mem_meaningfulLines (member : text ∈ meaningfulLines source) :
    text ≠ [] ∧ ∃ line ∈ Text.lines source.toList, lineText line = text := by
  obtain ⟨held, nonempty⟩ := List.mem_filter.mp member
  exact ⟨by simpa using nonempty, List.mem_map.mp held⟩

theorem lines_normalize (source : String) :
    Text.lines (normalize source).toList = meaningfulLines source := by
  rw [normalize, String.toList_ofList, Text.lines_eq_iff]
  apply lines_intercalate
  · intro text member
    exact (exists_line_of_mem_meaningfulLines member).1
  · intro text member feed
    obtain ⟨_, line, inside, rfl⟩ := exists_line_of_mem_meaningfulLines member
    exact Text.not_mem_of_mem_lines inside (mem_of_mem_lineText feed).1
  · intro text member last
    obtain ⟨_, line, _, rfl⟩ := exists_line_of_mem_meaningfulLines member
    have blank : Text.isBlank '\r' = false := (trimmed_lineText line).last '\r' last
    exact absurd blank (by decide)

theorem meaningfulLines_normalize (source : String) :
    meaningfulLines (normalize source) = meaningfulLines source := by
  have kept : ∀ text ∈ meaningfulLines source, lineText text = text := by
    intro text member
    obtain ⟨_, line, _, rfl⟩ := exists_line_of_mem_meaningfulLines member
    exact lineText_lineText line
  rw [meaningfulLines, lines_normalize, List.map_congr_left kept, List.map_id', meaningfulLines,
    List.filter_filter]
  simp only [Bool.and_self]

/-- Forgets every line number and the text of every line. -/
def Relabeling.unplaced : Relabeling :=
  ⟨id, Function.injective_id, fun _ => 0, fun _ => ""⟩

def ParseError.unplaced (error : ParseError) : ParseError :=
  ⟨0, "", error.cause⟩

namespace AssemblyError

mutual

def unplaced : AssemblyError → AssemblyError
  | .parse error => .parse error.unplaced
  | .resolve error => .resolve (error.relabel .unplaced)
  | .encode _ error => .encode 0 error
  | .multiple errors => .multiple (unplacedAll errors)

def unplacedAll : List AssemblyError → List AssemblyError
  | [] => []
  | error :: errors => error.unplaced :: unplacedAll errors

end

theorem unplacedAll_eq_map (errors : List AssemblyError) : unplacedAll errors = errors.map unplaced := by
  induction errors with
  | nil => rfl
  | cons error rest ih => rw [unplacedAll, ih, List.map_cons]

theorem unplaced_ofList (errors : List AssemblyError) :
    (ofList errors).unplaced = ofList (errors.map unplaced) := by
  match errors with
  | [] => rfl
  | [error] => rfl
  | first :: second :: rest =>
      exact congrArg AssemblyError.multiple (unplacedAll_eq_map (first :: second :: rest))

theorem unplaced_ofList_map {ε : Type} {wrap : ε → AssemblyError} {change : ε → ε}
    (commutes : ∀ error, (wrap error).unplaced = wrap (change error)) (errors : List ε) :
    (ofList (errors.map wrap)).unplaced = ofList ((errors.map change).map wrap) := by
  rw [unplaced_ofList, List.map_map, List.map_map]
  congr 2
  funext error
  exact commutes error

end AssemblyError

def Assembly.unplaced (assembly : Assembly) : Assembly :=
  ⟨assembly.statements.map (Resolved.relabel .unplaced), assembly.words,
    assembly.symbols.map (Symbol.relabel .unplaced)⟩

theorem Instr.relabel_unplaced (instr : Instr) : instr.relabel .unplaced = instr := by
  cases present : instr.imm? with
  | none => exact relabel_of_imm?_none present
  | some imm =>
      have same : imm.relabel .unplaced = imm := by cases imm <;> rfl
      simp only [relabel, present, same]
      exact withImm_self present

theorem Statement.relabel_unplaced (stmt : Statement) : stmt.relabel .unplaced = ⟨stmt.instr, 0, ""⟩ := by
  rw [relabel, Instr.relabel_unplaced]
  rfl

section

variable {α β ε : Type} {f : α → Except ε (List β)} {keep : α → Bool} {inputs : List α}

theorem Reporting.further_filter (reporting : Reporting)
    (empty : ∀ part ∈ inputs, keep part = false → f part = .ok []) :
    reporting.further f (inputs.filter keep) = reporting.further f inputs := by
  cases reporting with
  | first => rfl
  | all =>
      rw [further, further, List.filterMap_map, List.filterMap_map, List.filterMap_filter]
      refine List.filterMap_congr fun part member => ?_
      cases kept : keep part with
      | true => rfl
      | false => rw [Function.comp_apply, empty part member kept]; rfl

theorem Reporting.traverse_filter (reporting : Reporting)
    (empty : ∀ part ∈ inputs, keep part = false → f part = .ok []) :
    (reporting.traverse f (inputs.filter keep)).map List.flatten =
      (reporting.traverse f inputs).map List.flatten := by
  induction inputs with
  | nil => rfl
  | cons part rest ih =>
      obtain ⟨here, later⟩ := List.forall_mem_cons.mp empty
      cases kept : keep part with
      | false =>
          rw [List.filter_cons_of_neg (by simp [kept]), ih later, reporting.traverse_cons_ok (here kept), map_map]
          rfl
      | true =>
          rw [List.filter_cons_of_pos kept]
          cases outcome : f part with
          | ok values =>
              rw [reporting.traverse_cons_ok outcome, reporting.traverse_cons_ok outcome, map_map, map_map]
              have appended := congrArg (Except.map (values ++ ·)) (ih later)
              rwa [map_map, map_map] at appended
          | error error =>
              rw [reporting.traverse_cons_error outcome, reporting.traverse_cons_error outcome,
                reporting.further_filter later]

end

def bareItems (text : List Char) : Except ParseError (List Item) :=
  ((readParts text).map fun parts => lineItems 0 [] parts.1 parts.2).mapError (⟨0, "", ·⟩)

theorem lineItems_unplaced (lineNo : Nat) (line : List Char) (label? : Option String)
    (instr? : Option Instr) :
    (lineItems lineNo line label? instr?).map (Item.relabel .unplaced) =
      lineItems 0 [] label? instr? := by
  rw [lineItems, lineItems, List.map_append]
  congr 1
  · cases label? <;> rfl
  · cases instr? with
    | none => rfl
    | some instr => exact congrArg (fun stmt => [Item.stmt stmt]) (Statement.relabel_unplaced _)

theorem bareItems_eq (line : List Char × Nat) :
    bareItems (lineText line.1) =
      ((parseLineAt line).map (·.map (Item.relabel .unplaced))).mapError ParseError.unplaced := by
  rw [parseLineAt, readLine_eq_map, bareItems]
  cases readParts (lineText line.1) with
  | error cause => rfl
  | ok parts => exact congrArg Except.ok (lineItems_unplaced _ _ _ _).symm

namespace Program

/-- The outcome of parsing, from the items or the bad lines. -/
def ofItems (outcome : Except (List ParseError) (List Item)) : Except AssemblyError Program :=
  (outcome.map Program.mk).mapError fun errors => .ofList (errors.map .parse)

theorem parseWith_eq (reporting : Reporting) (source : String) :
    parseWith reporting source =
      ofItems ((reporting.traverse parseLineAt (sourceLines source)).map List.flatten) := by
  cases reporting with
  | first =>
      rw [parseWith, parse, Reporting.traverse]
      cases (sourceLines source).mapM parseLineAt <;> rfl
  | all =>
      rw [parseWith, parseAll, Reporting.traverse]
      cases collect parseLineAt (sourceLines source) <;> rfl

theorem ofItems_unplaced (outcome : Except (List ParseError) (List Item)) :
    ofItems ((outcome.map (·.map (Item.relabel .unplaced))).mapError (·.map ParseError.unplaced)) =
      ((ofItems outcome).map (Program.relabel .unplaced)).mapError AssemblyError.unplaced := by
  cases outcome with
  | ok items => rfl
  | error errors =>
      have wrapped := @AssemblyError.unplaced_ofList_map _ .parse _ (fun _ => rfl) errors
      exact congrArg Except.error wrapped.symm

theorem traverse_bareItems (reporting : Reporting) (source : String) :
    (reporting.traverse bareItems (meaningfulLines source)).map List.flatten =
      (((reporting.traverse parseLineAt (sourceLines source)).map List.flatten).map
        (·.map (Item.relabel .unplaced))).mapError (·.map ParseError.unplaced) := by
  have blank : ∀ text ∈ (Text.lines source.toList).map lineText,
      (!text.isEmpty) = false → bareItems text = .ok [] := by
    intro text _ empty
    have none : text = [] := by simpa using empty
    rw [none]
    rfl
  have texts : (Text.lines source.toList).map lineText =
      (sourceLines source).map fun line => lineText line.1 := by
    rw [← List.zipIdx_map_fst 0 (Text.lines source.toList), List.map_map]
    rfl
  have whole := @Reporting.traverse_map_eq _ _ _ _ _ _ _ parseLineAt bareItems
    (fun line => lineText line.1) _ (sourceLines source) reporting fun line _ => bareItems_eq line
  rw [meaningfulLines, reporting.traverse_filter blank, texts, whole, map_mapError, map_map, map_map]
  congr 2
  funext parts
  exact List.map_flatten.symm

theorem parseWith_unplaced (reporting : Reporting) (source : String) :
    ofItems ((reporting.traverse bareItems (meaningfulLines source)).map List.flatten) =
      ((parseWith reporting source).map (Program.relabel .unplaced)).mapError AssemblyError.unplaced := by
  rw [traverse_bareItems, ofItems_unplaced, parseWith_eq]

def toAssembly (program : Program) (config : Config) : Except AssemblyError Assembly := do
  let fail (errors : List ResolveError) := AssemblyError.ofList (errors.map .resolve)
  let table ← (program.symbols config.reporting config.origin).mapError fail
  let statements ← (program.substitute config.reporting config.origin table).mapError fail
  let words ← encodeStatements config.reporting statements
  return ⟨statements, words, table.sorted⟩

end Program

theorem assemble_eq_bind (source : String) (config : Config) :
    assemble source config = Program.parseWith config.reporting source >>= (·.toAssembly config) :=
  rfl

theorem encodeStatements_relabel (reporting : Reporting) (statements : List Resolved) :
    encodeStatements reporting (statements.map (Resolved.relabel .unplaced)) =
      (encodeStatements reporting statements).mapError AssemblyError.unplaced := by
  have each : ∀ stmt ∈ statements,
      (encode (stmt.relabel .unplaced).instr).mapError (AssemblyError.encode (stmt.relabel .unplaced).lineNo ·) =
        (((encode stmt.instr).mapError (.encode stmt.lineNo ·)).map id).mapError AssemblyError.unplaced := by
    intro stmt _
    rw [Resolved.relabel]
    cases encode stmt.instr <;> rfl
  rw [encodeStatements, reporting.traverse_map_eq each, encodeStatements]
  cases reporting.traverse (fun stmt : Resolved => (encode stmt.instr).mapError (AssemblyError.encode stmt.lineNo ·))
    statements with
  | ok words => exact congrArg Except.ok (List.map_id words)
  | error errors => exact congrArg Except.error (AssemblyError.unplaced_ofList errors).symm

theorem SymbolTable.Relabels.sorted {table other : SymbolTable} {symbols images : List Symbol}
    (relabels : table.Relabels .unplaced other) (represents : table.Represents symbols)
    (others : other.Represents images) :
    other.sorted = table.sorted.map (Symbol.relabel .unplaced) :=
  -- the order looks at addresses and names, and both are as they were
  represents.sorted_eq_map others relabels (fun _ => rfl) fun _ _ _ _ less => less

theorem Program.toAssembly_unplaced (program : Program) (config : Config) :
    Carries AssemblyError.unplaced (fun assembly image => image = assembly.unplaced)
      (program.toAssembly config) ((program.relabel .unplaced).toAssembly config) := by
  have fails := @AssemblyError.unplaced_ofList_map _ .resolve _ fun _ => rfl
  have tables := @symbols_relabel .unplaced program config.reporting config.origin
  refine (tables.mapError fun errors => (fails errors).symm).bind ?_
  intro table other bound boundOther relabels
  have represents := (of_symbols_eq_ok (mapError_eq_ok_iff.mp bound)).2.2
  have others := (of_symbols_eq_ok (mapError_eq_ok_iff.mp boundOther)).2.2
  have resolved := Carries.of_eq (program.substitute_relabel relabels config.reporting config.origin)
  refine (resolved.mapError fun errors => (fails errors).symm).bind ?_
  intro statements images _ _ same
  subst same
  rw [encodeStatements_relabel]
  cases encodeStatements config.reporting statements with
  | error error => exact .error error
  | ok words => exact .ok (by rw [relabels.sorted represents others]; rfl)

/-- Two outcomes of an assembly that differ in line numbers and the text of lines only. -/
inductive SameApartFromLines : Except AssemblyError Assembly → Except AssemblyError Assembly → Prop
  | ok {left right : Assembly} (words : left.words = right.words)
      (statements : left.statements.map (fun stmt => (stmt.address, stmt.instr)) =
        right.statements.map fun stmt => (stmt.address, stmt.instr))
      (symbols : left.symbols.map (fun symbol => (symbol.name, symbol.address)) =
        right.symbols.map fun symbol => (symbol.name, symbol.address)) :
      SameApartFromLines (.ok left) (.ok right)
  | error {left right : AssemblyError} (same : left.unplaced = right.unplaced) :
      SameApartFromLines (.error left) (.error right)

theorem SameApartFromLines.of_unplaced {left right : Assembly} (same : left.unplaced = right.unplaced) :
    SameApartFromLines (.ok left) (.ok right) := by
  have words := congrArg Assembly.words same
  have statements := congrArg (·.statements.map fun stmt => (stmt.address, stmt.instr)) same
  have symbols := congrArg (·.symbols.map fun symbol => (symbol.name, symbol.address)) same
  simp only [Assembly.unplaced, List.map_map] at statements symbols
  exact .ok words statements symbols

theorem SameApartFromLines.of_carries {left right image : Except AssemblyError Assembly}
    (first : Carries AssemblyError.unplaced (fun assembly image => image = assembly.unplaced) left image)
    (second : Carries AssemblyError.unplaced (fun assembly image => image = assembly.unplaced) right image) :
    SameApartFromLines left right := by
  cases first with
  | ok holds =>
      cases second with
      | ok again => exact .of_unplaced (holds.symm.trans again)
  | error error =>
      generalize reached : Except.error error.unplaced = image at second
      cases second with
      | ok => cases reached
      | error other => exact .error (Except.error.inj reached)

theorem assemble_of_meaningfulLines {other : String} (config : Config)
    (same : meaningfulLines source = meaningfulLines other) :
    SameApartFromLines (assemble source config) (assemble other config) := by
  have run (source : String) := (Carries.of_eq (Program.parseWith_unplaced config.reporting source)).bind
    fun program image _ _ relabelled => relabelled ▸ program.toAssembly_unplaced config
  -- both sources are carried to the one program that their texts make
  have left := run source
  rw [same] at left
  rw [assemble_eq_bind, assemble_eq_bind]
  exact .of_carries left (run other)

/-- Comments, blanks around lines and empty lines carry no meaning: a source and its normal form
assemble alike. -/
theorem assemble_ignores_layout (source : String) :
    NormalForm source (normalize source) ∧
      ∀ config, SameApartFromLines (assemble source config) (assemble (normalize source) config) :=
  ⟨normalForm_normalize source,
    fun config => assemble_of_meaningfulLines config (meaningfulLines_normalize source).symm⟩

end Asm16
