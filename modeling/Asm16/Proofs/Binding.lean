import Asm16.Resolve
import Asm16.Proofs.SymbolTable

namespace Asm16

def Item.label? : Item → Option String
  | .label name _ => some name
  | .stmt _ => none

namespace Program

def definedNames (program : Program) : List String :=
  program.items.filterMap Item.label?

/-- The program is `before`, then a definition of `name`, then `after`. -/
def Splits (program before : Program) (name : String) (lineNo : Nat) (after : Program) : Prop :=
  program.items = before.items ++ .label name lineNo :: after.items

/-- The name has one definition, and the instructions before it lead to the address. -/
def Binds (program : Program) (origin : Word) (name : String) (address : Nat) : Prop :=
  ∃ before lineNo after, program.Splits before name lineNo after ∧
    name ∉ before.definedNames ∧ name ∉ after.definedNames ∧
    address = origin.toNat + before.size

@[simp] theorem size_nil : size ⟨[]⟩ = 0 := rfl

@[simp] theorem size_label_cons (name : String) (lineNo : Nat) (items : List Item) :
    size ⟨.label name lineNo :: items⟩ = size ⟨items⟩ := rfl

@[simp] theorem size_stmt_cons (stmt : Statement) (items : List Item) :
    size ⟨.stmt stmt :: items⟩ = size ⟨items⟩ + 1 := rfl

variable {program before after : Program} {origin : Word} {name : String} {lineNo : Nat}

theorem Splits.definedNames (splits : program.Splits before name lineNo after) :
    program.definedNames = before.definedNames ++ name :: after.definedNames := by
  rw [Program.definedNames, splits, List.filterMap_append]
  rfl

theorem Splits.size (splits : program.Splits before name lineNo after) :
    program.size = before.size + after.size := by
  rw [Program.size, statements, splits, List.filterMap_append, List.length_append]
  rfl

theorem exists_binds (distinct : program.definedNames.Nodup) (defined : name ∈ program.definedNames) :
    ∃ address, program.Binds origin name address := by
  obtain ⟨item, member, isLabel⟩ := List.mem_filterMap.mp defined
  obtain ⟨front, back, split⟩ := List.append_of_mem member
  cases item with
  | stmt => cases isLabel
  | label other lineNo =>
      cases isLabel
      have splits : program.Splits ⟨front⟩ name lineNo ⟨back⟩ := split
      rw [splits.definedNames, List.nodup_middle, List.nodup_cons, List.mem_append, not_or] at distinct
      exact ⟨_, ⟨front⟩, lineNo, ⟨back⟩, splits, distinct.1.1, distinct.1.2, rfl⟩

theorem Splits.items_eq_takeWhile (splits : program.Splits before name lineNo after)
    (fresh : name ∉ before.definedNames) :
    before.items = program.items.takeWhile fun item => item.label? ≠ some name := by
  have passed : ∀ item ∈ before.items, decide (item.label? ≠ some name) = true := by
    intro item member
    refine decide_eq_true fun isLabel => fresh ?_
    exact List.mem_filterMap.mpr ⟨item, member, isLabel⟩
  rw [splits, List.takeWhile_append_of_pos passed]
  simp [Item.label?]

theorem Binds.unique {left right : Nat} (leftBinds : program.Binds origin name left)
    (rightBinds : program.Binds origin name right) : left = right := by
  obtain ⟨leftFront, _, _, leftSplits, leftFresh, _, leftPlace⟩ := leftBinds
  obtain ⟨rightFront, _, _, rightSplits, rightFresh, _, rightPlace⟩ := rightBinds
  have same : leftFront.items = rightFront.items := by
    rw [leftSplits.items_eq_takeWhile leftFresh, rightSplits.items_eq_takeWhile rightFresh]
  rw [leftPlace, rightPlace, Program.size, Program.size, statements, statements, same]

end Program

def symbolsFrom (address : Word) : List Item → List Symbol
  | [] => []
  | .label name lineNo :: rest => ⟨name, address, lineNo⟩ :: symbolsFrom address rest
  | .stmt _ :: rest => symbolsFrom (address + 1) rest

theorem foldl_bindItem (items : List Item) (address : Word) (bound : List Symbol) :
    (items.foldl bindItem (address, bound)).2.reverse = bound.reverse ++ symbolsFrom address items := by
  induction items generalizing address bound with
  | nil => simp [symbolsFrom]
  | cons item rest ih =>
      cases item with
      | label name lineNo => simp [bindItem, symbolsFrom, ih]
      | stmt stmt => simp [bindItem, symbolsFrom, ih]

theorem symbolsFrom_append (address : Word) (front back : List Item) :
    symbolsFrom address (front ++ back) =
      symbolsFrom address front ++ symbolsFrom (address + UInt16.ofNat (Program.size ⟨front⟩)) back := by
  induction front generalizing address with
  | nil => simp [symbolsFrom]
  | cons item rest ih =>
      cases item with
      | label name lineNo => simp [symbolsFrom, ih]
      | stmt stmt => simp [symbolsFrom, ih, UInt16.ofNat_add, UInt16.add_assoc, UInt16.add_comm 1]

theorem symbolsFrom_eq_append_cons {address : Word} {items : List Item} {front back : List Symbol}
    {symbol : Symbol} (split : symbolsFrom address items = front ++ symbol :: back) :
    ∃ before after : Program,
      items = before.items ++ .label symbol.name symbol.lineNo :: after.items ∧
      symbolsFrom address before.items = front ∧
      symbol.address = address + UInt16.ofNat before.size := by
  induction items generalizing address front with
  | nil => simp [symbolsFrom] at split
  | cons item rest ih =>
      cases item with
      | label name lineNo =>
          cases front with
          | nil =>
              cases split
              exact ⟨⟨[]⟩, ⟨rest⟩, rfl, rfl, by simp⟩
          | cons head tail =>
              obtain ⟨same, later⟩ := List.cons.inj split
              obtain ⟨before, after, found, labels, place⟩ := ih later
              subst same
              refine ⟨⟨.label name lineNo :: before.items⟩, after, by rw [found]; rfl, ?_, ?_⟩
              · rw [symbolsFrom, labels]
              · exact place
      | stmt stmt =>
          obtain ⟨before, after, found, labels, place⟩ := ih split
          refine ⟨⟨.stmt stmt :: before.items⟩, after, by rw [found]; rfl, labels, ?_⟩
          rw [place]
          simp [UInt16.ofNat_add, UInt16.add_assoc, UInt16.add_comm 1]

namespace Program

variable {program before after : Program} {origin : Word} {name : String} {lineNo : Nat}
  {symbol : Symbol} {table : SymbolTable}

theorem labels_eq_symbolsFrom (program : Program) (origin : Word) :
    program.labels origin = symbolsFrom origin program.items := by
  rw [labels, foldl_bindItem]
  rfl

theorem map_name_labels (program : Program) (origin : Word) :
    (program.labels origin).map Symbol.name = program.definedNames := by
  rw [labels_eq_symbolsFrom, definedNames]
  induction program.items generalizing origin with
  | nil => rfl
  | cons item rest ih =>
      cases item with
      | label name lineNo => rw [symbolsFrom, List.map_cons, ih]; rfl
      | stmt stmt => rw [symbolsFrom, ih]; rfl

theorem Splits.labels (splits : program.Splits before name lineNo after) (origin : Word) :
    program.labels origin =
      before.labels origin ++ ⟨name, origin + UInt16.ofNat before.size, lineNo⟩ ::
        symbolsFrom (origin + UInt16.ofNat before.size) after.items := by
  rw [labels_eq_symbolsFrom, splits, symbolsFrom_append, labels_eq_symbolsFrom]
  rfl

theorem find?_labels_eq_some_iff :
    (program.labels origin).find? (·.name = name) = some symbol ↔
      ∃ before lineNo after, program.Splits before name lineNo after ∧ name ∉ before.definedNames ∧
        symbol = ⟨name, origin + UInt16.ofNat before.size, lineNo⟩ := by
  constructor
  · intro found
    have same := SymbolTable.name_of_find? found
    obtain ⟨_, front, back, split, fresh⟩ := List.find?_eq_some_iff_append.mp found
    rw [labels_eq_symbolsFrom] at split
    obtain ⟨before, after, items, labels, place⟩ := symbolsFrom_eq_append_cons split
    subst same
    refine ⟨before, symbol.lineNo, after, items, ?_, by rw [← place]⟩
    rw [← map_name_labels before origin, labels_eq_symbolsFrom, labels]
    simpa using fresh
  · intro ⟨before, lineNo, after, splits, fresh, described⟩
    rw [← map_name_labels before origin, ← SymbolTable.find?_eq_none_iff] at fresh
    rw [splits.labels origin, List.find?_append, fresh, described]
    simp

theorem defineEach_labels_eq_error_iff {duplicate : DuplicateLabel} :
    SymbolTable.empty.defineEach (program.labels origin) = .error duplicate ↔
      ∃ before after head tail name lineNo firstLineNo,
        program.Splits before name lineNo after ∧ before.definedNames.Nodup ∧
        before.Splits head name firstLineNo tail ∧ duplicate = ⟨name, lineNo, firstLineNo⟩ := by
  rw [SymbolTable.defineEach_error_iff]
  constructor
  · intro ⟨front, symbol, back, first, split, distinct, found, reported⟩
    rw [labels_eq_symbolsFrom] at split
    obtain ⟨before, after, splits, labels, _⟩ := symbolsFrom_eq_append_cons split
    rw [← labels_eq_symbolsFrom] at labels
    subst labels
    rw [map_name_labels] at distinct
    obtain ⟨head, firstLineNo, tail, earlier, _, described⟩ := find?_labels_eq_some_iff.mp found
    subst described
    exact ⟨before, after, head, tail, symbol.name, symbol.lineNo, firstLineNo, splits, distinct,
      earlier, reported⟩
  · intro ⟨before, after, head, tail, name, lineNo, firstLineNo, splits, distinct, earlier, reported⟩
    have fresh : name ∉ head.definedNames := by
      rw [earlier.definedNames, List.nodup_middle, List.nodup_cons] at distinct
      exact fun member => distinct.1 (List.mem_append_left _ member)
    have found := (@find?_labels_eq_some_iff before origin name _).mpr
      ⟨head, firstLineNo, tail, earlier, fresh, rfl⟩
    refine ⟨_, _, _, _, splits.labels origin, ?_, found, reported⟩
    rwa [map_name_labels]

theorem toNat_origin_add {index : Nat} (small : origin.toNat + index < addressSpace) :
    (origin + UInt16.ofNat index).toNat = origin.toNat + index := by
  have bound : index < 2 ^ 16 := by unfold addressSpace at small; omega
  rw [UInt16.toNat_add, UInt16.toNat_ofNat', Nat.mod_eq_of_lt bound]
  exact Nat.mod_eq_of_lt small

theorem lookup?_eq_none_iff (represents : table.Represents (program.labels origin)) :
    table.lookup? name = none ↔ name ∉ program.definedNames := by
  rw [represents name, SymbolTable.find?_eq_none_iff, map_name_labels]

theorem lookup?_iff_binds {address : Nat} (represents : table.Represents (program.labels origin))
    (distinct : program.definedNames.Nodup) (small : origin.toNat + program.size < addressSpace) :
    (∃ symbol, table.lookup? name = some symbol ∧ symbol.address.toNat = address) ↔
      program.Binds origin name address := by
  simp only [represents name, find?_labels_eq_some_iff]
  constructor
  · intro ⟨symbol, ⟨before, lineNo, after, splits, fresh, described⟩, place⟩
    have room : origin.toNat + before.size < addressSpace := by rw [splits.size] at small; omega
    rw [splits.definedNames] at distinct
    refine ⟨before, lineNo, after, splits, fresh, ?_, ?_⟩
    · exact (List.nodup_cons.mp (List.nodup_append.mp distinct).2.1).1
    · rw [← place, described, toNat_origin_add room]
  · intro ⟨before, lineNo, after, splits, fresh, _, place⟩
    have room : origin.toNat + before.size < addressSpace := by rw [splits.size] at small; omega
    refine ⟨_, ⟨before, lineNo, after, splits, fresh, rfl⟩, ?_⟩
    rw [place]
    exact toNat_origin_add room

end Program

end Asm16
