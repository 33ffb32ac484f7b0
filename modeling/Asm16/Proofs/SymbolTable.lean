import Mathlib.Data.List.Nodup
import Mathlib.Data.List.Sort
import Asm16.Symbol
import Asm16.Proofs.Reporting

namespace Asm16

namespace Symbol

theorem order_self (symbol : Symbol) : order symbol symbol = .eq :=
  Std.ReflCmp.compare_self

theorem order_eq_lt_iff {left right : Symbol} :
    order left right = .lt ↔ left.address < right.address ∨
      left.address = right.address ∧ left.name < right.name := by
  have names : compare left.name right.name = .lt ↔ left.name < right.name := compareOfLessAndEq_eq_lt
  simp only [order, compareLex, compareOn, Ordering.then_eq_lt, Std.compare_eq_lt,
    Std.LawfulEqCmp.compare_eq_iff_eq, names]

theorem name_eq_of_order {left right : Symbol} (same : order left right = .eq) : left.name = right.name := by
  simp only [order, compareLex, compareOn, Ordering.then_eq_eq, Std.LawfulEqCmp.compare_eq_iff_eq] at same
  exact same.2

theorem ne_of_order {left right : Symbol} (less : order left right = .lt) : left ≠ right := by
  rintro rfl
  rw [order_self] at less
  cases less

theorem eq_of_ordered {left right : List Symbol} (leftOrdered : left.Pairwise (order · · = .lt))
    (rightOrdered : right.Pairwise (order · · = .lt)) (same : ∀ symbol, symbol ∈ left ↔ symbol ∈ right) :
    left = right := by
  have asymmetric : Std.Antisymm (order · · = .lt) := ⟨fun left right less greater => by
    have flipped : order left right = .gt := Std.OrientedCmp.gt_of_lt greater
    rw [less] at flipped
    cases flipped⟩
  have irreflexive : Std.Irrefl (order · · = .lt) := ⟨fun symbol less => ne_of_order less rfl⟩
  exact List.Pairwise.eq_of_mem_iff leftOrdered rightOrdered same

end Symbol

namespace SymbolTable

variable {table next : SymbolTable} {seen symbols : List Symbol} {symbol : Symbol}
  {duplicate : DuplicateLabel}

/-- The table answers with the first definition of each name. -/
def Represents (table : SymbolTable) (symbols : List Symbol) : Prop :=
  ∀ name, table.lookup? name = symbols.find? (·.name = name)

theorem empty_represents : empty.Represents [] := by
  intro name
  simp [lookup?, empty]

theorem find?_eq_none_iff {name : String} :
    symbols.find? (·.name = name) = none ↔ name ∉ symbols.map Symbol.name := by
  simp [List.find?_eq_none]

theorem name_of_find? {name : String} (found : symbols.find? (·.name = name) = some symbol) :
    symbol.name = name := by
  simpa using List.find?_some found

/-- What one definition does: a new name is bound, and a second definition changes nothing. -/
theorem Represents.define_cases (represents : table.Represents seen) (symbol : Symbol) :
    (symbol.name ∉ seen.map Symbol.name ∧
      ∃ next, table.define symbol = .ok next ∧ next.Represents (seen ++ [symbol])) ∨
    (∃ first, seen.find? (·.name = symbol.name) = some first ∧
      table.define symbol = .error ⟨symbol.name, symbol.lineNo, first.lineNo⟩ ∧
      table.Represents (seen ++ [symbol])) := by
  cases found : seen.find? (·.name = symbol.name) with
  | none =>
      refine .inl ⟨find?_eq_none_iff.mp found, ⟨table.byName.insert symbol.name symbol⟩, ?_, ?_⟩
      · rw [define, represents symbol.name, found]
      · intro name
        by_cases same : symbol.name = name
        · subst same
          simp [lookup?, List.find?_append, found]
        · have old := represents name
          simp only [lookup?] at old
          simp [lookup?, Std.TreeMap.getElem?_insert, same, old, List.find?_append]
  | some first =>
      refine .inr ⟨first, rfl, ?_, ?_⟩
      · rw [define, represents symbol.name, found]
      · intro name
        rw [represents name, List.find?_append]
        by_cases same : symbol.name = name
        · subst same
          rw [found, Option.some_or]
        · simp [same]

theorem nodup_names_concat_iff :
    ((seen ++ [symbol]).map Symbol.name).Nodup ↔
      (seen.map Symbol.name).Nodup ∧ symbol.name ∉ seen.map Symbol.name := by
  rw [List.map_append, List.map_singleton, ← List.concat_eq_append, List.nodup_concat, and_comm]

theorem Represents.of_defineEach (represents : table.Represents seen)
    (distinct : (seen.map Symbol.name).Nodup) (defined : table.defineEach symbols = .ok next) :
    next.Represents (seen ++ symbols) ∧ ((seen ++ symbols).map Symbol.name).Nodup := by
  induction symbols generalizing table seen with
  | nil =>
      cases defined
      simpa using ⟨represents, distinct⟩
  | cons symbol rest ih =>
      rw [defineEach, List.foldlM_cons, bind_eq_ok_iff] at defined
      obtain ⟨middle, first, later⟩ := defined
      rcases represents.define_cases symbol with ⟨fresh, other, same, extended⟩ | ⟨_, _, failed, _⟩
      · rw [first] at same
        cases same
        have final := ih extended (nodup_names_concat_iff.mpr ⟨distinct, fresh⟩) later
        rwa [List.append_assoc, List.singleton_append] at final
      · rw [first] at failed
        cases failed

theorem Represents.defineEach_exists (represents : table.Represents seen)
    (distinct : ((seen ++ symbols).map Symbol.name).Nodup) :
    ∃ next, table.defineEach symbols = .ok next ∧ next.Represents (seen ++ symbols) := by
  induction symbols generalizing table seen with
  | nil => exact ⟨table, rfl, by simpa using represents⟩
  | cons symbol rest ih =>
      rw [← List.singleton_append, ← List.append_assoc] at distinct
      rcases represents.define_cases symbol with ⟨_, middle, first, extended⟩ | ⟨old, found, _, _⟩
      · obtain ⟨next, later, final⟩ := ih extended distinct
        rw [List.append_assoc, List.singleton_append] at final
        exact ⟨next, bind_eq_ok_iff.mpr ⟨middle, first, later⟩, final⟩
      · have kept := (List.nodup_append.mp (List.map_append ▸ distinct)).1
        rw [find?_eq_none_iff.mpr (nodup_names_concat_iff.mp kept).2] at found
        cases found

theorem Represents.of_defineEach_error (represents : table.Represents seen)
    (distinct : (seen.map Symbol.name).Nodup) (failed : table.defineEach symbols = .error duplicate) :
    ∃ before symbol after first, symbols = before ++ symbol :: after ∧
      ((seen ++ before).map Symbol.name).Nodup ∧
      (seen ++ before).find? (·.name = symbol.name) = some first ∧
      duplicate = ⟨symbol.name, symbol.lineNo, first.lineNo⟩ := by
  induction symbols generalizing table seen with
  | nil => cases failed
  | cons symbol rest ih =>
      rw [defineEach, List.foldlM_cons, bind_eq_error_iff] at failed
      rcases represents.define_cases symbol with ⟨fresh, next, defined, extended⟩ | ⟨first, found, refused, _⟩
      · rw [defined] at failed
        obtain ⟨middle, same, later⟩ := failed.resolve_left (by simp)
        cases same
        obtain ⟨before, culprit, after, first, split, kept, found, reported⟩ :=
          ih extended (nodup_names_concat_iff.mpr ⟨distinct, fresh⟩) later
        rw [List.append_assoc, List.singleton_append] at kept found
        exact ⟨symbol :: before, culprit, after, first, by rw [split]; rfl, kept, found, reported⟩
      · rw [refused] at failed
        refine ⟨[], symbol, rest, first, rfl, by simpa using distinct, by simpa using found, ?_⟩
        rcases failed with same | ⟨_, impossible, _⟩
        · exact (Except.error.inj same).symm
        · cases impossible

theorem defineEach_ok_iff :
    (∃ next, empty.defineEach symbols = .ok next) ↔ (symbols.map Symbol.name).Nodup := by
  constructor
  · intro ⟨next, defined⟩
    exact (empty_represents.of_defineEach .nil defined).2
  · intro distinct
    obtain ⟨next, defined, _⟩ := empty_represents.defineEach_exists distinct
    exact ⟨next, defined⟩

theorem defineEach_error_iff :
    empty.defineEach symbols = .error duplicate ↔
      ∃ before symbol after first, symbols = before ++ symbol :: after ∧
        (before.map Symbol.name).Nodup ∧ before.find? (·.name = symbol.name) = some first ∧
        duplicate = ⟨symbol.name, symbol.lineNo, first.lineNo⟩ := by
  constructor
  · exact empty_represents.of_defineEach_error .nil
  · intro ⟨before, symbol, after, first, split, distinct, found, reported⟩
    obtain ⟨middle, defined, represents⟩ := empty_represents.defineEach_exists distinct
    subst split reported
    rw [defineEach, List.foldlM_append]
    refine bind_eq_error_iff.mpr (.inr ⟨middle, defined, ?_⟩)
    rcases represents.define_cases symbol with ⟨fresh, _⟩ | ⟨other, same, failed, _⟩
    · rw [List.nil_append] at fresh
      rw [find?_eq_none_iff.mpr fresh] at found
      cases found
    · rw [List.nil_append, found] at same
      cases same
      exact bind_eq_error_iff.mpr (.inl failed)

theorem Represents.foldl_defineNoting {noted : List DuplicateLabel} (represents : table.Represents seen)
    (distinct : noted = [] → (seen.map Symbol.name).Nodup) :
    (symbols.foldl defineNoting (table, noted)).1.Represents (seen ++ symbols) ∧
      ((symbols.foldl defineNoting (table, noted)).2 = [] →
        ((seen ++ symbols).map Symbol.name).Nodup) := by
  induction symbols generalizing table noted seen with
  | nil => simpa using ⟨represents, distinct⟩
  | cons symbol rest ih =>
      rw [List.foldl_cons, ← List.singleton_append, ← List.append_assoc]
      rcases represents.define_cases symbol with ⟨fresh, next, defined, extended⟩ | ⟨_, _, failed, same⟩
      · rw [defineNoting, defined]
        exact ih extended fun none => nodup_names_concat_iff.mpr ⟨distinct none, fresh⟩
      · rw [defineNoting, failed]
        exact ih same fun impossible => by cases impossible

theorem represents_of_defineAll (defined : empty.defineAll symbols = .ok next) :
    next.Represents symbols ∧ (symbols.map Symbol.name).Nodup := by
  have run : (symbols.foldl defineNoting (empty, [])).1.Represents symbols ∧
      ((symbols.foldl defineNoting (empty, [])).2 = [] → (symbols.map Symbol.name).Nodup) :=
    empty_represents.foldl_defineNoting fun _ => .nil
  simp only [defineAll] at defined
  split at defined
  · rename_i clean
    cases defined
    exact ⟨run.1, run.2 (List.isEmpty_iff.mp clean)⟩
  · cases defined

theorem toList_foldl_insert_perm {α : Type} {order : α → α → Ordering} [Std.TransCmp order]
    {items : List α} {tree : Std.TreeSet α order}
    (apart : items.Pairwise fun left right => order left right ≠ .eq) (fresh : ∀ item ∈ items, item ∉ tree) :
    (items.foldl (fun tree item => tree.insert item) tree).toList.Perm (items ++ tree.toList) := by
  let equality : BEq α := ⟨fun left right => order left right == .eq⟩
  have lawful : Std.LawfulBEqCmp order := ⟨beq_iff_eq.symm⟩
  induction items generalizing tree with
  | nil => exact .refl _
  | cons item rest ih =>
      obtain ⟨different, later⟩ := List.pairwise_cons.mp apart
      have absent : ∀ other ∈ rest, other ∉ tree.insert item := by
        intro other member present
        rcases Std.TreeSet.mem_insert.mp present with same | earlier
        · exact different other member same
        · exact fresh other (List.mem_cons_of_mem item member) earlier
      have inserted : (tree.insert item).toList.Perm (item :: tree.toList) := by
        have grown := @Std.TreeSet.toList_insert_perm α order tree equality _ lawful item
        rwa [if_neg (fresh item List.mem_cons_self)] at grown
      exact ((ih later absent).trans (inserted.append_left rest)).trans List.perm_middle

theorem values_eq_map_toList (table : SymbolTable) :
    table.byName.values = table.byName.toList.map Prod.snd := by
  have folded : table.byName.values = table.byName.foldr (fun _ symbol rest => symbol :: rest) [] := rfl
  rw [folded, Std.TreeMap.foldr_eq_foldr_toList, List.foldr_cons_eq_append, List.append_nil]

theorem mem_toList_iff {name : String} :
    (name, symbol) ∈ table.byName.toList ↔ table.lookup? name = some symbol :=
  Std.TreeMap.mem_toList_iff_getElem?_eq_some

theorem Represents.sorted_perm (represents : table.Represents symbols) :
    table.sorted.Perm (table.byName.toList.map Prod.snd) := by
  rw [sorted, values_eq_map_toList, Std.TreeSet.ofList_equiv_foldl.toList_eq]
  have apart : (table.byName.toList.map Prod.snd).Pairwise fun left right => Symbol.order left right ≠ .eq := by
    refine List.pairwise_map.mpr (Std.TreeMap.distinct_keys_toList.imp_of_mem ?_)
    intro left right leftMember rightMember different same
    rw [mem_toList_iff, represents] at leftMember rightMember
    have names := Symbol.name_eq_of_order same
    rw [name_of_find? leftMember, name_of_find? rightMember] at names
    exact different (Std.LawfulEqCmp.compare_eq_iff_eq.mpr names)
  have none : (∅ : Std.TreeSet Symbol Symbol.order).toList = [] := rfl
  have all := @toList_foldl_insert_perm _ _ _ _ ∅ apart fun _ _ => Std.TreeSet.not_mem_emptyc
  rwa [none, List.append_nil] at all

theorem Represents.mem_sorted_iff (represents : table.Represents symbols) :
    symbol ∈ table.sorted ↔ table.lookup? symbol.name = some symbol := by
  rw [represents.sorted_perm.mem_iff, List.mem_map]
  refine ⟨?_, ?_⟩
  · rintro ⟨⟨name, other⟩, member, rfl⟩
    have found := mem_toList_iff.mp member
    rwa [name_of_find? (represents name ▸ found)]
  · intro found
    exact ⟨(symbol.name, symbol), mem_toList_iff.mpr found, rfl⟩

theorem sorted_pairwise (table : SymbolTable) :
    table.sorted.Pairwise fun left right => Symbol.order left right = .lt :=
  Std.TreeSet.ordered_toList

theorem Represents.sorted_eq_map {other : SymbolTable} {images : List Symbol} {change : Symbol → Symbol}
    (represents : table.Represents symbols) (others : other.Represents images)
    (answers : ∀ name, other.lookup? name = (table.lookup? name).map change)
    (names : ∀ symbol, (change symbol).name = symbol.name)
    (ordered : ∀ left ∈ table.sorted, ∀ right ∈ table.sorted,
      Symbol.order left right = .lt → Symbol.order (change left) (change right) = .lt) :
    other.sorted = table.sorted.map change := by
  have images : (table.sorted.map change).Pairwise (Symbol.order · · = .lt) :=
    List.pairwise_map.mpr (table.sorted_pairwise.imp_of_mem fun left right => ordered _ left _ right)
  refine Symbol.eq_of_ordered other.sorted_pairwise images fun image => ?_
  rw [others.mem_sorted_iff, answers, Option.map_eq_some_iff, List.mem_map]
  refine ⟨?_, ?_⟩
  · intro ⟨symbol, found, changed⟩
    have same : symbol.name = image.name := by rw [← changed, names]
    exact ⟨symbol, represents.mem_sorted_iff.mpr (same ▸ found), changed⟩
  · intro ⟨symbol, member, changed⟩
    have same : symbol.name = image.name := by rw [← changed, names]
    exact ⟨symbol, same ▸ represents.mem_sorted_iff.mp member, changed⟩

end SymbolTable

end Asm16
