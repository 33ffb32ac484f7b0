import Mathlib.Data.Finset.Card
import Asm16.Proofs.SymbolTable

namespace Asm16.SymbolTable

variable {table other : SymbolTable} {symbols others listed : List Symbol} {symbol first : Symbol}
  {name : String}

/-- The symbol is the table's answer to some name. -/
def Bound (table : SymbolTable) (symbol : Symbol) : Prop :=
  ∃ name, table.lookup? name = some symbol

namespace Represents

theorem bound_iff_mem_sorted (represents : table.Represents symbols) :
    table.Bound symbol ↔ symbol ∈ table.sorted := by
  rw [represents.mem_sorted_iff]
  refine ⟨?_, fun found => ⟨symbol.name, found⟩⟩
  rintro ⟨name, found⟩
  rwa [name_of_find? (represents name ▸ found)]

theorem mem_keys_iff (represents : table.Represents symbols) :
    name ∈ table.byName.keys ↔ name ∈ symbols.map Symbol.name := by
  have answer : table.byName[name]? = symbols.find? (·.name = name) := represents name
  rw [Std.TreeMap.mem_keys, Std.TreeMap.mem_iff_isSome_getElem?, answer, Option.isSome_iff_ne_none,
    Ne, find?_eq_none_iff, not_not]

theorem size_eq_card (represents : table.Represents symbols) :
    table.size = (symbols.map Symbol.name).toFinset.card := by
  have distinct : table.byName.keys.Nodup :=
    Std.TreeMap.distinct_keys.imp fun different same =>
      different (Std.LawfulEqCmp.compare_eq_iff_eq.mpr same)
  have names : (symbols.map Symbol.name).toFinset = table.byName.keys.toFinset := by
    ext name
    rw [List.mem_toFinset, List.mem_toFinset, represents.mem_keys_iff]
  rw [names, List.toFinset_card_of_nodup distinct, Std.TreeMap.length_keys, size]

theorem sorted_eq_iff (represents : table.Represents symbols) (representsOther : other.Represents others) :
    other.sorted = table.sorted ↔ ∀ symbol, other.Bound symbol ↔ table.Bound symbol := by
  simp only [represents.bound_iff_mem_sorted, representsOther.bound_iff_mem_sorted]
  refine ⟨fun same symbol => by rw [same], fun same => ?_⟩
  exact Symbol.eq_of_ordered other.sorted_pairwise table.sorted_pairwise same

theorem eq_of_order (represents : table.Represents symbols) (boundFirst : first ∈ table.sorted)
    (bound : symbol ∈ table.sorted) (same : Symbol.order first symbol = .eq) : first = symbol := by
  rw [represents.mem_sorted_iff] at boundFirst bound
  rw [Symbol.name_eq_of_order same, bound] at boundFirst
  exact (Option.some.inj boundFirst).symm

theorem mergeSort_eq_sorted (represents : table.Represents symbols) (all : listed.Perm table.sorted) :
    listed.mergeSort (fun left right => (Symbol.order left right).isLE) = table.sorted := by
  have perm := (List.mergeSort_perm listed fun left right => (Symbol.order left right).isLE).trans all
  have ordered : table.sorted.Pairwise fun left right => (Symbol.order left right).isLE :=
    table.sorted_pairwise.imp fun less => by rw [less]; rfl
  refine List.Perm.eq_of_pairwise ?_ (List.pairwise_mergeSort ?_ ?_ listed) ordered perm
  · intro left right leftMember rightMember atMost atLeast
    have same : Symbol.order left right = .eq := Std.OrientedCmp.isLE_antisymm atMost atLeast
    exact represents.eq_of_order (perm.mem_iff.mp leftMember) rightMember same
  · exact fun _ _ _ => Std.TransCmp.isLE_trans
  · intro left right
    rw [@Std.OrientedCmp.eq_swap _ Symbol.order _ right left]
    cases Symbol.order left right <;> rfl

end Represents

/-- The table after a sequence of definitions, some of them refused. -/
def session (symbols : List Symbol) : SymbolTable :=
  (symbols.foldl defineNoting (empty, [])).1

theorem session_represents (symbols : List Symbol) : (session symbols).Represents symbols :=
  (empty_represents.foldl_defineNoting fun _ => .nil).1

theorem session_concat (symbols : List Symbol) (symbol : Symbol) :
    session (symbols ++ [symbol]) =
      match (session symbols).define symbol with
      | .ok next => next
      | .error _ => session symbols := by
  simp only [session, List.foldl_append, List.foldl_cons, List.foldl_nil, defineNoting]
  cases (symbols.foldl defineNoting (empty, [])).1.define symbol with
  | ok next => rfl
  | error duplicate => rfl

theorem define_session_of_new (new : symbol.name ∉ symbols.map Symbol.name) :
    (session symbols).define symbol = .ok (session (symbols ++ [symbol])) := by
  rw [session_concat]
  rcases (session_represents symbols).define_cases symbol with ⟨_, next, defined, _⟩ | ⟨first, found, _, _⟩
  · rw [defined]
  · rw [find?_eq_none_iff.mpr new] at found
    cases found

theorem define_session_of_known (known : symbols.find? (·.name = symbol.name) = some first) :
    (session symbols).define symbol = .error ⟨symbol.name, symbol.lineNo, first.lineNo⟩ ∧
      session (symbols ++ [symbol]) = session symbols := by
  rw [session_concat]
  rcases (session_represents symbols).define_cases symbol with ⟨new, _⟩ | ⟨_, found, refused, _⟩
  · rw [find?_eq_none_iff.mpr new] at known
    cases known
  · cases known.symm.trans found
    rw [refused]
    exact ⟨rfl, rfl⟩

/-- After any sequence of definitions the first one of each name counts. A new name is accepted, a
known one is refused with the line of its first definition and changes nothing. The symbols are
reported once each, by address and then by name, and the report depends on nothing but which they are. -/
theorem session_binds_first (symbols : List Symbol) :
    let table := session symbols
    (∀ name, table.lookup? name = symbols.find? (·.name = name)) ∧
    (∀ symbol : Symbol, symbol.name ∉ symbols.map Symbol.name →
      table.define symbol = .ok (session (symbols ++ [symbol]))) ∧
    (∀ symbol first : Symbol, symbols.find? (·.name = symbol.name) = some first →
      table.define symbol = .error ⟨symbol.name, symbol.lineNo, first.lineNo⟩ ∧
        session (symbols ++ [symbol]) = table) ∧
    table.size = (symbols.map Symbol.name).toFinset.card ∧
    (∀ symbol, symbol ∈ table.sorted ↔ table.Bound symbol) ∧ table.sorted.Nodup ∧
    (table.sorted.Pairwise fun left right =>
      left.address < right.address ∨ left.address = right.address ∧ left.name < right.name) ∧
    (∀ listed : List Symbol, listed.Nodup → (∀ symbol, symbol ∈ listed ↔ table.Bound symbol) →
      listed.mergeSort (fun left right => (Symbol.order left right).isLE) = table.sorted) ∧
    ∀ others, (session others).sorted = table.sorted ↔
      ∀ symbol, (session others).Bound symbol ↔ table.Bound symbol := by
  intro table
  have represents : table.Represents symbols := session_represents symbols
  have once : table.sorted.Nodup := table.sorted_pairwise.imp Symbol.ne_of_order
  refine ⟨represents, fun _ => define_session_of_new, fun _ _ => define_session_of_known,
    represents.size_eq_card, fun _ => represents.bound_iff_mem_sorted.symm, once,
    table.sorted_pairwise.imp Symbol.order_eq_lt_iff.mp, ?_,
    fun others => represents.sorted_eq_iff (session_represents others)⟩
  intro listed distinct exactly
  have perm : listed.Perm table.sorted := (List.perm_ext_iff_of_nodup distinct once).mpr fun symbol => by
    rw [exactly, represents.bound_iff_mem_sorted]
  exact represents.mergeSort_eq_sorted perm

end Asm16.SymbolTable
