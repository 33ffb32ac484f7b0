import Asm16.Proofs.ControlTransfer
import Asm16.Proofs.Reachability

namespace Asm16

variable {image : Image} {address : Nat} {instr : Instr}

theorem Image.instr?_eq_some_iff :
    image.instr? address = some instr ↔
      ∃ word, image.word? address = some word ∧ decode word = .ok instr := by
  simp only [instr?, Option.bind_eq_some_iff, toOption_eq_some_iff]

def Image.edgesAt (image : Image) (address : Nat) : List Edge :=
  match image.instr? address with
  | some instr => instr.edges address
  | none => []

theorem Image.edgesAt_of_instr? (found : image.instr? address = some instr) :
    image.edgesAt address = instr.edges address := by
  rw [edgesAt, found]

theorem Image.mem_edgesAt_iff {edge : Edge} :
    edge ∈ image.edgesAt address ↔ edge.source = address ∧
      ∃ instr, image.instr? address = some instr ∧ (edge.target, edge.kind) ∈ instr.successors address := by
  cases found : image.instr? address with
  | none => simp [edgesAt, found]
  | some instr => simp [edgesAt, found, Instr.mem_edges_iff]

theorem Image.encodable_of_instr? (found : image.instr? address = some instr) : instr.Encodable := by
  obtain ⟨word, _, decoded⟩ := instr?_eq_some_iff.mp found
  exact Instr.encodable_of_decode decoded

theorem Image.label?_of_instr? (found : image.instr? address = some instr) : instr.label? = none :=
  (encodable_of_instr? found).1

namespace Traversal

variable {traversal : Traversal} {order : List Nat}

/-- The visits so far, in their order, and the edges they left. -/
structure Records (image : Image) (order : List Nat) (traversal : Traversal) : Prop where
  once : order.Nodup
  visited : ∀ address, address ∈ traversal.visited ↔ address ∈ order
  edges : traversal.edges.toList = order.flatMap image.edgesAt

theorem records_start (image : Image) (entries : List Nat) : (start image entries).Records image [] where
  once := .nil
  visited := by simp [start]
  edges := rfl

theorem Records.visit {rest : List Nat} (records : traversal.Records image order)
    (fresh : address ∉ traversal.visited) (found : image.instr? address = some instr) :
    (traversal.visit image rest address instr).Records image (order ++ [address]) where
  once := by
    rw [← List.concat_eq_append, List.nodup_concat]
    exact ⟨fun member => fresh ((records.visited address).mpr member), records.once⟩
  visited := by
    intro other
    rw [visited_visit, Std.TreeSet.mem_insert, Nat.compare_eq_eq, records.visited, List.mem_append,
      List.mem_singleton, or_comm, eq_comm]
  edges := by
    rw [List.flatMap_append, ← records.edges, List.flatMap_singleton, Image.edgesAt_of_instr? found]
    exact Array.toList_appendList

theorem Records.step (records : traversal.Records image order) (queued : traversal.queue ≠ []) :
    ∃ later, (traversal.step image).Records image (order ++ later) := by
  obtain ⟨address, rest, _, ⟨_, stepped⟩ | ⟨instr, fresh, found, stepped⟩⟩ := step_cases image queued
  · rw [stepped]
    refine ⟨[], ?_⟩
    rw [List.append_nil]
    exact ⟨records.once, records.visited, records.edges⟩
  · rw [stepped]
    exact ⟨[address], records.visit fresh found⟩

end Traversal

theorem Image.exists_records_traverse (image : Image) (entries : List Nat) (budget : Nat) :
    ∃ order, (image.traverse entries budget).Records image order := by
  refine @Traversal.run_preserves image budget _ (fun traversal => ∃ order, traversal.Records image order)
    ?_ ⟨[], Traversal.records_start image entries⟩
  rintro traversal unfinished ⟨order, records⟩
  obtain ⟨later, next⟩ := records.step (Traversal.queue_ne_nil_of_not_finished unfinished)
  exact ⟨order ++ later, next⟩

theorem Image.mem_edges_traverse_iff {entries : List Nat} {budget : Nat} {edge : Edge} :
    edge ∈ (image.traverse entries budget).edges.toList ↔
      edge.source ∈ (image.traverse entries budget).visited ∧ edge ∈ image.edgesAt edge.source := by
  obtain ⟨order, records⟩ := image.exists_records_traverse entries budget
  rw [records.edges, List.mem_flatMap, records.visited]
  refine ⟨?_, fun ⟨seen, noted⟩ => ⟨edge.source, seen, noted⟩⟩
  rintro ⟨address, seen, noted⟩
  have source := (mem_edgesAt_iff.mp noted).1
  subst source
  exact ⟨seen, noted⟩

theorem Image.mem_transfers_traverse_iff {entries : List Nat} {budget target : Nat} {kind : EdgeKind}
    (seen : address ∈ (image.traverse entries budget).visited) (found : image.instr? address = some instr)
    (transfers : instr.transfer? = some kind) (sends : instr.target? address = some target)
    (edge : Edge) :
    edge ∈ (image.traverse entries budget).edges.toList ∧ edge.source = address ∧ edge.kind ≠ .fallthrough ↔
      edge = ⟨address, target, kind⟩ := by
  rw [mem_edges_traverse_iff]
  refine ⟨?_, ?_⟩
  · rintro ⟨⟨_, noted⟩, rfl, leaves⟩
    rw [edgesAt_of_instr? found, Instr.mem_edges_iff, Instr.mem_successors_iff leaves, transfers, sends] at noted
    obtain ⟨_, sameKind, sameTarget⟩ := noted
    rw [Option.some.inj sameKind, Option.some.inj sameTarget]
  · rintro rfl
    have leaves := Instr.ne_fallthrough_of_transfer? transfers
    refine ⟨⟨seen, ?_⟩, rfl, leaves⟩
    rw [edgesAt_of_instr? found, Instr.mem_edges_iff, Instr.mem_successors_iff leaves]
    exact ⟨rfl, transfers, sends⟩

theorem Instr.nodup_edges (instr : Instr) (address : Nat) : (instr.edges address).Nodup := by
  have distinct : (instr.successors address).Nodup := by
    cases instr with
    | jump target => cases target <;> simp [successors, target?, Imm.value?]
    -- the two edges may have one target, but never one kind
    | jal target => cases target <;> simp [successors, target?, Imm.value?]
    | branch _ _ offset => cases offset <;> simp [successors, target?, Imm.value?]
    | sys op => cases op <;> simp [successors]
    | alu | immediate | mem => simp [successors]
  apply distinct.map
  rintro ⟨target, kind⟩ ⟨other, kind'⟩ same
  cases same
  rfl

theorem Image.nodup_edgesAt (image : Image) (address : Nat) : (image.edgesAt address).Nodup := by
  cases found : image.instr? address with
  | none => simp [edgesAt, found]
  | some instr =>
      rw [edgesAt_of_instr? found]
      exact instr.nodup_edges address

theorem Image.nodup_edges_traverse (image : Image) (entries : List Nat) (budget : Nat) :
    (image.traverse entries budget).edges.toList.Nodup := by
  obtain ⟨order, records⟩ := image.exists_records_traverse entries budget
  rw [records.edges, List.nodup_flatMap]
  refine ⟨fun address _ => image.nodup_edgesAt address, records.once.imp ?_⟩
  intro left right different edge here there
  have sourceLeft := (mem_edgesAt_iff.mp here).1
  have sourceRight := (mem_edgesAt_iff.mp there).1
  exact different (sourceLeft.symm.trans sourceRight)

theorem Instr.edges_eq_nil_iff (literal : instr.label? = none) :
    instr.edges address = [] ↔ instr = .halt := by
  rw [edges, List.map_eq_nil_iff]
  cases instr with
  | jump imm | jal imm | branch _ _ imm =>
      cases imm with
      | value value => simp [successors, target?, Imm.value?, halt]
      | label name => simp [label?, imm?, Imm.label?] at literal
  | sys op => cases op <;> simp [successors, halt]
  | alu | immediate | mem => simp [successors, halt]

namespace Traversal

variable {traversal : Traversal} {rest : List Nat}

/-- The stops so far are the visited halts. -/
def StopsAtHalts (image : Image) (traversal : Traversal) : Prop :=
  ∀ address, address ∈ traversal.stops ↔
    address ∈ traversal.visited ∧ image.instr? address = some .halt

theorem stopsAtHalts_start (image : Image) (entries : List Nat) :
    (start image entries).StopsAtHalts image := by
  intro address
  simp [start]

theorem mem_stops_visit (found : image.instr? address = some instr) (other : Nat) :
    other ∈ (traversal.visit image rest address instr).stops ↔
      other ∈ traversal.stops ∨ address = other ∧ instr = .halt := by
  have halts := @Instr.edges_eq_nil_iff address _ (Image.label?_of_instr? found)
  rw [← halts]
  simp only [visit, List.isEmpty_iff]
  split
  · next stops => simp [Std.TreeSet.mem_insert, stops, or_comm]
  · next leaves => simp [leaves]

theorem StopsAtHalts.visit (stopsAtHalts : traversal.StopsAtHalts image)
    (found : image.instr? address = some instr) :
    (traversal.visit image rest address instr).StopsAtHalts image := by
  intro other
  rw [mem_stops_visit found, visited_visit, Std.TreeSet.mem_insert, Nat.compare_eq_eq, stopsAtHalts]
  by_cases same : address = other
  · subst same
    simp only [found, Option.some.injEq, true_and, true_or]
    exact ⟨fun known => known.elim And.right id, .inr⟩
  · simp only [same, false_and, or_false, false_or]

theorem StopsAtHalts.step (stopsAtHalts : traversal.StopsAtHalts image) (queued : traversal.queue ≠ []) :
    (traversal.step image).StopsAtHalts image := by
  obtain ⟨address, rest, _, ⟨_, stepped⟩ | ⟨instr, _, found, stepped⟩⟩ := step_cases image queued
  · rw [stepped]
    exact stopsAtHalts
  · rw [stepped]
    exact stopsAtHalts.visit found

end Traversal

theorem Image.stopsAtHalts_traverse (image : Image) (entries : List Nat) (budget : Nat) :
    (image.traverse entries budget).StopsAtHalts image :=
  Traversal.run_preserves
    (fun _ unfinished stops => stops.step (Traversal.queue_ne_nil_of_not_finished unfinished))
    (Traversal.stopsAtHalts_start image entries)

/-- A traversal reports the edges of each visited instruction once, and the halts among them as
stops. -/
theorem Image.traverse_reports_exactly (image : Image) (entries : List Nat) (budget : Nat) :
    let traversal := image.traverse entries budget
    (∀ address ∈ traversal.visited, ∃ word instr, image.word? address = some word ∧
      decode word = .ok instr ∧ image.edgesAt address =
        (instr.successors address).map fun successor => ⟨address, successor.1, successor.2⟩) ∧
    (∃ order : List Nat, order.Nodup ∧ (∀ address, address ∈ order ↔ address ∈ traversal.visited) ∧
      traversal.edges.toList = order.flatMap image.edgesAt) ∧
    traversal.edges.toList.Nodup ∧
    (∀ address, address ∈ traversal.stops ↔ address ∈ traversal.visited ∧
      ∃ word, image.word? address = some word ∧ decode word = .ok .halt) := by
  refine ⟨?_, ?_, image.nodup_edges_traverse entries budget, ?_⟩
  · intro address seen
    obtain ⟨instr, found⟩ := (image.explores_traverse entries budget).visits address seen
    obtain ⟨word, read, decoded⟩ := instr?_eq_some_iff.mp found
    exact ⟨word, instr, read, decoded, edgesAt_of_instr? found⟩
  · obtain ⟨order, records⟩ := image.exists_records_traverse entries budget
    exact ⟨order, records.once, fun address => (records.visited address).symm, records.edges⟩
  · intro address
    rw [image.stopsAtHalts_traverse entries budget address, instr?_eq_some_iff]

/-- A branch to the instruction behind it, a branch back, and two halts, of which one is visited. -/
theorem Image.traverse_reports_exactly_loop :
    let image : Image := ⟨0, #[0x8001, 0x807F, 0xF001, 0xF001]⟩
    let traversal := image.traverse [1, 0, 1] 9
    traversal.edges = #[⟨1, 0, .condBranch⟩, ⟨1, 2, .fallthrough⟩, ⟨0, 1, .condBranch⟩, ⟨0, 1, .fallthrough⟩] ∧
      traversal.edges.toList.Nodup ∧
      (∃ order : List Nat, order.Nodup ∧ (∀ address, address ∈ order ↔ address ∈ traversal.visited) ∧
        traversal.edges.toList = order.flatMap image.edgesAt) ∧
      2 ∈ traversal.stops ∧ 3 ∉ traversal.stops := by
  intro image traversal
  obtain ⟨_, ordered, distinct, stops⟩ := image.traverse_reports_exactly [1, 0, 1] 9
  refine ⟨by decide +kernel, distinct, ordered, (stops 2).mpr ⟨?_, 0xF001, rfl, rfl⟩, ?_⟩
  · decide +kernel
  · intro stopped
    exact absurd ((stops 3).mp stopped).1 (by decide +kernel)

end Asm16
