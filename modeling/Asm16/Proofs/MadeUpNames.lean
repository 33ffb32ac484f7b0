import Asm16.Proofs.ImageFiles
import Asm16.Proofs.LabelledListing
import Asm16.Proofs.Symbolization

/-!
# Names made up for addresses

A made-up name is a mark and the numeral of its address. The marks are of one length and a numeral
can be read back, whatever its length, so such a name belongs to one address only. Imported names
that do not start with a mark stay apart from them. Source text can use all of them, since they are
identifiers.
-/

namespace Asm16

variable {address left right : Nat} {name : String}

theorem Numeral.hex_injective (width : Nat) : Function.Injective (hex width) := by
  intro left right same
  -- reading skips the padding, so numerals of different lengths are told apart too
  have leftRead := readDigits_hex width (Nat.le_max_left left right)
  have rightRead := readDigits_hex width (Nat.le_max_right left right)
  rw [same, rightRead] at leftRead
  exact (Except.ok.inj leftRead).symm

variable {token front back : List Char}

theorem Identifier.append (identifier : Identifier front)
    (continues : ∀ c ∈ back, c.isAlpha ∨ c.isDigit ∨ c = '_' ∨ c = '.') : Identifier (front ++ back) := by
  obtain ⟨starts, inner⟩ := identifier
  apply Identifier.mk starts
  intro c member
  rcases List.mem_append.mp member with inFront | inBack
  · exact inner c inFront
  · exact continues c inBack

theorem Solid.trimmed_colon (solid : Solid token) : Trimmed (token ++ [':']) (token ++ [':']) where
  around := ⟨[], [], by simp⟩
  first c member := by
    rw [List.head?_append_of_ne_nil _ solid.nonempty] at member
    exact solid.trimmed.first c member
  last c member := by
    rw [List.getLast?_concat] at member
    cases member
    decide

theorem Identifier.lineForm (identifier : Identifier token) :
    LineForm (token ++ [':']) (some (String.ofList token)) none := by
  have solid := identifier.solid
  have uncommented : '#' ∉ token ++ [':'] := by
    intro mark
    rcases List.mem_append.mp mark with inside | colon
    · exact (solid.plain '#' inside).noComment rfl
    · simp at colon
  have noColon : ':' ∉ token := fun mark => (solid.plain ':' mark).noColon rfl
  have noComma : ',' ∉ token := fun mark => (solid.plain ',' mark).noComma rfl
  have nothing : Trimmed [] [] := ⟨⟨[], [], by simp⟩, by simp, by simp⟩
  exact .mk (.plain uncommented) solid.trimmed_colon
    (.labelled noColon noComma solid.trimmed identifier nothing .none)

/-- Source text can define the name as a label, and refer to it. -/
structure Labels.Usable (name : String) : Prop where
  defines : Program.parse (name ++ ":") = .ok ⟨[.label name 1]⟩
  refers : Token.readImm name.toList = .ok (.label name)

theorem Identifier.usable (identifier : Identifier name.toList) : Labels.Usable name where
  defines := by
    have free : '\n' ∉ name.toList ++ [':'] := by
      simpa using identifier.solid.not_mem_of_blank (by decide)
    have text : name ++ ":" = String.ofList (name.toList ++ [':']) := by
      simp [String.ofList_append]
    have read : parseLineAt (name.toList ++ [':'], 0) = .ok [.label name 1] :=
      parseLineAt_eq_ok_iff.mpr ⟨_, _, identifier.lineForm, by rw [String.ofList_toList]; rfl⟩
    rw [text, Program.parse_single_line free, read]
    rfl
  refers := by
    have label := readImm_eq_ok_iff.mpr (.label identifier)
    rwa [String.ofList_toList] at label

namespace Labels

variable {imported : Labels} {entries : List Nat} {edges : List Edge}

/-- What made-up names start with. -/
def marks : List String := ["sub_", "loc_"]

def Reserved (name : String) : Prop :=
  ∃ mark ∈ marks, mark.toList <+: name.toList

instance : DecidablePred Reserved :=
  fun name => inferInstanceAs (Decidable (∃ mark ∈ marks, mark.toList <+: name.toList))

def MadeUp (address : Nat) (name : String) : Prop :=
  ∃ mark ∈ marks, name.toList = mark.toList ++ Numeral.hex 4 address

theorem madeUp_subroutine (address : Nat) : MadeUp address (subroutine address) :=
  ⟨"sub_", by decide, by simp [subroutine]⟩

theorem madeUp_location (address : Nat) : MadeUp address (location address) :=
  ⟨"loc_", by decide, by simp [location]⟩

theorem MadeUp.reserved (madeUp : MadeUp address name) : Reserved name := by
  obtain ⟨mark, listed, text⟩ := madeUp
  exact ⟨mark, listed, by rw [text]; exact List.prefix_append _ _⟩

theorem MadeUp.identifier (madeUp : MadeUp address name) : Identifier name.toList := by
  obtain ⟨mark, listed, text⟩ := madeUp
  have marksIdentify : ∀ mark ∈ marks, Token.isIdentifier mark.toList := by decide
  rw [text]
  apply Identifier.append (Token.isIdentifier_iff.mp (marksIdentify mark listed))
  exact fun c member => name_of_mem_hex member

theorem MadeUp.address_eq (leftMadeUp : MadeUp left name) (rightMadeUp : MadeUp right name) : left = right := by
  obtain ⟨leftMark, leftListed, leftText⟩ := leftMadeUp
  obtain ⟨rightMark, rightListed, rightText⟩ := rightMadeUp
  -- both marks have four characters, so the numerals start at the same place
  have lengths : ∀ mark ∈ marks, mark.toList.length = 4 := by decide
  have sameLength : leftMark.toList.length = rightMark.toList.length := by
    rw [lengths leftMark leftListed, lengths rightMark rightListed]
  have sameText := leftText.symm.trans rightText
  exact Numeral.hex_injective 4 (List.append_inj sameText sameLength).2

theorem madeUp_of_nameFor? {edge : Edge} (named : edge.nameFor? address = some name) : MadeUp address name := by
  have entered := Edge.enters_of_nameFor? named
  by_cases call : edge.kind = .call
  · rw [Edge.nameFor?_of_call entered call] at named
    exact Option.some.inj named ▸ madeUp_subroutine address
  · rw [Edge.nameFor?_of_branch entered call] at named
    exact Option.some.inj named ▸ madeUp_location address

theorem imported_or_madeUp (named : (imported.extend entries edges)[address]? = some name) :
    imported[address]? = some name ∨ MadeUp address name := by
  rw [getElem?_extend, Option.or_eq_some_iff, Option.or_eq_some_iff] at named
  rcases named with known | ⟨_, entry | ⟨_, target⟩⟩
  · exact .inl known
  · obtain ⟨_, same⟩ := Option.ite_none_right_eq_some.mp entry
    exact .inr (Option.some.inj same ▸ madeUp_subroutine address)
  · obtain ⟨edge, _, named⟩ := List.exists_of_findSome?_eq_some target
    exact .inr (madeUp_of_nameFor? named)

theorem getElem?_extend_of_imported (entries : List Nat) (edges : List Edge)
    (known : imported[address]? = some name) : (imported.extend entries edges)[address]? = some name := by
  rw [getElem?_extend, known, Option.some_or]

theorem Distinct.extend (distinct : imported.Distinct)
    (unreserved : ∀ (address : Nat) (name : String), imported[address]? = some name → ¬ Reserved name) :
    (imported.extend entries edges).Distinct := by
  intro left right name leftNamed rightNamed
  rcases imported_or_madeUp leftNamed with leftKnown | leftMadeUp
  · rcases imported_or_madeUp rightNamed with rightKnown | rightMadeUp
    · exact distinct left right name leftKnown rightKnown
    · exact absurd rightMadeUp.reserved (unreserved left name leftKnown)
  · rcases imported_or_madeUp rightNamed with rightKnown | rightMadeUp
    · exact absurd leftMadeUp.reserved (unreserved right name rightKnown)
    · exact leftMadeUp.address_eq rightMadeUp

/-- With imported names that are distinct identifiers and not reserved, every address where control
can enter gets a name of its own that source text can use, and no imported name is lost. -/
theorem extend_names_apart (imported : Labels) (entries : List Nat) (edges : List Edge)
    (distinct : imported.Distinct)
    (identifiers : ∀ (address : Nat) (name : String), imported[address]? = some name →
      Token.isIdentifier name.toList)
    (unreserved : ∀ (address : Nat) (name : String), imported[address]? = some name → ¬ Reserved name) :
    let labels := imported.extend entries edges
    labels.Distinct ∧
    (∀ (address : Nat) (name : String), labels[address]? = some name →
      Token.isIdentifier name.toList ∧ Usable name) ∧
    (∀ (address : Nat) (name : String), imported[address]? = some name → labels[address]? = some name) ∧
    ∀ address, address ∈ labels ↔ address ∈ imported ∨ Entered entries edges address := by
  intro labels
  refine ⟨distinct.extend unreserved, ?_, ?_, fun address => mem_extend_iff⟩
  · intro address name named
    have identifier : Identifier name.toList := by
      rcases imported_or_madeUp named with known | madeUp
      · exact Token.isIdentifier_iff.mp (identifiers address name known)
      · exact madeUp.identifier
    exact ⟨Token.isIdentifier_iff.mpr identifier, identifier.usable⟩
  · intro address name known
    exact getElem?_extend_of_imported entries edges known

/-- Numerals of four and five digits, behind both marks and beside an imported name. -/
theorem extend_names_apart_long :
    let imported := ofPairs [(3, "main")]
    let labels := imported.extend [3, 0x12345] [⟨3, 0x1234, .condBranch⟩, ⟨4, 0x2345, .call⟩]
    imported.Distinct ∧ ¬ Reserved "main" ∧ labels.Distinct ∧ labels[3]? = some "main" ∧
      labels.toList = [(3, "main"), (0x1234, "loc_1234"), (0x2345, "sub_2345"), (0x12345, "sub_12345")] ∧
      Usable "sub_12345" := by
  intro imported labels
  have only : ∀ (address : Nat) (name : String), imported[address]? = some name → address = 3 ∧ name = "main" := by
    intro address name named
    simpa [imported, getElem?_ofPairs, eq_comm] using named
  have distinct : imported.Distinct := by
    intro left right name leftNamed rightNamed
    rw [(only left name leftNamed).1, (only right name rightNamed).1]
  have free : ¬ Reserved "main" := by decide
  obtain ⟨apart, usable, kept, _⟩ := extend_names_apart imported [3, 0x12345]
    [⟨3, 0x1234, .condBranch⟩, ⟨4, 0x2345, .call⟩] distinct
    (fun address name named => (only address name named).2 ▸ rfl)
    (fun address name named => (only address name named).2 ▸ free)
  exact ⟨distinct, free, apart, kept 3 "main" (by decide +kernel), by decide +kernel,
    (usable 0x12345 "sub_12345" (by decide +kernel)).2⟩

end Labels

end Asm16
