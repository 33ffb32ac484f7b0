import Mathlib.Data.Nat.Digits.Lemmas
import Asm16.Proofs.ImageFiles

namespace Asm16

variable {token chars : List Char} {number limit : Nat}

/-- A digit, in a letter of either case, with its value. -/
structure HexDigit (c : Char) (digit : Nat) : Prop where
  small : digit < 16
  letter : c.toLower = Nat.digitChar digit

/-- One or more digits, the one of the highest value first, with the number that they denote. -/
inductive HexDigits : List Char → Nat → Prop
  | mk {chars : List Char} {digits : List Nat} (nonempty : chars ≠ [])
      (each : List.Forall₂ HexDigit chars digits) : HexDigits chars (Nat.ofDigits 16 digits.reverse)

/-- Digits behind an optional plus sign. -/
inductive HexNumeral : List Char → Nat → Prop
  | plain {token : List Char} {number : Nat} (digits : HexDigits token number) : HexNumeral token number
  | plus {token : List Char} {number : Nat} (digits : HexDigits token number) :
      HexNumeral ('+' :: token) number

/-- A numeral behind an optional mark. What follows the mark has no mark again, since no digit is an
`x`. -/
inductive HexToken : List Char → Nat → Prop
  | plain {token : List Char} {number : Nat} (numeral : HexNumeral token number) : HexToken token number
  | marked {token : List Char} {number : Nat} {mark : Char} (either : mark = 'x' ∨ mark = 'X')
      (numeral : HexNumeral token number) : HexToken ('0' :: mark :: token) number

theorem Numeral.digit?_ofNat :
    ∀ code < 128, ∀ digit < 16,
      (digit? 16 (Char.ofNat code) = some digit ↔ (Char.ofNat code).toLower = Nat.digitChar digit) := by
  -- No digit has a code above these, so it is enough to try them out.
  decide +kernel

theorem Numeral.digit?_lt {base digit : Nat} {c : Char} (read : digit? base c = some digit) : digit < base :=
  of_decide_eq_true (Option.filter_eq_some_iff.mp read).2

theorem Numeral.digit?_of_large {c : Char} (large : 128 ≤ c.toNat) : digit? 16 c = none := by
  have notDigit : ¬ ('0' ≤ c ∧ c ≤ '9') := fun range => absurd (show c.toNat ≤ 57 from range.2) (by omega)
  have notLower : ¬ ('a' ≤ c ∧ c ≤ 'f') := fun range => absurd (show c.toNat ≤ 102 from range.2) (by omega)
  have notUpper : ¬ ('A' ≤ c ∧ c ≤ 'F') := fun range => absurd (show c.toNat ≤ 70 from range.2) (by omega)
  simp only [digit?, if_neg notDigit, if_neg notLower, if_neg notUpper]
  rfl

theorem HexDigit.toNat_lt {c : Char} {digit : Nat} (hex : HexDigit c digit) : c.toNat < 128 := by
  have small : ∀ digit < 16, (Nat.digitChar digit).toNat < 128 := by decide
  by_contra large
  have other : c.toLower = c := by
    apply dif_neg
    rintro ⟨_, upper⟩
    exact large (Nat.lt_of_le_of_lt (show c.toNat ≤ 90 from upper) (by decide))
  have bound := small digit hex.small
  rw [← hex.letter, other] at bound
  exact large bound

theorem Numeral.digit?_eq_some_iff {c : Char} {digit : Nat} :
    digit? 16 c = some digit ↔ HexDigit c digit := by
  constructor
  · intro read
    have ascii : c.toNat < 128 := by
      by_contra large
      rw [digit?_of_large (Nat.le_of_not_lt large)] at read
      cases read
    have small := digit?_lt read
    rw [← Char.ofNat_toNat c, digit?_ofNat c.toNat ascii digit small, Char.ofNat_toNat] at read
    exact ⟨small, read⟩
  · intro hex
    rw [← Char.ofNat_toNat c, digit?_ofNat c.toNat hex.toNat_lt digit hex.small, Char.ofNat_toNat]
    exact hex.letter

/-- The number that digits denote behind a number that was read before them. -/
def Numeral.extend (value : Nat) (digits : List Nat) : Nat :=
  digits.foldl (fun value digit => value * 16 + digit) value

namespace Numeral

theorem le_extend (digits : List Nat) (value : Nat) : value ≤ extend value digits := by
  induction digits generalizing value with
  | nil => exact Nat.le_refl value
  | cons digit digits ih => exact Nat.le_trans (by omega) (ih (value * 16 + digit))

theorem extend_zero (digits : List Nat) : extend 0 digits = Nat.ofDigits 16 digits.reverse := by
  rw [Nat.ofDigits_eq_foldr, List.foldr_reverse, extend]
  congr 1
  funext value digit
  rw [Nat.add_comm, Nat.mul_comm]
  rfl

theorem readDigits_eq_ok_iff {value : Nat} (small : value ≤ limit) :
    readDigits 16 limit value chars = .ok number ↔
      ∃ digits, List.Forall₂ HexDigit chars digits ∧ extend value digits = number ∧ number ≤ limit := by
  induction chars generalizing value with
  | nil =>
      simp only [readDigits, Except.ok.injEq, List.forall₂_nil_left_iff, exists_eq_left]
      refine ⟨fun same => ⟨same, same ▸ small⟩, And.left⟩
  | cons c rest ih =>
      simp only [List.forall₂_cons_left_iff, ← digit?_eq_some_iff, readDigits]
      cases found : digit? 16 c with
      | none => simp
      | some digit =>
          by_cases inside : value * 16 + digit ≤ limit
          · simp only [if_pos inside, ih inside]
            constructor
            · rintro ⟨digits, each, denotes⟩
              exact ⟨digit :: digits, ⟨digit, digits, rfl, each, rfl⟩, denotes⟩
            · rintro ⟨_, ⟨_, digits, ⟨⟩, each, rfl⟩, denotes⟩
              exact ⟨digits, each, denotes⟩
          · -- More digits never make a number smaller, so the limit is passed at the end too.
            simp only [if_neg inside, reduceCtorEq, false_iff]
            rintro ⟨_, ⟨_, digits, ⟨⟩, _, rfl⟩, denotes, bound⟩
            have grows : value * 16 + digit ≤ number := denotes ▸ le_extend digits _
            omega

theorem readDigits_eq_ok_iff_hexDigits (nonempty : chars ≠ []) :
    readDigits 16 limit 0 chars = .ok number ↔ HexDigits chars number ∧ number ≤ limit := by
  simp only [readDigits_eq_ok_iff (Nat.zero_le limit), extend_zero]
  constructor
  · rintro ⟨digits, each, denotes, bound⟩
    exact ⟨denotes ▸ .mk nonempty each, bound⟩
  · rintro ⟨⟨_, each⟩, bound⟩
    exact ⟨_, each, rfl, bound⟩

end Numeral

theorem HexDigits.ne_nil (digits : HexDigits chars number) : chars ≠ [] := by
  obtain ⟨nonempty, _⟩ := digits
  exact nonempty

theorem HexDigits.not_mem {c : Char} (digits : HexDigits chars number) (other : Numeral.digit? 16 c = none) :
    c ∉ chars := by
  have read := (Numeral.readDigits_eq_ok_iff_hexDigits digits.ne_nil).mpr ⟨digits, Nat.le_refl number⟩
  intro member
  obtain ⟨digit, found⟩ := Numeral.digit_of_readDigits read c member
  rw [other] at found
  cases found

theorem HexNumeral.not_mem {c : Char} (numeral : HexNumeral token number)
    (other : Numeral.digit? 16 c = none) (notPlus : c ≠ '+') : c ∉ token := by
  cases numeral with
  | plain digits => exact digits.not_mem other
  | plus digits => exact List.not_mem_cons_of_ne_of_not_mem notPlus (digits.not_mem other)

theorem hexNumeral_plus_iff : HexNumeral ('+' :: token) number ↔ HexDigits token number := by
  refine ⟨fun numeral => ?_, .plus⟩
  cases numeral with
  | plain digits => exact absurd List.mem_cons_self (digits.not_mem (by decide))
  | plus digits => exact digits

theorem hexNumeral_iff_of_unsigned (unsigned : ∀ rest, token ≠ '+' :: rest) :
    HexNumeral token number ↔ HexDigits token number := by
  refine ⟨fun numeral => ?_, .plain⟩
  cases numeral with
  | plain digits => exact digits
  | plus => exact absurd rfl (unsigned _)

theorem Numeral.readUnsigned_eq_ok_iff :
    readUnsigned 16 limit token = .ok number ↔ HexNumeral token number ∧ number ≤ limit := by
  unfold readUnsigned
  split
  · rw [hexNumeral_iff_of_unsigned (by simp)]
    exact iff_of_false (by simp) fun read => read.1.ne_nil rfl
  · rw [hexNumeral_plus_iff]
    exact iff_of_false (by simp) fun read => read.1.ne_nil rfl
  · rename_i digits nonempty
    rw [hexNumeral_plus_iff, readDigits_eq_ok_iff_hexDigits fun empty => nonempty (empty ▸ rfl)]
  · rename_i nonempty _ unsigned
    rw [hexNumeral_iff_of_unsigned unsigned, readDigits_eq_ok_iff_hexDigits nonempty]

theorem HexNumeral.unmarked {mark : Char} (numeral : HexNumeral ('0' :: mark :: token) number) :
    ¬ (mark = 'x' ∨ mark = 'X') := by
  have member : mark ∈ '0' :: mark :: token := by simp
  rintro (rfl | rfl)
  · exact numeral.not_mem (by decide) (by decide) member
  · exact numeral.not_mem (by decide) (by decide) member

theorem hexToken_marked_iff {mark : Char} (either : mark = 'x' ∨ mark = 'X') :
    HexToken ('0' :: mark :: token) number ↔ HexNumeral token number := by
  refine ⟨fun hex => ?_, .marked either⟩
  cases hex with
  | plain numeral => exact absurd either numeral.unmarked
  | marked _ numeral => exact numeral

theorem hexToken_iff :
    HexToken token number ↔ HexNumeral ((Numeral.dropHexMark? token).getD token) number := by
  unfold Numeral.dropHexMark?
  split
  · exact hexToken_marked_iff (.inl rfl)
  · exact hexToken_marked_iff (.inr rfl)
  · rename_i noLower noUpper
    refine ⟨fun hex => ?_, .plain⟩
    cases hex with
    | plain numeral => exact numeral
    | marked either =>
        rcases either with rfl | rfl
        · exact absurd rfl (noLower _)
        · exact absurd rfl (noUpper _)

def HexWord (token : List Char) : Prop :=
  ∃ number, HexToken token number ∧ number ≤ 65535

theorem wordOfHex_eq_ok_iff {word : Word} : wordOfHex token = .ok word ↔ HexToken token word.toNat := by
  simp only [wordOfHex, map_eq_ok_iff, Numeral.readUnsigned_eq_ok_iff, ← hexToken_iff]
  constructor
  · rintro ⟨number, ⟨hex, bound⟩, rfl⟩
    rwa [UInt16.toNat_ofNat_of_lt' (Nat.lt_succ_of_le bound)]
  · intro hex
    exact ⟨word.toNat, ⟨hex, Nat.le_of_lt_succ word.toNat_lt⟩, UInt16.ofNat_toNat⟩

theorem exists_wordOfHex_iff : (∃ word, wordOfHex token = .ok word) ↔ HexWord token := by
  simp only [wordOfHex_eq_ok_iff, HexWord]
  constructor
  · rintro ⟨word, hex⟩
    exact ⟨word.toNat, hex, Nat.le_of_lt_succ word.toNat_lt⟩
  · rintro ⟨number, hex, bound⟩
    refine ⟨UInt16.ofNat number, ?_⟩
    rwa [UInt16.toNat_ofNat_of_lt' (Nat.lt_succ_of_le bound)]

/-- The tokens of lines, before their comments, each with the number of its line. -/
inductive NumberedTokens : Nat → List (List Char) → List (List Char × Nat) → Prop
  | nil {lineNo : Nat} : NumberedTokens lineNo [] []
  | line {lineNo : Nat} {line kept : List Char} {lines tokens : List (List Char)}
      {later : List (List Char × Nat)} (uncommented : Uncommented line kept) (cut : BlankSeparated kept tokens)
      (tail : NumberedTokens (lineNo + 1) lines later) :
      NumberedTokens lineNo (line :: lines) (tokens.map (·, lineNo) ++ later)

/-- The tokens of a text. Its first line has the number one. -/
def TextTokens (text : String) (tokens : List (List Char × Nat)) : Prop :=
  ∃ lines, Lines text.toList lines ∧ NumberedTokens 1 lines tokens

variable {tokens : List (List Char × Nat)}

theorem numberedTokens_iff {lines : List (List Char)} {start : Nat} :
    NumberedTokens (start + 1) lines tokens ↔ tokens = (lines.zipIdx start).flatMap fun line =>
      (Text.words (Text.beforeComment line.1)).map (·, line.2 + 1) := by
  induction lines generalizing start tokens with
  | nil =>
      refine ⟨fun numbered => ?_, ?_⟩
      · cases numbered
        rfl
      · rintro rfl
        exact .nil
  | cons line lines ih =>
      rw [List.zipIdx_cons, List.flatMap_cons]
      refine ⟨fun numbered => ?_, ?_⟩
      · cases numbered with
        | line uncommented cut tail =>
            rw [Text.beforeComment_eq_iff.mpr uncommented, cut.words, ih.mp tail]
      · rintro rfl
        exact .line (Text.beforeComment_eq_iff.mp rfl) (Text.words_eq_iff.mp rfl) (ih.mpr rfl)

theorem textTokens_iff {text : String} :
    TextTokens text tokens ↔ tokens = (hexTokens text).map fun token => (token.1, token.2 + 1) := by
  have listed : ((hexTokens text).map fun token => (token.1, token.2 + 1)) =
      (Text.lines text.toList).zipIdx.flatMap fun line =>
        (Text.words (Text.beforeComment line.1)).map (·, line.2 + 1) := by
    simp only [hexTokens, List.map_flatMap, List.map_map]
    rfl
  simp only [listed, TextTokens, ← Text.lines_eq_iff, exists_eq_left', ← numberedTokens_iff]

/-- The first token that is no word, and its line. -/
structure FirstBadToken (tokens : List (List Char × Nat)) (token : List Char) (lineNo : Nat) : Prop where
  bad : ¬ HexWord token
  first : ∃ index : Nat, tokens[index]? = some (token, lineNo) ∧
    ∀ earlier < index, ∀ other, tokens[earlier]? = some other → HexWord other.1

variable {source : String}

theorem wordsOfHexText_eq_ok_iff {words : List Word} :
    wordsOfHexText source = .ok words ↔
      List.Forall₂ (fun token word => HexToken token.1 word.toNat) (hexTokens source) words := by
  simp only [wordsOfHexText, mapM_eq_ok_iff, mapError_eq_ok_iff, wordOfHex_eq_ok_iff]

theorem exists_wordsOfHexText_iff :
    (∃ words, wordsOfHexText source = .ok words) ↔ ∀ token ∈ hexTokens source, HexWord token.1 := by
  simp only [wordsOfHexText, exists_mapM_eq_ok_iff, mapError_eq_ok_iff, exists_wordOfHex_iff]

theorem firstBadToken_of_error {error : LoadError} (failed : wordsOfHexText source = .error error) :
    ∃ token lineNo cause, error = .badHexWord lineNo (String.ofList token) cause ∧
      FirstBadToken ((hexTokens source).map fun token => (token.1, token.2 + 1)) token lineNo := by
  obtain ⟨index, ⟨token, found, unread⟩, earlier⟩ := mapM_eq_error_iff.mp failed
  obtain ⟨cause, refused, same⟩ := mapError_eq_error_iff.mp unread
  refine ⟨token.1, token.2 + 1, cause, same.symm, ?_, index, by simp [found], ?_⟩
  · rw [← exists_wordOfHex_iff, refused]
    simp
  · intro before less other located
    rw [List.getElem?_map] at located
    obtain ⟨input, place, rfl⟩ := Option.map_eq_some_iff.mp located
    obtain ⟨word, read⟩ := earlier before less input place
    exact exists_wordOfHex_iff.mp ⟨word, mapError_eq_ok_iff.mp read⟩

/-- Hexadecimal text is read exactly. It has one list of tokens; reading succeeds if each is the
numeral of a word, and returns these words in order; otherwise the error names the first token that
is not, and its line. -/
theorem wordsOfHexText_reads_exactly (source : String) :
    ∃ tokens, (∀ others, TextTokens source others ↔ others = tokens) ∧
      ((∃ words, wordsOfHexText source = .ok words) ↔ ∀ token ∈ tokens, HexWord token.1) ∧
      (∀ words, wordsOfHexText source = .ok words ↔
        List.Forall₂ (fun token word => HexToken token.1 word.toNat) tokens words) ∧
      (¬ (∀ token ∈ tokens, HexWord token.1) → ∃ token lineNo cause,
        FirstBadToken tokens token lineNo ∧
          wordsOfHexText source = .error (.badHexWord lineNo (String.ofList token) cause)) := by
  have succeeds : (∃ words, wordsOfHexText source = .ok words) ↔
      ∀ token ∈ (hexTokens source).map fun token => (token.1, token.2 + 1), HexWord token.1 := by
    rw [exists_wordsOfHexText_iff, List.forall_mem_map]
  refine ⟨_, fun others => textTokens_iff, succeeds, ?_, ?_⟩
  · intro words
    rw [wordsOfHexText_eq_ok_iff, List.forall₂_map_left_iff]
  · intro bad
    cases read : wordsOfHexText source with
    | ok words => exact absurd (succeeds.mp ⟨words, read⟩) bad
    | error error =>
        obtain ⟨token, lineNo, cause, rfl, firstBad⟩ := firstBadToken_of_error read
        exact ⟨token, lineNo, cause, firstBad, rfl⟩

example : wordsOfHexText "0011 0xF001 # halt\n\n+12ff\t0X+000000ffff" = .ok [0x0011, 0xF001, 0x12FF, 0xFFFF] := by
  decide +kernel

example : wordsOfHexText "12 # 0x0x1\r\n 0x0x1 10000" = .error (.badHexWord 2 "0x0x1" .invalidDigit) := by
  decide +kernel

end Asm16
