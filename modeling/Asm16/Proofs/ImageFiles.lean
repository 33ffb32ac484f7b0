import Asm16.Image
import Asm16.Proofs.Reassembly

namespace Asm16

variable {words : List Word} {bytes : List UInt8} {address : Nat}

theorem Word.ofBytes_low_high (word : Word) :
    Word.ofBytes (UInt8.ofNat (word.toNat % 256)) (UInt8.ofNat (word.toNat / 256)) = word := by
  have bound := word.toNat_lt
  apply UInt16.toNat_inj.mp
  simp only [Word.ofBytes, UInt8.toNat_ofNat', UInt16.toNat_ofNat']
  omega

theorem Word.bytes_ofBytes (low high : UInt8) : (Word.ofBytes low high).bytes = [low, high] := by
  have lowBound := low.toNat_lt
  have highBound := high.toNat_lt
  have value : (Word.ofBytes low high).toNat = low.toNat + 256 * high.toNat := by
    simp only [Word.ofBytes, UInt16.toNat_ofNat']
    omega
  have lower : (low.toNat + 256 * high.toNat) % 256 = low.toNat := by omega
  have upper : (low.toNat + 256 * high.toNat) / 256 = high.toNat := by omega
  rw [Word.bytes, value, lower, upper, UInt8.ofNat_toNat, UInt8.ofNat_toNat]

theorem pairWords_flatMap_bytes (words : List Word) : pairWords (words.flatMap Word.bytes) = words := by
  induction words with
  | nil => rfl
  | cons word rest ih =>
      rw [List.flatMap_cons, Word.bytes, List.cons_append, List.cons_append, List.nil_append, pairWords,
        ih, Word.ofBytes_low_high]

theorem flatMap_bytes_pairWords (even : bytes.length % 2 = 0) :
    (pairWords bytes).flatMap Word.bytes = bytes := by
  fun_induction pairWords bytes with
  | case1 low high rest ih =>
      have shorter : rest.length % 2 = 0 := by
        simp only [List.length_cons] at even
        omega
      rw [List.flatMap_cons, Word.bytes_ofBytes, ih shorter]
      rfl
  | case2 bytes short =>
      match bytes with
      | [] => rfl
      | [_] => simp at even
      | low :: high :: rest => exact absurd rfl (short low high rest)

theorem length_flatMap_bytes (words : List Word) : (words.flatMap Word.bytes).length = 2 * words.length := by
  induction words with
  | nil => rfl
  | cons word rest ih =>
      rw [List.flatMap_cons, List.length_append, ih, List.length_cons]
      simp only [Word.bytes, List.length_cons, List.length_nil]
      omega

theorem wordsOfBytes_eq_ok_iff : wordsOfBytes bytes = .ok words ↔ words.flatMap Word.bytes = bytes := by
  unfold wordsOfBytes
  split
  · next even =>
      rw [Except.ok.injEq]
      refine ⟨fun read => ?_, fun written => ?_⟩
      · rw [← read]
        exact flatMap_bytes_pairWords even
      · rw [← written]
        exact pairWords_flatMap_bytes words
  · next odd =>
      apply iff_of_false nofun
      intro written
      rw [← written, length_flatMap_bytes] at odd
      omega

theorem exists_wordsOfBytes_iff : (∃ words, wordsOfBytes bytes = .ok words) ↔ bytes.length % 2 = 0 := by
  unfold wordsOfBytes
  split
  · next even => simp [even]
  · next odd => simp [odd]

namespace Numeral

variable {limit number : Nat} {digits : List Char}

theorem digit?_digitChar : ∀ digit < 16, digit? 16 (Nat.digitChar digit) = some digit := by
  decide

theorem readDigits_append (base limit value : Nat) (front back : List Char) :
    readDigits base limit value (front ++ back) =
      readDigits base limit value front >>= fun middle => readDigits base limit middle back := by
  induction front generalizing value with
  | nil => rfl
  | cons c rest ih =>
      rw [List.cons_append, readDigits, readDigits]
      cases digit? base c with
      | none => rfl
      | some digit =>
          by_cases small : value * base + digit ≤ limit
          · simp only [if_pos small, ih]
          · simp only [if_neg small]
            rfl

theorem readDigits_digitChar {value digit : Nat} (valid : digit < 16) (small : value * 16 + digit ≤ limit) :
    readDigits 16 limit value [Nat.digitChar digit] = .ok (value * 16 + digit) := by
  simp only [readDigits, digit?_digitChar digit valid, if_pos small]

theorem readDigits_toDigits (small : number ≤ limit) :
    readDigits 16 limit 0 (Nat.toDigits 16 number) = .ok number := by
  induction number using Nat.base_induction 16 (by decide) with
  | single digit valid =>
      rw [Nat.toDigits_of_lt_base valid, readDigits_digitChar valid (by omega), Nat.zero_mul, Nat.zero_add]
  | digit front digit valid positive ih =>
      rw [← Nat.toDigits_append_toDigits (by decide) positive valid, readDigits_append, ih (by omega),
        Nat.toDigits_of_lt_base valid]
      have last := readDigits_digitChar valid (by omega : front * 16 + digit ≤ limit)
      rwa [Nat.mul_comm front 16] at last

theorem readDigits_zeros (limit count : Nat) : readDigits 16 limit 0 (List.replicate count '0') = .ok 0 := by
  induction count with
  | zero => rfl
  | succ count ih =>
      have zero : digit? 16 '0' = some 0 := digit?_digitChar 0 (by decide)
      simpa [List.replicate_succ, readDigits, zero] using ih

theorem readDigits_hex (width : Nat) (small : number ≤ limit) :
    readDigits 16 limit 0 (hex width number) = .ok number := by
  rw [hex, List.leftpad, readDigits_append, readDigits_zeros]
  exact readDigits_toDigits small

theorem digit_of_readDigits {base value : Nat} (read : readDigits base limit value digits = .ok number) :
    ∀ c ∈ digits, ∃ digit, digit? base c = some digit := by
  induction digits generalizing value with
  | nil => simp
  | cons c rest ih =>
      rw [readDigits] at read
      cases found : digit? base c with
      | none => simp [found] at read
      | some digit =>
          simp only [found] at read
          split at read
          · exact List.forall_mem_cons.mpr ⟨⟨digit, found⟩, ih read⟩
          · cases read

theorem readUnsigned_of_unsigned {base : Nat} (nonempty : digits ≠ []) (unsigned : '+' ∉ digits) :
    readUnsigned base limit digits = readDigits base limit 0 digits := by
  unfold readUnsigned
  split
  · exact absurd rfl nonempty
  · simp at unsigned
  · simp at unsigned
  · rfl

theorem dropHexMark?_of_unmarked (lower : 'x' ∉ digits) (upper : 'X' ∉ digits) :
    dropHexMark? digits = none := by
  unfold dropHexMark?
  split
  · simp at lower
  · simp at upper
  · rfl

theorem not_mem_hex {c : Char} (width number : Nat) (other : digit? 16 c = none) : c ∉ hex width number := by
  intro member
  obtain ⟨digit, small, rfl⟩ := exists_digit_of_mem_hex member
  rw [digit?_digitChar digit small] at other
  cases other

end Numeral

theorem wordOfHex_hex (word : Word) : wordOfHex (Numeral.hex 4 word.toNat) = .ok word := by
  have bound : word.toNat ≤ 0xFFFF := Nat.le_of_lt_succ word.toNat_lt
  have unmarked : Numeral.dropHexMark? (Numeral.hex 4 word.toNat) = none := by
    apply Numeral.dropHexMark?_of_unmarked
    · exact Numeral.not_mem_hex 4 word.toNat (by decide)
    · exact Numeral.not_mem_hex 4 word.toNat (by decide)
  have unsigned : '+' ∉ Numeral.hex 4 word.toNat := Numeral.not_mem_hex 4 word.toNat (by decide)
  rw [wordOfHex, unmarked, Option.getD_none, Numeral.readUnsigned_of_unsigned hex_ne_nil unsigned,
    Numeral.readDigits_hex 4 bound]
  exact congrArg Except.ok UInt16.ofNat_toNat

theorem textOfBytes_bytesOfText (text : String) : textOfBytes (bytesOfText text) = .ok text := by
  have valid : String.fromUTF8? ⟨(bytesOfText text).toArray⟩ = some text := by
    simp only [bytesOfText, Array.toArray_toList, String.toUTF8_eq_toByteArray, String.fromUTF8?,
      dif_pos text.isValidUTF8]
    rfl
  rw [textOfBytes, valid]

theorem Text.words_of_solid {token : List Char} (solid : Solid token) : Text.words token = [token] := by
  have noBlank : ∀ c ∈ token, Text.isBlank c = false := fun c member => (solid.plain c member).noBlank
  have whole := BlankSeparated.run solid.nonempty noBlank (by simp) .nil
  rw [List.append_nil] at whole
  exact whole.words

theorem solid_hex (width number : Nat) : Solid (Numeral.hex width number) :=
  ⟨hex_ne_nil, fun _ member => plain_hex member⟩

theorem Solid.beforeComment {token : List Char} (solid : Solid token) : Text.beforeComment token = token :=
  Text.beforeComment_eq_iff.mpr (.plain fun mark => (solid.plain '#' mark).noComment rfl)

theorem Solid.not_mem_of_blank {token : List Char} {c : Char} (solid : Solid token) (blank : Text.isBlank c) :
    c ∉ token := by
  intro member
  rw [(solid.plain c member).noBlank] at blank
  cases blank

def hexLines (words : List Word) : List Char :=
  words.flatMap fun word => Numeral.hex 4 word.toNat ++ ['\n']

theorem lines_hexLines (words : List Word) :
    Lines (hexLines words) (words.map fun word => Numeral.hex 4 word.toNat) := by
  induction words with
  | nil => exact .nil
  | cons word rest ih =>
      have solid := solid_hex 4 word.toNat
      rw [hexLines, List.flatMap_cons, List.append_assoc, List.singleton_append, List.map_cons]
      apply Lines.feed (solid.not_mem_of_blank (by decide)) _ ih
      intro last
      exact solid.not_mem_of_blank (by decide) (List.mem_of_getLast? last)

theorem hexTokens_hexLines (words : List Word) :
    hexTokens (String.ofList (hexLines words)) = (words.map fun word => Numeral.hex 4 word.toNat).zipIdx := by
  have each : ∀ line ∈ (words.map fun word => Numeral.hex 4 word.toNat).zipIdx,
      ((Text.words (Text.beforeComment line.1)).map fun token => (token, line.2)) = [line] := by
    intro line member
    obtain ⟨word, _, same⟩ := List.mem_map.mp (List.fst_mem_of_mem_zipIdx member)
    have solid : Solid line.1 := same ▸ solid_hex 4 word.toNat
    rw [solid.beforeComment, Text.words_of_solid solid]
    rfl
  rw [hexTokens, String.toList_ofList, (lines_hexLines words).text_lines, List.flatMap_congr each]
  exact List.flatMap_singleton' _

theorem wordsOfHexText_hexLines (words : List Word) :
    wordsOfHexText (String.ofList (hexLines words)) = .ok words := by
  rw [wordsOfHexText, hexTokens_hexLines, mapM_eq_ok_iff, List.zipIdx_map, List.forall₂_map_left_iff]
  nth_rewrite 2 [← List.zipIdx_map_fst 0 words]
  rw [List.forall₂_map_right_iff, List.forall₂_same]
  intro pair _
  rw [mapError_eq_ok_iff]
  exact wordOfHex_hex pair.1

theorem ImageFormat.read_render (format : ImageFormat) (words : List Word) :
    format.read (format.render words) = .ok words := by
  cases format with
  | binary => exact wordsOfBytes_eq_ok_iff.mpr rfl
  | hex =>
      have text := textOfBytes_bytesOfText (String.ofList (hexLines words))
      exact bind_eq_ok_iff.mpr ⟨_, mapError_eq_ok_iff.mpr text, wordsOfHexText_hexLines words⟩

namespace Image

theorem load_eq_ok_iff {format : ImageFormat} {base : Word} {image : Image}
    (read : format.read bytes = .ok words) :
    load format base (.ok bytes) = .ok image ↔
      (base.toNat + words.length) % 4294967296 ≤ addressSpace ∧ image = ⟨base, words.toArray⟩ := by
  have loads : load format base (.ok bytes) =
      if limit ⟨base, words.toArray⟩ ≤ addressSpace then .ok ⟨base, words.toArray⟩ else .error .tooLarge := by
    simp only [load, Except.mapError, read, bind, Except.bind]
  rw [loads, limit_eq, List.size_toArray]
  split
  · next fits => simp [fits, eq_comm]
  · next large => simp [large]

theorem exists_load_render_iff (format : ImageFormat) (base : Word) (words : List Word) :
    (∃ image, load format base (.ok (format.render words)) = .ok image) ↔
      (base.toNat + words.length) % 4294967296 ≤ addressSpace := by
  simp only [load_eq_ok_iff (format.read_render words), exists_and_left, exists_eq, and_true]

theorem word?_ofList (base : Word) (words : List Word) (index : Nat) :
    word? ⟨base, words.toArray⟩ (base.toNat + index) = words[index]? := by
  simp [word?]

/-- The image has the words of an assembly where its statements are, and no others. -/
structure Holds (image : Image) (assembly : Assembly) (origin : Word) : Prop where
  complete : assembly.statements.length = assembly.words.length
  statements : ∀ (index : Nat) (stmt : Resolved) (word : Word), assembly.statements[index]? = some stmt →
    assembly.words[index]? = some word → image.word? stmt.address.toNat = some word
  unmapped : ∀ address, address < origin.toNat ∨ origin.toNat + assembly.words.length ≤ address →
    ¬ image.Mapped address

end Image

variable {source : String} {config : Config} {assembly : Assembly}

theorem Image.holds_of_assemble (assembled : assemble source config = .ok assembly) :
    Holds ⟨config.origin, assembly.words.toArray⟩ assembly config.origin := by
  obtain ⟨program, table, _, bound, substituted, encoded, _⟩ := assemble_eq_ok_iff.mp assembled
  refine ⟨(length_of_encodeStatements encoded).symm, ?_, ?_⟩
  · intro index stmt word found wordAt
    have inside : index < program.size := by
      rw [← Program.length_of_substitute substituted]
      exact (List.getElem?_eq_some_iff.mp found).1
    obtain ⟨result, _, resultAt, _, places, _⟩ :=
      Program.exists_statement_at bound substituted encoded (List.getElem?_eq_getElem inside)
    cases found.symm.trans resultAt
    rw [places.address, word?_ofList, wordAt]
  · intro address outside mapped
    have inside := mapped_iff.mp mapped
    simp only [List.size_toArray] at inside
    omega

/-- Files of both formats read back as the words that were written, and a file that was assembled
loads at its origin. The words of a file that loads have addresses of sixteen bits, unless there are
so many of them that the limit of the image wraps around. -/
theorem ImageFormat.render_reads_back (format : ImageFormat) (base : Word) (words : List Word)
    (bytes : List UInt8) :
    wordsOfBytes (render words .binary) = .ok words ∧
    (∃ text, textOfBytes (render words .hex) = .ok text ∧ wordsOfHexText text = .ok words) ∧
    ((∃ found, wordsOfBytes bytes = .ok found) ↔ bytes.length % 2 = 0) ∧
    (∀ found, wordsOfBytes bytes = .ok found → render found .binary = bytes) ∧
    ((∃ image, Image.load format base (.ok (format.render words)) = .ok image) ↔
      (base.toNat + words.length) % 4294967296 ≤ 65536) ∧
    (base.toNat + words.length < 4294967296 →
      ((∃ image, Image.load format base (.ok (format.render words)) = .ok image) ↔
        base.toNat + words.length ≤ 65536)) ∧
    ∀ source config assembly, assemble source config = .ok assembly →
      ∃ image, Image.load format config.origin (.ok (format.render assembly.words)) = .ok image ∧
        image.Holds assembly config.origin := by
  have loads := Image.exists_load_render_iff format base words
  refine ⟨wordsOfBytes_eq_ok_iff.mpr rfl, ⟨_, textOfBytes_bytesOfText _, wordsOfHexText_hexLines words⟩,
    exists_wordsOfBytes_iff, fun found read => wordsOfBytes_eq_ok_iff.mp read, loads, ?_, ?_⟩
  · intro short
    rw [loads, Nat.mod_eq_of_lt short, addressSpace]
  · intro source config assembly assembled
    have size := (isCode_of_assemble assembled).size
    refine ⟨_, (Image.load_eq_ok_iff (format.read_render assembly.words)).mpr ⟨?_, rfl⟩,
      Image.holds_of_assemble assembled⟩
    exact (Nat.mod_le _ _).trans (Nat.le_succ_of_le size)

/-- Two words at the end of memory, written as text. Two addresses further on they do not load. -/
theorem ImageFormat.render_reads_back_top :
    ∃ assembly image, assemble "NOP\nHALT" ⟨65533, .all⟩ = .ok assembly ∧
      assembly.words = [0xF000, 0xF001] ∧
      Image.load .hex 65533 (.ok (ImageFormat.hex.render assembly.words)) = .ok image ∧
      image.Holds assembly 65533 ∧
      ¬ ∃ image, Image.load .hex 65535 (.ok (ImageFormat.hex.render assembly.words)) = .ok image := by
  have runs : (assemble "NOP\nHALT" ⟨65533, .all⟩).toOption.map (·.words) = some [0xF000, 0xF001] := by
    decide +kernel
  obtain ⟨assembly, assembled, words⟩ := Option.map_eq_some_iff.mp runs
  rw [toOption_eq_some_iff] at assembled
  obtain ⟨_, _, _, _, _, fits, loads⟩ := ImageFormat.hex.render_reads_back 65535 assembly.words []
  obtain ⟨image, loaded, holds⟩ := loads _ _ _ assembled
  refine ⟨assembly, image, assembled, words, loaded, holds, ?_⟩
  rw [fits (by rw [words]; decide), words]
  decide

/-- A file of so many words that the limit wraps around to the base. It loads, and nearly all of its
words are outside the address space. -/
theorem Image.load_accepts_wrapped_limit :
    let words : List Word := List.replicate 4294967296 0
    ¬ (0 : Word).toNat + words.length ≤ 65536 ∧
      ∃ image, Image.load .binary 0 (.ok (ImageFormat.binary.render words)) = .ok image ∧
        image.limit = 0 ∧ image.Mapped 4294967295 := by
  intro words
  -- the list is never unfolded, only its length counts
  have length : words.length = 4294967296 := List.length_replicate
  have size : words.toArray.size = 4294967296 := by rw [List.size_toArray, length]
  refine ⟨by rw [length]; decide, ⟨0, words.toArray⟩, ?_, ?_, ?_⟩
  · refine (load_eq_ok_iff (ImageFormat.binary.read_render words)).mpr ⟨?_, rfl⟩
    rw [length]
    decide
  · rw [limit_eq, size]
    decide
  · rw [mapped_iff, size]
    decide

end Asm16
