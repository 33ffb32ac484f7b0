import Mathlib.Data.List.TakeWhile
import Asm16.Source.Token
import Asm16.Text.Blank
import Asm16.Text.Line

/-!
# Lexical rules

What the pieces of a source text are, said without the functions that cut it: its lines, the part
of a line before the comment, a text without the blanks around it, the tokens between separators,
numerals and identifiers. Each function returns exactly what its rule allows.
-/

namespace Asm16

variable {text line core rest token : List Char} {separator : Char}

/-- The pieces of a text between its separators. A text without separators is one piece. -/
inductive Pieces (separator : Char) : List Char → List (List Char) → Prop
  | last {piece : List Char} (free : separator ∉ piece) : Pieces separator piece [piece]
  | cons {piece rest : List Char} {pieces : List (List Char)} (free : separator ∉ piece)
      (tail : Pieces separator rest pieces) :
      Pieces separator (piece ++ separator :: rest) (piece :: pieces)

theorem Pieces.splitOn {pieces : List (List Char)} (cut : Pieces separator text pieces) :
    text.splitOn separator = pieces := by
  induction cut with
  | last free => exact List.splitOn_eq_singleton free
  | cons free _ ih => rw [List.splitOn_append_cons_self_of_not_mem free, ih]

theorem exists_pieces (separator : Char) (text : List Char) :
    ∃ pieces, Pieces separator text pieces := by
  by_cases member : separator ∈ text
  · obtain ⟨piece, rest, same, free⟩ := List.eq_append_cons_of_mem member
    have shorter : rest.length < text.length := by
      rw [same, List.length_append, List.length_cons]
      omega
    obtain ⟨pieces, tail⟩ := exists_pieces separator rest
    exact ⟨piece :: pieces, same ▸ .cons free tail⟩
  · exact ⟨[text], .last member⟩
termination_by text.length

theorem splitOn_eq_iff {pieces : List (List Char)} :
    text.splitOn separator = pieces ↔ Pieces separator text pieces := by
  constructor
  · intro cut
    obtain ⟨others, found⟩ := exists_pieces separator text
    rw [← cut, found.splitOn]
    exact found
  · exact Pieces.splitOn

/-- The lines of a text. Each ends with a line feed, or with a carriage return and a line feed; the
last one may end with the text instead, if it is not empty. -/
inductive Lines : List Char → List (List Char) → Prop
  | nil : Lines [] []
  | last {line : List Char} (nonempty : line ≠ []) (free : '\n' ∉ line) : Lines line [line]
  | feed {line rest : List Char} {lines : List (List Char)} (free : '\n' ∉ line)
      (noReturn : line.getLast? ≠ some '\r') (tail : Lines rest lines) :
      Lines (line ++ '\n' :: rest) (line :: lines)
  | returnFeed {line rest : List Char} {lines : List (List Char)} (free : '\n' ∉ line)
      (tail : Lines rest lines) : Lines (line ++ '\r' :: '\n' :: rest) (line :: lines)

namespace Text

theorem lines_nil : lines [] = [] := rfl

theorem lines_of_not_mem (nonempty : line ≠ []) (free : '\n' ∉ line) : lines line = [line] := by
  simp [lines, List.splitOn_eq_singleton free, nonempty]

theorem lines_append_cons (free : '\n' ∉ line) :
    lines (line ++ '\n' :: rest) = dropReturn line :: lines rest := by
  have pieces : rest.splitOn '\n' ≠ [] := List.splitOn_ne_nil _ _
  simp only [lines, List.splitOn_append_cons_self_of_not_mem free, List.dropLast_cons_of_ne_nil pieces,
    List.map_cons, List.getLast?_cons, List.cons_append]
  rw [List.getLast?_eq_some_getLast pieces]
  rfl

theorem dropReturn_append : dropReturn (line ++ ['\r']) = line := by
  simp [dropReturn]

theorem dropReturn_of_ne (noReturn : line.getLast? ≠ some '\r') : dropReturn line = line :=
  if_neg noReturn

end Text

theorem Lines.text_lines {lines : List (List Char)} (cut : Lines text lines) :
    Text.lines text = lines := by
  induction cut with
  | nil => exact Text.lines_nil
  | last nonempty free => exact Text.lines_of_not_mem nonempty free
  | feed free noReturn _ ih => rw [Text.lines_append_cons free, Text.dropReturn_of_ne noReturn, ih]
  | @returnFeed line rest lines free _ ih =>
      have freeReturn : '\n' ∉ line ++ ['\r'] := by simp [free]
      rw [show line ++ '\r' :: '\n' :: rest = (line ++ ['\r']) ++ '\n' :: rest by simp,
        Text.lines_append_cons freeReturn, Text.dropReturn_append, ih]

theorem Pieces.exists_lines {pieces : List (List Char)} (cut : Pieces '\n' text pieces) :
    ∃ lines, Lines text lines := by
  induction cut with
  | @last piece free =>
      by_cases empty : piece = []
      · exact ⟨[], empty ▸ .nil⟩
      · exact ⟨[piece], .last empty free⟩
  | @cons piece rest pieces free _ ih =>
      obtain ⟨lines, tail⟩ := ih
      by_cases ends : piece.getLast? = some '\r'
      · obtain ⟨line, same⟩ := List.getLast?_eq_some_iff.mp ends
        have freeLine : '\n' ∉ line := fun member => free (by simp [same, member])
        refine ⟨line :: lines, ?_⟩
        rw [same, List.append_assoc]
        exact .returnFeed freeLine tail
      · exact ⟨piece :: lines, .feed free ends tail⟩

theorem Text.lines_eq_iff {lines : List (List Char)} : Text.lines text = lines ↔ Lines text lines := by
  constructor
  · intro same
    obtain ⟨pieces, cut⟩ := exists_pieces '\n' text
    obtain ⟨others, found⟩ := cut.exists_lines
    rw [← same, found.text_lines]
    exact found
  · exact Lines.text_lines

theorem Lines.not_mem {lines : List (List Char)} (cut : Lines text lines) :
    ∀ line ∈ lines, '\n' ∉ line := by
  induction cut with
  | nil => simp
  | last _ free => simpa using free
  | feed free _ _ ih => exact List.forall_mem_cons.mpr ⟨free, ih⟩
  | returnFeed free _ ih => exact List.forall_mem_cons.mpr ⟨free, ih⟩

theorem Text.not_mem_of_mem_lines (member : line ∈ Text.lines text) : '\n' ∉ line :=
  (Text.lines_eq_iff.mp rfl).not_mem line member

theorem lines_intercalate {lines : List (List Char)} (nonempty : ∀ line ∈ lines, line ≠ [])
    (free : ∀ line ∈ lines, '\n' ∉ line) (noReturn : ∀ line ∈ lines, line.getLast? ≠ some '\r') :
    Lines (['\n'].intercalate lines) lines := by
  induction lines with
  | nil => exact .nil
  | cons line lines ih =>
      obtain ⟨_, laterNonempty⟩ := List.forall_mem_cons.mp nonempty
      obtain ⟨lineFree, laterFree⟩ := List.forall_mem_cons.mp free
      obtain ⟨lineNoReturn, laterNoReturn⟩ := List.forall_mem_cons.mp noReturn
      cases lines with
      | nil =>
          rw [List.intercalate_singleton]
          exact .last (nonempty line List.mem_cons_self) lineFree
      | cons second lines =>
          rw [List.intercalate_cons_cons, List.append_assoc]
          exact .feed lineFree lineNoReturn (ih laterNonempty laterFree laterNoReturn)

/-- The part of a line before its first comment mark. -/
inductive Uncommented : List Char → List Char → Prop
  | plain {line : List Char} (free : '#' ∉ line) : Uncommented line line
  | comment {kept rest : List Char} (free : '#' ∉ kept) : Uncommented (kept ++ '#' :: rest) kept

theorem ne_of_not_mem {mark : Char} (free : mark ∉ text) : ∀ c ∈ text, decide (c ≠ mark) = true := by
  intro c member
  exact decide_eq_true fun same => free (same ▸ member)

theorem takeWhile_append_cons {kept : List Char} {mark : Char} (free : mark ∉ kept) :
    (kept ++ mark :: rest).takeWhile (· ≠ mark) = kept := by
  rw [List.takeWhile_append_of_pos (ne_of_not_mem free)]
  simp

theorem takeWhile_of_not_mem {mark : Char} (free : mark ∉ text) :
    text.takeWhile (· ≠ mark) = text :=
  List.takeWhile_eq_self_iff.mpr (ne_of_not_mem free)

theorem Text.beforeComment_eq_iff {kept : List Char} :
    Text.beforeComment line = kept ↔ Uncommented line kept := by
  constructor
  · intro same
    by_cases member : '#' ∈ line
    · obtain ⟨before, rest, cut, free⟩ := List.eq_append_cons_of_mem member
      subst cut
      rw [← same, Text.beforeComment, takeWhile_append_cons free]
      exact .comment free
    · rw [← same, Text.beforeComment, takeWhile_of_not_mem member]
      exact .plain member
  · intro cut
    cases cut with
    | plain free => exact takeWhile_of_not_mem free
    | comment free => exact takeWhile_append_cons free

theorem Pieces.mem_first {c : Char} {before after piece : List Char} {pieces : List (List Char)}
    (cut : Pieces separator (before ++ c :: after) (piece :: pieces)) (free : separator ∉ before)
    (other : c ≠ separator) : c ∈ piece := by
  have first : (before ++ c :: after).takeWhile (· ≠ separator) = piece := by
    generalize before ++ c :: after = text at cut
    cases cut with
    | last free => exact takeWhile_of_not_mem free
    | cons free => exact takeWhile_append_cons free
  rw [← first, List.takeWhile_append_of_pos (ne_of_not_mem free),
    List.takeWhile_cons_of_pos (by simpa using other)]
  simp

theorem Pieces.exists_piece {c : Char} {pieces : List (List Char)} (cut : Pieces separator text pieces)
    (inside : c ∈ text) (other : c ≠ separator) : ∃ piece ∈ pieces, c ∈ piece := by
  induction cut with
  | last => exact ⟨_, List.mem_singleton_self _, inside⟩
  | cons _ _ ih =>
      rcases List.mem_append.mp inside with here | there
      · exact ⟨_, List.mem_cons_self, here⟩
      · obtain ⟨piece, member, found⟩ := ih (List.mem_of_ne_of_mem other there)
        exact ⟨piece, List.mem_cons_of_mem _ member, found⟩

/-- A text without the blanks around it. -/
structure Trimmed (text core : List Char) : Prop where
  around : ∃ before after, text = before ++ core ++ after ∧
    (∀ c ∈ before, Text.isBlank c) ∧ ∀ c ∈ after, Text.isBlank c
  first : ∀ c ∈ core.head?, Text.isBlank c = false
  last : ∀ c ∈ core.getLast?, Text.isBlank c = false

theorem dropWhile_append {before : List Char} {property : Char → Bool}
    (inside : ∀ c ∈ before, property c) (edge : ∀ c ∈ rest.head?, property c = false) :
    (before ++ rest).dropWhile property = rest := by
  rw [List.dropWhile_append_of_pos inside]
  cases rest with
  | nil => rfl
  | cons c rest => exact List.dropWhile_cons_of_neg (by simp [edge c rfl])

theorem head?_dropWhile {property : Char → Bool} :
    ∀ c ∈ (text.dropWhile property).head?, property c = false := by
  intro c member
  have edge := List.head?_dropWhile_not property text
  rw [Option.mem_def.mp member] at edge
  exact edge

theorem Trimmed.text_trim (trimmed : Trimmed text core) : Text.trim text = core := by
  obtain ⟨before, after, same, blankBefore, blankAfter⟩ := trimmed.around
  have kept : (core ++ after).reverse.dropWhile Text.isBlank = core.reverse := by
    rw [List.reverse_append]
    apply dropWhile_append
    · simpa using blankAfter
    · simpa using trimmed.last
  rw [same, Text.trim, List.append_assoc]
  cases core with
  | nil =>
      have blank : ∀ c ∈ before ++ after, Text.isBlank c := by
        intro c member
        exact (List.mem_append.mp member).elim (blankBefore c) (blankAfter c)
      rw [List.nil_append, List.dropWhile_eq_nil_iff.mpr blank]
      rfl
  | cons first core =>
      have starts : ∀ c ∈ (first :: core ++ after).head?, Text.isBlank c = false := trimmed.first
      rw [dropWhile_append blankBefore starts, kept, List.reverse_reverse]

theorem exists_blanks_behind_trim (text : List Char) :
    ∃ after, text.dropWhile Text.isBlank = Text.trim text ++ after ∧ ∀ c ∈ after, Text.isBlank c := by
  refine ⟨((text.dropWhile Text.isBlank).reverse.takeWhile Text.isBlank).reverse, ?_, ?_⟩
  · rw [Text.trim, ← List.reverse_append, List.takeWhile_append_dropWhile, List.reverse_reverse]
  · intro c member
    exact List.mem_takeWhile_imp (List.mem_reverse.mp member)

theorem trimmed_trim (text : List Char) : Trimmed text (Text.trim text) := by
  obtain ⟨after, kept, blankAfter⟩ := exists_blanks_behind_trim text
  refine ⟨⟨text.takeWhile Text.isBlank, after, ?_, ?_, blankAfter⟩, ?_, ?_⟩
  · rw [List.append_assoc, ← kept, List.takeWhile_append_dropWhile]
  · exact fun c member => List.mem_takeWhile_imp member
  · intro c member
    have edge : ∀ c ∈ (text.dropWhile Text.isBlank).head?, Text.isBlank c = false := head?_dropWhile
    apply edge c
    rw [kept, List.head?_append, Option.mem_def.mp member]
    rfl
  · rw [Text.trim, List.getLast?_reverse]
    exact head?_dropWhile

theorem Text.trim_eq_iff : Text.trim text = core ↔ Trimmed text core :=
  ⟨fun same => same ▸ trimmed_trim text, Trimmed.text_trim⟩

theorem Trimmed.mem_of_mem {c : Char} (trimmed : Trimmed text core) (inside : c ∈ text)
    (visible : Text.isBlank c = false) : c ∈ core := by
  obtain ⟨before, after, same, blankBefore, blankAfter⟩ := trimmed.around
  rw [same, List.mem_append, List.mem_append] at inside
  rcases inside with (first | core) | last
  · exact absurd (blankBefore c first) (by simp [visible])
  · exact core
  · exact absurd (blankAfter c last) (by simp [visible])

theorem Trimmed.mem_text {c : Char} (trimmed : Trimmed text core) (inside : c ∈ core) : c ∈ text := by
  obtain ⟨before, after, same, _⟩ := trimmed.around
  rw [same]
  simp [inside]

/-- The runs of characters between blanks. A run ends at a blank or with the text. -/
inductive BlankSeparated : List Char → List (List Char) → Prop
  | nil : BlankSeparated [] []
  | blank {c : Char} {rest : List Char} {tokens : List (List Char)} (blank : Text.isBlank c)
      (tail : BlankSeparated rest tokens) : BlankSeparated (c :: rest) tokens
  | run {token rest : List Char} {tokens : List (List Char)} (nonempty : token ≠ [])
      (solid : ∀ c ∈ token, Text.isBlank c = false) (ends : ∀ c ∈ rest.head?, Text.isBlank c)
      (tail : BlankSeparated rest tokens) : BlankSeparated (token ++ rest) (token :: tokens)

theorem Text.words_blank {c : Char} (blank : isBlank c) : words (c :: rest) = words rest := by
  simp [words, List.splitOnP_cons_eq_if_modifyHead, blank]

theorem Text.words_append (nonempty : token ≠ []) (solid : ∀ c ∈ token, isBlank c = false)
    (ends : ∀ c ∈ rest.head?, isBlank c) : words (token ++ rest) = token :: words rest := by
  cases rest with
  | nil => simp [words, List.splitOnP_eq_singleton solid, nonempty]
  | cons c rest =>
      have blank : isBlank c := ends c rfl
      rw [words_blank blank, words, List.splitOnP_append_cons_of_forall_mem solid c blank,
        List.filter_cons_of_pos (by simp [nonempty])]
      rfl

theorem BlankSeparated.words {tokens : List (List Char)} (cut : BlankSeparated text tokens) :
    Text.words text = tokens := by
  induction cut with
  | nil => rfl
  | blank blank _ ih => rw [Text.words_blank blank, ih]
  | run nonempty solid ends _ ih => rw [Text.words_append nonempty solid ends, ih]

theorem exists_blankSeparated (text : List Char) : ∃ tokens, BlankSeparated text tokens := by
  match text with
  | [] => exact ⟨[], .nil⟩
  | c :: rest =>
      by_cases blank : Text.isBlank c
      · obtain ⟨tokens, tail⟩ := exists_blankSeparated rest
        exact ⟨tokens, .blank blank tail⟩
      · -- The run goes up to the next blank.
        have shorter : (rest.dropWhile (!Text.isBlank ·)).length < rest.length + 1 :=
          Nat.lt_succ_of_le (List.dropWhile_suffix _).length_le
        obtain ⟨tokens, tail⟩ := exists_blankSeparated (rest.dropWhile (!Text.isBlank ·))
        have solid : ∀ other ∈ c :: rest.takeWhile (!Text.isBlank ·), Text.isBlank other = false := by
          refine List.forall_mem_cons.mpr ⟨by simpa using blank, fun other member => ?_⟩
          simpa using List.mem_takeWhile_imp member
        have ends : ∀ other ∈ (rest.dropWhile (!Text.isBlank ·)).head?, Text.isBlank other := by
          intro other member
          simpa using head?_dropWhile other member
        have cut := BlankSeparated.run (List.cons_ne_nil _ _) solid ends tail
        rw [List.cons_append, List.takeWhile_append_dropWhile] at cut
        exact ⟨_, cut⟩
termination_by text.length

theorem Text.words_eq_iff {tokens : List (List Char)} :
    Text.words text = tokens ↔ BlankSeparated text tokens := by
  refine ⟨fun same => ?_, BlankSeparated.words⟩
  obtain ⟨others, cut⟩ := exists_blankSeparated text
  rw [← same, cut.words]
  exact cut

/-- An optional sign and at least one digit, with the number that they denote. -/
inductive Decimal : List Char → Int → Prop
  | plain {digits : List Char} (nonempty : digits ≠ []) (all : ∀ c ∈ digits, c.isDigit) :
      Decimal digits (Nat.ofDigitChars 10 digits 0)
  | plus {digits : List Char} (nonempty : digits ≠ []) (all : ∀ c ∈ digits, c.isDigit) :
      Decimal ('+' :: digits) (Nat.ofDigitChars 10 digits 0)
  | minus {digits : List Char} (nonempty : digits ≠ []) (all : ∀ c ∈ digits, c.isDigit) :
      Decimal ('-' :: digits) (-(Nat.ofDigitChars 10 digits 0 : Int))

theorem Numeral.natural?_eq_some_iff {digits : List Char} {number : Nat} :
    Numeral.natural? digits = some number ↔
      digits ≠ [] ∧ (∀ c ∈ digits, c.isDigit) ∧ Nat.ofDigitChars 10 digits 0 = number := by
  rw [Numeral.natural?]
  split
  · rename_i bad
    simp only [Bool.or_eq_true, List.isEmpty_iff, Bool.not_eq_true', List.all_eq_false] at bad
    constructor
    · intro read
      cases read
    · intro ⟨nonempty, all, _⟩
      rcases bad with empty | ⟨c, member, noDigit⟩
      · exact absurd empty nonempty
      · exact absurd (all c member) noDigit
  · rename_i good
    simp only [Bool.or_eq_true, List.isEmpty_iff, Bool.not_eq_true', List.all_eq_false, not_or,
      not_exists, not_and, not_not] at good
    rw [Option.some.injEq]
    exact ⟨fun value => ⟨good.1, good.2, value⟩, fun read => read.2.2⟩

theorem Numeral.decimal?_eq_some_iff {number : Int} :
    Numeral.decimal? token = some number ↔ Decimal token number := by
  constructor
  · intro read
    unfold Numeral.decimal? at read
    split at read
    all_goals
      obtain ⟨natural, digits, same⟩ := Option.map_eq_some_iff.mp read
      obtain ⟨nonempty, all, value⟩ := Numeral.natural?_eq_some_iff.mp digits
      subst same
      subst value
    · exact .minus nonempty all
    · exact .plus nonempty all
    · exact .plain nonempty all
  · intro decimal
    cases decimal with
    | plain nonempty all =>
        -- A digit is no sign, so the last branch reads the token.
        rw [Numeral.decimal?]
        · rw [Numeral.natural?_eq_some_iff.mpr ⟨nonempty, all, rfl⟩]
          rfl
        · intro digits same
          subst same
          exact absurd (all '-' List.mem_cons_self) (by decide)
        · intro digits same
          subst same
          exact absurd (all '+' List.mem_cons_self) (by decide)
    | plus nonempty all =>
        rw [Numeral.decimal?, Numeral.natural?_eq_some_iff.mpr ⟨nonempty, all, rfl⟩]
        rfl
    | minus nonempty all =>
        rw [Numeral.decimal?, Numeral.natural?_eq_some_iff.mpr ⟨nonempty, all, rfl⟩]
        rfl

/-- A letter, an underscore or a dot, and then any number of these and digits. -/
inductive Identifier : List Char → Prop
  | mk {first : Char} {rest : List Char} (starts : first.isAlpha ∨ first = '_' ∨ first = '.')
      (continues : ∀ c ∈ rest, c.isAlpha ∨ c.isDigit ∨ c = '_' ∨ c = '.') : Identifier (first :: rest)

theorem Token.isIdentifier_iff : Token.isIdentifier token ↔ Identifier token := by
  cases token with
  | nil => exact iff_of_false (by decide) (fun identifier => by cases identifier)
  | cons first rest =>
      simp only [isIdentifier, startsIdentifier, continuesIdentifier, Char.isAlphanum,
        Bool.and_eq_true, Bool.or_eq_true, beq_iff_eq, List.all_eq_true, or_assoc]
      constructor
      · intro ⟨starts, continues⟩
        exact ⟨starts, continues⟩
      · intro ⟨starts, continues⟩
        exact ⟨starts, continues⟩

theorem Identifier.not_decimal {number : Int} (identifier : Identifier token) :
    ¬ Decimal token number := by
  obtain ⟨starts, _⟩ := identifier
  intro decimal
  cases decimal with
  | plain _ all =>
      have digit := all _ List.mem_cons_self
      rcases starts with letter | same | same
      · delta Char.isAlpha Char.isUpper Char.isLower at letter
        simp only [Char.isDigit, Bool.or_eq_true, Bool.and_eq_true, decide_eq_true_eq] at letter digit
        grind
      · exact absurd (same ▸ digit) (by decide)
      · exact absurd (same ▸ digit) (by decide)
  | plus => revert starts; decide
  | minus => revert starts; decide

end Asm16
