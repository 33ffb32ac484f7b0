import Mathlib.Algebra.Order.Ring.Int
import Mathlib.Data.List.Forall2
import Asm16.Isa.Field

namespace Asm16

theorem Word.eq_of_testBit {left right : Word}
    (same : ∀ position, left.toNat.testBit position = right.toNat.testBit position) :
    left = right :=
  UInt16.toNat_inj.mp (Nat.eq_of_testBit_eq same)

theorem Word.or_and_distrib (left right mask : Word) :
    (left ||| right) &&& mask = (left &&& mask) ||| (right &&& mask) := by
  apply Word.eq_of_testBit
  intro position
  simp [Bool.and_or_distrib_right]

theorem Word.and_or_distrib (word left right : Word) :
    word &&& (left ||| right) = (word &&& left) ||| (word &&& right) := by
  apply Word.eq_of_testBit
  intro position
  simp [Bool.and_or_distrib_left]

/-- The bits of several words together. -/
def Word.union (words : List Word) : Word :=
  words.foldr (· ||| ·) 0

theorem Word.foldl_or (words : List Word) (start : Word) :
    words.foldl (· ||| ·) start = start ||| Word.union words := by
  induction words generalizing start with
  | nil => simp [Word.union]
  | cons word rest ih => simp [ih, Word.union, UInt16.or_assoc]

theorem Word.union_and_eq_zero_iff {words : List Word} {mask : Word} :
    Word.union words &&& mask = 0 ↔ ∀ word ∈ words, word &&& mask = 0 := by
  induction words with
  | nil => simp [Word.union]
  | cons word rest ih =>
      simp only [Word.union, List.foldr_cons, Word.or_and_distrib, UInt16.or_eq_zero_iff,
        List.forall_mem_cons]
      exact and_congr_right fun _ => ih

namespace Field

/-- The field has a bit and lies inside the word. -/
abbrev InWord (field : Field) : Prop :=
  0 < field.width ∧ field.lo + field.width ≤ 16

/-- The bits of the field in a word, as a number without a sign. -/
def bits (field : Field) (word : Word) : Nat :=
  word.toNat / 2 ^ field.lo % 2 ^ field.width

/-- The number that bits of the field stand for. -/
def ofBits (field : Field) (raw : Nat) : Int :=
  match field.kind with
  | .signed => Int.bmod raw (2 ^ field.width)
  | .reg | .unsigned => raw

variable {field : Field} {word : Word} {value : Int} {raw : Nat}

theorem mask_eq (field : Field) :
    field.mask = UInt16.ofNat ((2 ^ field.width - 1) * 2 ^ field.lo) := by
  rw [mask, Nat.shiftLeft_eq, Nat.one_shiftLeft]

theorem insert_eq (field : Field) (value : Int) :
    field.insert value = UInt16.ofNat ((value % 2 ^ field.width).toNat * 2 ^ field.lo) := by
  rw [insert, Nat.shiftLeft_eq, Nat.one_shiftLeft, Nat.cast_pow, Nat.cast_ofNat]

theorem extract_eq_ofBits (field : Field) (word : Word) :
    field.extract word = field.ofBits (field.bits word) := by
  have shifted : (word.toNat >>> field.lo) % (1 <<< field.width) = field.bits word := by
    rw [Nat.shiftRight_eq_div_pow, Nat.one_shiftLeft, bits]
  cases shape : field.kind with
  | signed =>
      simp only [extract, ofBits, shape]
      rw [shifted, Nat.one_shiftLeft]
  | reg | unsigned =>
      simp only [extract, ofBits, shape]
      rw [shifted]

theorem fits_signed_iff (signed : field.kind = .signed) :
    field.Fits value ↔ -2 ^ (field.width - 1) ≤ value ∧ value < 2 ^ (field.width - 1) := by
  simp only [Fits, least, greatest, signed, Nat.one_shiftLeft, Nat.cast_pow, Nat.cast_ofNat]
  omega

theorem fits_unsigned_iff (unsigned : field.kind ≠ .signed) :
    field.Fits value ↔ 0 ≤ value ∧ value < 2 ^ field.width := by
  cases shape : field.kind with
  | signed => exact absurd shape unsigned
  | reg | unsigned =>
      simp only [Fits, least, greatest, shape, Nat.one_shiftLeft, Nat.cast_pow, Nat.cast_ofNat]
      omega

theorem bits_lt (field : Field) (word : Word) : field.bits word < 2 ^ field.width :=
  Nat.mod_lt _ (Nat.two_pow_pos _)

theorem testBit_bits (field : Field) (word : Word) (position : Nat) :
    (field.bits word).testBit position =
      (decide (position < field.width) && word.toNat.testBit (position + field.lo)) := by
  rw [bits, Nat.testBit_mod_two_pow, Nat.testBit_div_two_pow]

theorem toNat_ofNat_shifted (inside : field.InWord) (bound : raw < 2 ^ field.width) :
    (UInt16.ofNat (raw * 2 ^ field.lo)).toNat = raw * 2 ^ field.lo := by
  apply UInt16.toNat_ofNat_of_lt'
  calc raw * 2 ^ field.lo < 2 ^ field.width * 2 ^ field.lo :=
        Nat.mul_lt_mul_of_pos_right bound (Nat.two_pow_pos _)
    _ = 2 ^ (field.lo + field.width) := by rw [Nat.pow_add, Nat.mul_comm]
    _ ≤ 2 ^ 16 := Nat.pow_le_pow_right (by decide) inside.2

theorem testBit_mask (inside : field.InWord) (position : Nat) :
    field.mask.toNat.testBit position =
      decide (field.lo ≤ position ∧ position < field.lo + field.width) := by
  have bound : 2 ^ field.width - 1 < 2 ^ field.width :=
    Nat.sub_lt (Nat.two_pow_pos _) Nat.one_pos
  rw [mask_eq, toNat_ofNat_shifted inside bound, Nat.testBit_mul_two_pow, Nat.testBit_two_pow_sub_one,
    ← Bool.decide_and]
  congr 1
  rw [eq_iff_iff]
  omega

theorem toNat_emod_lt (field : Field) (value : Int) :
    (value % 2 ^ field.width).toNat < 2 ^ field.width := by
  have positive : (0 : Int) < 2 ^ field.width := Int.pow_pos (by decide)
  rw [Int.toNat_lt (Int.emod_nonneg value positive.ne'), Nat.cast_pow, Nat.cast_ofNat]
  exact Int.emod_lt_of_pos value positive

theorem testBit_insert (inside : field.InWord) (value : Int) (position : Nat) :
    (field.insert value).toNat.testBit position =
      (decide (field.lo ≤ position) &&
        (value % 2 ^ field.width).toNat.testBit (position - field.lo)) := by
  rw [insert_eq, toNat_ofNat_shifted inside (toNat_emod_lt field value), Nat.testBit_mul_two_pow]

theorem insert_and_mask (inside : field.InWord) (value : Int) :
    field.insert value &&& field.mask = field.insert value := by
  apply Word.eq_of_testBit
  intro position
  rw [UInt16.toNat_and, Nat.testBit_and, testBit_mask inside, testBit_insert inside]
  by_cases above : field.lo + field.width ≤ position
  · have high : (value % 2 ^ field.width).toNat < 2 ^ (position - field.lo) :=
      lt_of_lt_of_le (toNat_emod_lt field value) (Nat.pow_le_pow_right (by decide) (by omega))
    simp [Nat.testBit_lt_two_pow high]
  · by_cases below : field.lo ≤ position
    · simp [below, show position < field.lo + field.width by omega]
    · simp [below]

theorem bits_and_mask (inside : field.InWord) (word : Word) :
    field.bits (word &&& field.mask) = field.bits word := by
  apply Nat.eq_of_testBit_eq
  intro position
  rw [testBit_bits, testBit_bits, UInt16.toNat_and, Nat.testBit_and, testBit_mask inside]
  by_cases low : position < field.width
  · simp [low, show position + field.lo < field.lo + field.width by omega]
  · simp [low]

theorem extract_and_mask (inside : field.InWord) (word : Word) :
    field.extract (word &&& field.mask) = field.extract word := by
  rw [extract_eq_ofBits, extract_eq_ofBits, bits_and_mask inside]

theorem bits_insert (inside : field.InWord) (value : Int) :
    field.bits (field.insert value) = (value % 2 ^ field.width).toNat := by
  apply Nat.eq_of_testBit_eq
  intro position
  rw [testBit_bits, testBit_insert inside]
  by_cases low : position < field.width
  · simp [low]
  · have high : (value % 2 ^ field.width).toNat < 2 ^ position :=
      lt_of_lt_of_le (toNat_emod_lt field value) (Nat.pow_le_pow_right (by decide) (by omega))
    simp [low, Nat.testBit_lt_two_pow high]

theorem two_pow_width (inside : field.InWord) :
    (2 : Int) ^ field.width = 2 * 2 ^ (field.width - 1) := by
  rw [← pow_succ', Nat.sub_add_cancel inside.1]

theorem ofBits_fits (inside : field.InWord) (bound : raw < 2 ^ field.width) :
    field.Fits (field.ofBits raw) := by
  have half := two_pow_width inside
  have below : (raw : Int) < 2 ^ field.width := mod_cast bound
  cases shape : field.kind with
  | signed =>
      have lower := @Int.le_bmod raw (2 ^ field.width) (Nat.two_pow_pos _)
      have upper := @Int.bmod_lt raw (2 ^ field.width) (Nat.two_pow_pos _)
      rw [Nat.cast_pow, Nat.cast_ofNat] at lower upper
      rw [fits_signed_iff shape]
      simp only [ofBits, shape]
      omega
  | reg | unsigned =>
      rw [fits_unsigned_iff (by simp [shape])]
      simp only [ofBits, shape]
      omega

theorem extract_fits (inside : field.InWord) (word : Word) : field.Fits (field.extract word) := by
  rw [extract_eq_ofBits]
  exact ofBits_fits inside (bits_lt field word)

theorem ofBits_emod (inside : field.InWord) (fits : field.Fits value) :
    field.ofBits (value % 2 ^ field.width).toNat = value := by
  have half := two_pow_width inside
  have nonnegative : 0 ≤ value % 2 ^ field.width := Int.emod_nonneg _ (pow_ne_zero _ (by decide))
  cases shape : field.kind with
  | signed =>
      rw [fits_signed_iff shape] at fits
      simp only [ofBits, shape, Int.toNat_of_nonneg nonnegative]
      have wraps := Int.emod_bmod value (2 ^ field.width)
      rw [Nat.cast_pow, Nat.cast_ofNat] at wraps
      rw [wraps]
      apply Int.bmod_eq_of_le <;> rw [Nat.cast_pow, Nat.cast_ofNat] <;> omega
  | reg | unsigned =>
      rw [fits_unsigned_iff (by simp [shape])] at fits
      simp only [ofBits, shape, Int.toNat_of_nonneg nonnegative]
      exact Int.emod_eq_of_lt fits.1 fits.2

theorem extract_insert (inside : field.InWord) (fits : field.Fits value) :
    field.extract (field.insert value) = value := by
  rw [extract_eq_ofBits, bits_insert inside, ofBits_emod inside fits]

theorem extract_insert_eq_iff (inside : field.InWord) :
    field.extract (field.insert value) = value ↔ field.Fits value := by
  constructor
  · intro same
    rw [← same]
    exact extract_fits inside (field.insert value)
  · exact extract_insert inside

theorem ofBits_emod_width (bound : raw < 2 ^ field.width) :
    (field.ofBits raw % 2 ^ field.width).toNat = raw := by
  have small : (raw : Int) % 2 ^ field.width = raw :=
    Int.emod_eq_of_lt (Int.natCast_nonneg raw) (mod_cast bound)
  cases shape : field.kind with
  | signed =>
      simp only [ofBits, shape]
      have wraps := @Int.bmod_emod raw (2 ^ field.width)
      rw [Nat.cast_pow, Nat.cast_ofNat] at wraps
      rw [wraps, small, Int.toNat_natCast]
  | reg | unsigned => simp only [ofBits, shape, small, Int.toNat_natCast]

theorem insert_extract (inside : field.InWord) (word : Word) :
    field.insert (field.extract word) = word &&& field.mask := by
  apply Word.eq_of_testBit
  intro position
  rw [testBit_insert inside, extract_eq_ofBits, ofBits_emod_width (bits_lt field word),
    testBit_bits, UInt16.toNat_and, Nat.testBit_and, testBit_mask inside]
  by_cases below : field.lo ≤ position
  · have back : position - field.lo + field.lo = position := Nat.sub_add_cancel below
    have same : position - field.lo < field.width ↔ position < field.lo + field.width := by omega
    simp [below, back, same, Bool.and_comm]
  · simp [below]

theorem insert_and_eq_zero {other : Word} (inside : field.InWord) (apart : field.mask &&& other = 0)
    (value : Int) : field.insert value &&& other = 0 := by
  rw [← insert_and_mask inside, UInt16.and_assoc, apart, UInt16.and_zero]

theorem extract_or_of_apart {other : Word} (inside : field.InWord) (apart : other &&& field.mask = 0) :
    field.extract (word ||| other) = field.extract word := by
  rw [← extract_and_mask inside, Word.or_and_distrib, apart, UInt16.or_zero, extract_and_mask inside]

variable {fields : List Field} {numbers : List Int}

/-- The word whose fields hold the numbers. -/
def pack (fields : List Field) (numbers : List Int) : Word :=
  Word.union (List.zipWith insert fields numbers)

theorem pack_cons (field : Field) (fields : List Field) (number : Int) (numbers : List Int) :
    pack (field :: fields) (number :: numbers) = field.insert number ||| pack fields numbers := rfl

theorem pack_and_eq_zero {other : Word} (inside : ∀ field ∈ fields, field.InWord)
    (apart : ∀ field ∈ fields, field.mask &&& other = 0) : pack fields numbers &&& other = 0 := by
  induction fields generalizing numbers with
  | nil => simp [pack, Word.union]
  | cons field rest ih =>
      cases numbers with
      | nil => simp [pack, Word.union]
      | cons number numbers =>
          have head := insert_and_eq_zero (inside field (by simp)) (apart field (by simp)) number
          have tail : pack rest numbers &&& other = 0 :=
            ih (fun field member => inside field (by simp [member]))
              (fun field member => apart field (by simp [member]))
          rw [pack_cons, Word.or_and_distrib, head, tail, UInt16.or_zero]

theorem map_extract_pack (inside : ∀ field ∈ fields, field.InWord)
    (disjoint : fields.Pairwise fun left right => left.mask &&& right.mask = 0)
    (fits : List.Forall₂ Fits fields numbers) :
    fields.map (extract · (pack fields numbers)) = numbers := by
  induction fits with
  | nil => rfl
  | @cons field number fields numbers fieldFits _ ih =>
      obtain ⟨apart, restDisjoint⟩ := List.pairwise_cons.mp disjoint
      have fieldInside := inside field (by simp)
      have restInside : ∀ field ∈ fields, field.InWord :=
        fun field member => inside field (by simp [member])
      have head : field.extract (pack (field :: fields) (number :: numbers)) = number := by
        have outside : pack fields numbers &&& field.mask = 0 :=
          pack_and_eq_zero restInside fun other member => by rw [UInt16.and_comm, apart other member]
        rw [pack_cons, extract_or_of_apart fieldInside outside, extract_insert fieldInside fieldFits]
      have tail : fields.map (extract · (pack (field :: fields) (number :: numbers))) =
          fields.map (extract · (pack fields numbers)) := by
        apply List.map_congr_left
        intro other member
        rw [pack_cons, UInt16.or_comm]
        exact extract_or_of_apart (restInside other member)
          (insert_and_eq_zero fieldInside (apart other member) number)
      rw [List.map_cons, head, tail, ih restInside restDisjoint]

theorem pack_map_extract (inside : ∀ field ∈ fields, field.InWord) (word : Word) :
    pack fields (fields.map (extract · word)) = word &&& Word.union (fields.map mask) := by
  induction fields with
  | nil => simp [pack, Word.union]
  | cons field rest ih =>
      have tail := ih fun field member => inside field (by simp [member])
      rw [List.map_cons, pack_cons, insert_extract (inside field (by simp)), tail,
        ← Word.and_or_distrib]
      rfl

/-- What a field inside the word does with numbers and words. Other fields that have no bit in common
with it do not disturb it, whatever they hold. -/
theorem insert_extract_laws (field : Field) (inside : field.InWord) (value : Int) (word : Word) :
    field.insert value &&& ~~~field.mask = 0 ∧
    (field.extract (field.insert value) = value ↔ field.Fits value) ∧
    field.Fits (field.extract word) ∧
    field.insert (field.extract word) = word &&& field.mask ∧
    (∀ other : Word, other &&& field.mask = 0 →
      field.extract (field.insert value ||| other) = field.extract (field.insert value)) ∧
    ∀ (others : List Field) (numbers : List Int),
      (∀ other ∈ others, other.InWord ∧ other.mask &&& field.mask = 0) →
      field.extract (field.insert value ||| pack others numbers) = field.extract (field.insert value) := by
  have outside : field.mask &&& ~~~field.mask = 0 := UInt16.and_not_self
  refine ⟨insert_and_eq_zero inside outside value, extract_insert_eq_iff inside, extract_fits inside word,
    insert_extract inside word, fun other apart => extract_or_of_apart inside apart, ?_⟩
  intro others numbers disjoint
  apply extract_or_of_apart inside
  exact pack_and_eq_zero (fun other member => (disjoint other member).1)
    (fun other member => (disjoint other member).2)

/-- A field of one bit with a sign, at the top of the word, beside a field of all the other bits. -/
theorem insert_extract_laws_top :
    let field : Field := ⟨"sign", 15, 1, .signed⟩
    let rest : Field := ⟨"rest", 0, 15, .unsigned⟩
    field.InWord ∧ field.extract (field.insert (-1)) = -1 ∧ field.insert (-1) = 0x8000 ∧
      field.extract (field.insert (2 ^ 63 - 1)) ≠ 2 ^ 63 - 1 ∧
      field.insert (field.extract 0xABCD) = 0x8000 ∧
      field.extract (field.insert (2 ^ 63 - 1) ||| pack [rest] [-1]) = -1 := by
  intro field rest
  have inside : field.InWord := by decide
  obtain ⟨_, fitting, _, kept, _, _⟩ := field.insert_extract_laws inside (-1) 0xABCD
  obtain ⟨_, tooLarge, _, _, _, undisturbed⟩ := field.insert_extract_laws inside (2 ^ 63 - 1) 0
  exact ⟨inside, fitting.mpr (by decide), by decide, mt tooLarge.mp (by decide), kept.trans (by decide),
    (undisturbed [rest] [-1] (by decide)).trans (by decide)⟩

end Field

end Asm16
