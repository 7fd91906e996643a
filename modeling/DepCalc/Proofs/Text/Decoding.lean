import DepCalc.Text.Lines
import Mathlib.Data.List.Basic

/-!
Decoding of bytes and lines of them. An encoding is read off wherever it stands, its bytes behind
the first are none of ASCII, and so what is behind an ASCII byte does not change how the bytes before
it are read. Hence cutting into lines may be done before decoding or after it.
-/
namespace DepCalc.Text.Utf8

/-- One byte more of a code, of which it has the last six bits. -/
def continued (code : Nat) (b : UInt8) : Nat :=
  code * 0x40 + b.toNat % 0x40

theorem leading_eq (b : UInt8) :
    leading b =
      if b.toNat < 0x80 then (1, b.toNat)
      else if b.toNat < 0xe0 then (2, b.toNat % 0x20)
      else if b.toNat < 0xf0 then (3, b.toNat % 0x10)
      else (4, b.toNat % 0x08) :=
  rfl

theorem toNat_byte {n : Nat} (fits : n < 256) : (UInt8.ofNat n).toNat = n :=
  UInt8.toNat_ofNat_of_lt' fits

theorem le_byte {n : Nat} (fits : n < 256) (high : 0x80 ≤ n) : 0x80 ≤ UInt8.ofNat n := by
  rw [UInt8.le_iff_toNat_le, toNat_byte fits]
  exact high

/-- The first byte of an encoding tells the number of bytes behind it, which are none of ASCII, and
together they hold the code. -/
theorem exists_encoding (c : Char) : ∃ lead more,
    String.utf8EncodeChar c = lead :: more ∧ (leading lead).1 = more.length + 1 ∧
      more.foldl continued (leading lead).2 = c.toNat ∧ ∀ b ∈ more, 0x80 ≤ b := by
  have limit : c.val.toNat < 0x110000 := by
    have valid : c.val.toNat.isValidChar := c.valid
    simp only [Nat.isValidChar] at valid
    omega
  rw [← Char.toNat_val]
  unfold String.utf8EncodeChar
  generalize c.val.toNat = v at limit ⊢
  simp only
  split
  · refine ⟨_, _, rfl, ?_⟩
    rw [leading_eq, toNat_byte (by omega), if_pos (by omega)]
    exact ⟨rfl, rfl, List.forall_mem_nil _⟩
  · split
    · refine ⟨_, _, rfl, ?_⟩
      rw [leading_eq, toNat_byte (by omega), if_neg (by omega), if_pos (by omega)]
      refine ⟨rfl, ?_, ?_⟩
      · simp only [List.foldl_cons, List.foldl_nil, continued]
        rw [toNat_byte (by omega)]
        omega
      · exact List.forall_mem_singleton.mpr (le_byte (by omega) (by omega))
    · split
      · refine ⟨_, _, rfl, ?_⟩
        rw [leading_eq, toNat_byte (by omega), if_neg (by omega), if_neg (by omega),
          if_pos (by omega)]
        refine ⟨rfl, ?_, ?_⟩
        · simp only [List.foldl_cons, List.foldl_nil, continued]
          rw [toNat_byte (by omega), toNat_byte (by omega)]
          omega
        · simp only [List.forall_mem_cons]
          exact ⟨le_byte (by omega) (by omega), le_byte (by omega) (by omega), List.forall_mem_nil _⟩
      · refine ⟨_, _, rfl, ?_⟩
        rw [leading_eq, toNat_byte (by omega), if_neg (by omega), if_neg (by omega),
          if_neg (by omega)]
        refine ⟨rfl, ?_, ?_⟩
        · simp only [List.foldl_cons, List.foldl_nil, continued]
          rw [toNat_byte (by omega), toNat_byte (by omega), toNat_byte (by omega)]
          omega
        · simp only [List.forall_mem_cons]
          exact ⟨le_byte (by omega) (by omega), le_byte (by omega) (by omega),
            le_byte (by omega) (by omega), List.forall_mem_nil _⟩

/-- The character that a first byte and the bytes behind it would encode. -/
def candidate (first : UInt8) (rest : Bytes) : Char :=
  Char.ofNat ((rest.take ((leading first).1 - 1)).foldl continued (leading first).2)

theorem front?_cons (first : UInt8) (rest : Bytes) :
    front? (first :: rest) =
      if (String.utf8EncodeChar (candidate first rest)).isPrefixOf (first :: rest) then
        some (candidate first rest)
      else none :=
  rfl

/-- A character is read if and only if its encoding is at the front. -/
theorem front?_eq_some_iff {bytes : Bytes} {c : Char} :
    front? bytes = some c ↔ String.utf8EncodeChar c <+: bytes := by
  constructor
  · intro read
    cases bytes with
    | nil => cases read
    | cons first rest =>
      rw [front?_cons] at read
      split at read
      · rename_i encoded
        cases read
        exact List.isPrefixOf_iff_prefix.mp encoded
      · cases read
  · rintro ⟨behind, rfl⟩
    obtain ⟨lead, more, encoding, size, code, -⟩ := exists_encoding c
    have same : candidate lead (more ++ behind) = c := by
      rw [candidate, size, Nat.add_sub_cancel, List.take_left, code, Char.ofNat_toNat]
    have found : (String.utf8EncodeChar c).isPrefixOf (lead :: (more ++ behind)) := by
      rw [encoding, List.isPrefixOf_iff_prefix]
      exact List.prefix_append (lead :: more) behind
    rw [encoding, List.cons_append, front?_cons, same, if_pos found]

/-- An ASCII byte is at the front, or nothing is. -/
def StartsAscii (bytes : Bytes) : Prop :=
  ∀ b ∈ bytes.head?, b < 0x80

/-- What is behind an ASCII byte does not change how the bytes before it are read. -/
theorem front?_append {bytes behind : Bytes} (nonempty : bytes ≠ []) (ascii : StartsAscii behind) :
    front? (bytes ++ behind) = front? bytes := by
  apply Option.ext
  intro c
  rw [front?_eq_some_iff, front?_eq_some_iff]
  constructor
  · intro encoded
    rcases List.prefix_or_prefix_of_prefix encoded (List.prefix_append bytes behind) with inside | cut
    · exact inside
    · obtain ⟨others, split⟩ := cut
      cases others with
      | nil =>
        rw [List.append_nil] at split
        exact split ▸ List.prefix_refl bytes
      | cons b others =>
        -- The encoding would reach into what is behind, with a byte that is none of ASCII.
        have reaches : b :: others <+: behind := by
          rwa [← split, List.prefix_append_right_inj] at encoded
        have low : b < 0x80 := by
          obtain ⟨further, rfl⟩ := reaches
          exact ascii b rfl
        obtain ⟨lead, more, encoding, -, -, high⟩ := exists_encoding c
        obtain ⟨first, rest, rfl⟩ := List.exists_cons_of_ne_nil nonempty
        rw [encoding, List.cons_append] at split
        have member : b ∈ more := by
          rw [← (List.cons.inj split).2]
          exact List.mem_append_right rest List.mem_cons_self
        exact absurd low (UInt8.not_lt.mpr (high b member))
  · intro encoded
    exact encoded.trans (List.prefix_append bytes behind)

theorem decodeOnto_eq (done : List Char) (bytes : Bytes) :
    decodeOnto done bytes = done.reverse ++ decode bytes := by
  cases bytes with
  | nil => simp [decode, decodeOnto]
  | cons first rest =>
    rw [decode, decodeOnto, decodeOnto]
    split
    · rename_i c _
      rw [decodeOnto_eq (c :: done), decodeOnto_eq [c]]
      simp
    · rw [decodeOnto_eq (replacement :: done), decodeOnto_eq [replacement]]
      simp
termination_by bytes.length
decreasing_by all_goals simp only [List.length_drop, List.length_cons]; omega

theorem decode_nil : decode [] = [] := by
  rw [decode, decodeOnto, List.reverse_nil]

theorem decode_of_some {first : UInt8} {rest : Bytes} {c : Char}
    (read : front? (first :: rest) = some c) :
    decode (first :: rest) = c :: decode (rest.drop (c.utf8Size - 1)) := by
  rw [decode, decodeOnto, read]
  exact decodeOnto_eq [c] _

theorem decode_of_none {first : UInt8} {rest : Bytes} (stuck : front? (first :: rest) = none) :
    decode (first :: rest) = replacement :: decode rest := by
  rw [decode, decodeOnto, stuck]
  exact decodeOnto_eq [replacement] _

/-- Bytes may be decoded piece by piece if the second piece begins with an ASCII byte. -/
theorem decode_append (bytes : Bytes) {behind : Bytes} (ascii : StartsAscii behind) :
    decode (bytes ++ behind) = decode bytes ++ decode behind := by
  cases bytes with
  | nil => rw [decode_nil, List.nil_append, List.nil_append]
  | cons first rest =>
    have same := front?_append (List.cons_ne_nil first rest) ascii
    cases read : front? (first :: rest) with
    | none =>
      rw [List.cons_append] at same ⊢
      rw [decode_of_none read, decode_of_none (same.trans read), decode_append rest ascii,
        List.cons_append]
    | some c =>
      have fits : c.utf8Size - 1 ≤ rest.length := by
        have short := (front?_eq_some_iff.mp read).length_le
        rw [String.length_utf8EncodeChar, List.length_cons] at short
        omega
      rw [List.cons_append] at same ⊢
      rw [decode_of_some read, decode_of_some (same.trans read), List.drop_append_of_le_length fits,
        decode_append _ ascii, List.cons_append]
termination_by bytes.length
decreasing_by all_goals simp only [List.length_drop, List.length_cons]; omega

theorem front?_eq_lineBreak_iff {first : UInt8} {rest : Bytes} :
    front? (first :: rest) = some '\n' ↔ first = Bytes.lineFeed := by
  have encoding : String.utf8EncodeChar '\n' = [Bytes.lineFeed] := by rfl
  rw [front?_eq_some_iff, encoding, List.cons_prefix_cons, eq_comm]
  exact and_iff_left (List.nil_prefix)

theorem decode_lineFeed (rest : Bytes) : decode (Bytes.lineFeed :: rest) = '\n' :: decode rest :=
  decode_of_some (front?_eq_lineBreak_iff.mpr rfl)

/-- Only a line feed is read as a line break. -/
theorem lineFeed_mem_of_decode (bytes : Bytes) :
    '\n' ∈ decode bytes → Bytes.lineFeed ∈ bytes := by
  cases bytes with
  | nil =>
    intro read
    rw [decode_nil] at read
    cases read
  | cons first rest =>
    intro read
    cases front : front? (first :: rest) with
    | none =>
      rw [decode_of_none front] at read
      rcases List.mem_cons.mp read with same | further
      · exact absurd same (by decide)
      · exact List.mem_cons_of_mem first (lineFeed_mem_of_decode rest further)
    | some c =>
      rw [decode_of_some front] at read
      rcases List.mem_cons.mp read with rfl | further
      · rw [front?_eq_lineBreak_iff.mp front]
        exact List.mem_cons_self
      · have behind := lineFeed_mem_of_decode (rest.drop (c.utf8Size - 1)) further
        exact List.mem_cons_of_mem first (List.mem_of_mem_drop behind)
termination_by bytes.length
decreasing_by all_goals simp only [List.length_drop, List.length_cons]; omega

/-- The lines of the decoded text are the decoded lines. -/
theorem splitOn_decode (bytes : Bytes) :
    (decode bytes).splitOn '\n' = (bytes.splitOn Bytes.lineFeed).map decode := by
  by_cases whole : Bytes.lineFeed ∈ bytes
  · obtain ⟨line, others, split, first⟩ := List.eq_append_cons_of_mem whole
    have decoded := mt (lineFeed_mem_of_decode line) first
    have ascii : StartsAscii (Bytes.lineFeed :: others) := by
      rintro b ⟨⟩
      decide
    rw [split, decode_append line ascii, decode_lineFeed, List.splitOn_append_cons_self,
      List.splitOn_append_cons_self, List.splitOn_eq_singleton first,
      List.splitOn_eq_singleton decoded, splitOn_decode others]
    rfl
  · have decoded := mt (lineFeed_mem_of_decode bytes) whole
    rw [List.splitOn_eq_singleton whole, List.splitOn_eq_singleton decoded]
    rfl
termination_by bytes.length
decreasing_by
  rw [split, List.length_append, List.length_cons]
  omega

end DepCalc.Text.Utf8
