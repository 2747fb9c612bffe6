import Earley.Text.Utf8

/-!
# Reading what was encoded

The encoding of a character is one byte below `0x80`, or a first byte that tells the length and then
continuation bytes with six bits each.  A reader inside a character has the bits so far, and a
continuation byte adds the next six.  So a text is read back from its encoding: the bounds that the
first byte sets for the second are met by every code point that is long enough for its form and is
not a surrogate.
-/

set_option autoImplicit false

namespace Earley.Text.Utf8

variable {byte : UInt8} {n v position : Nat} {u : Unfinished} {rest : List UInt8}

/-! ## First bytes -/

theorem lead_one (value : byte.toNat = n) (bound : n < 0x80) :
    lead byte = .character (Char.ofNat n) := by
  unfold lead
  simp [value, bound]

theorem lead_two (value : byte.toNat = n + 0xC0) (low : 2 ≤ n) (high : n < 0x20) :
    lead byte = .unfinished ⟨[byte], 1, 0x80, 0xBF, n⟩ := by
  unfold lead
  have big : ¬ n + 0xC0 < 0x80 := by omega
  have long : ¬ n + 0xC0 < 0xC2 := by omega
  have fits : n + 0xC0 < 0xE0 := by omega
  simp [value, big, long, fits]

theorem lead_three (value : byte.toNat = n + 0xE0) (bound : n < 0x10) :
    lead byte = .unfinished
      ⟨[byte], 2, if n = 0 then 0xA0 else 0x80, if n = 0xD then 0x9F else 0xBF, n⟩ := by
  unfold lead
  have big : ¬ n + 0xE0 < 0x80 := by omega
  have long : ¬ n + 0xE0 < 0xC2 := by omega
  have longer : ¬ n + 0xE0 < 0xE0 := by omega
  have fits : n + 0xE0 < 0xF0 := by omega
  simp [value, big, long, longer, fits]

theorem lead_four (value : byte.toNat = n + 0xF0) (bound : n < 5) :
    lead byte = .unfinished
      ⟨[byte], 3, if n = 0 then 0x90 else 0x80, if n = 4 then 0x8F else 0xBF, n⟩ := by
  unfold lead
  have big : ¬ n + 0xF0 < 0x80 := by omega
  have long : ¬ n + 0xF0 < 0xC2 := by omega
  have longer : ¬ n + 0xF0 < 0xE0 := by omega
  have longest : ¬ n + 0xF0 < 0xF0 := by omega
  have fits : n + 0xF0 < 0xF5 := by omega
  simp [value, big, long, longer, longest, fits]

theorem decodeFrom_character {c : Char} (led : lead byte = .character c) :
    decodeFrom position none (byte :: rest) = (decodeFrom (position + 1) none rest).cons c := by
  rw [decodeFrom, led]

theorem decodeFrom_unfinished (led : lead byte = .unfinished u) :
    decodeFrom position none (byte :: rest) = decodeFrom (position + 1) (some u) rest := by
  rw [decodeFrom, led]

/-! ## Continuation bytes -/

section

variable {taken : List UInt8} {least greatest code : Nat} (value : byte.toNat = v % 0x40 + 0x80)
  (bits : code = v / 0x40) (low : least ≤ v % 0x40 + 0x80) (high : v % 0x40 + 0x80 ≤ greatest)

include value bits low high

theorem decodeFrom_last :
    decodeFrom position (some ⟨taken, 1, least, greatest, code⟩) (byte :: rest) =
      (decodeFrom (position + 1) none rest).cons (Char.ofNat v) := by
  have whole : v / 0x40 * 64 + v % 0x40 = v := by omega
  rw [decodeFrom]
  simp [value, low, high, bits, whole]

theorem decodeFrom_inner :
    decodeFrom position (some ⟨taken, n + 2, least, greatest, code⟩) (byte :: rest) =
      decodeFrom (position + 1) (some ⟨taken ++ [byte], n + 1, 0x80, 0xBF, v⟩) rest := by
  have whole : v / 0x40 * 64 + v % 0x40 = v := by omega
  rw [decodeFrom]
  simp [value, low, high, bits, whole]

end

/-! ## Characters and texts -/

theorem toNat_ofNat (bound : n < 0x100) : (UInt8.ofNat n).toNat = n :=
  UInt8.toNat_ofNat_of_lt' bound

theorem toNat_continuation (v : Nat) : (UInt8.ofNat (v % 0x40 + 0x80)).toNat = v % 0x40 + 0x80 :=
  toNat_ofNat (by omega)

theorem decodeFrom_one (high : v ≤ 0x7F) :
    decodeFrom position none (UInt8.ofNat v :: rest) =
      (decodeFrom (position + 1) none rest).cons (Char.ofNat v) := by
  have led := lead_one (toNat_ofNat (n := v) (by omega)) (by omega)
  exact decodeFrom_character led

theorem decodeFrom_two (low : ¬ v ≤ 0x7F) (high : v ≤ 0x7FF) :
    decodeFrom position none
        (UInt8.ofNat (v / 64 % 0x20 + 0xC0) :: UInt8.ofNat (v % 0x40 + 0x80) :: rest) =
      (decodeFrom (position + 1 + 1) none rest).cons (Char.ofNat v) := by
  have first : (UInt8.ofNat (v / 64 % 0x20 + 0xC0)).toNat = v / 64 + 0xC0 := by
    rw [toNat_ofNat (by omega)]
    omega
  rw [decodeFrom_unfinished (lead_two first (by omega) (by omega))]
  apply decodeFrom_last (toNat_continuation v) rfl <;> omega

/-- The second byte tells a long form from a code point that needs no third byte, and from a
surrogate. -/
theorem decodeFrom_three (low : ¬ v ≤ 0x7FF) (high : v ≤ 0xFFFF)
    (scalar : v < 0xD800 ∨ 0xDFFF < v) :
    decodeFrom position none (UInt8.ofNat (v / 4096 % 0x10 + 0xE0) ::
        UInt8.ofNat (v / 64 % 0x40 + 0x80) :: UInt8.ofNat (v % 0x40 + 0x80) :: rest) =
      (decodeFrom (position + 1 + 1 + 1) none rest).cons (Char.ofNat v) := by
  have first : (UInt8.ofNat (v / 4096 % 0x10 + 0xE0)).toNat = v / 4096 + 0xE0 := by
    rw [toNat_ofNat (by omega)]
    omega
  rw [decodeFrom_unfinished (lead_three first (by omega)),
    decodeFrom_inner (toNat_continuation (v / 64)) (by omega)]
  · apply decodeFrom_last (toNat_continuation v) rfl <;> omega
  · split <;> omega
  · split <;> omega

/-- The second byte tells a long form from a code point that needs no fourth byte, and from what
is no code point. -/
theorem decodeFrom_four (low : ¬ v ≤ 0xFFFF) (high : v < 0x110000) :
    decodeFrom position none (UInt8.ofNat (v / 262144 % 0x08 + 0xF0) ::
        UInt8.ofNat (v / 4096 % 0x40 + 0x80) :: UInt8.ofNat (v / 64 % 0x40 + 0x80) ::
        UInt8.ofNat (v % 0x40 + 0x80) :: rest) =
      (decodeFrom (position + 1 + 1 + 1 + 1) none rest).cons (Char.ofNat v) := by
  have first : (UInt8.ofNat (v / 262144 % 0x08 + 0xF0)).toNat = v / 262144 + 0xF0 := by
    rw [toNat_ofNat (by omega)]
    omega
  rw [decodeFrom_unfinished (lead_four first (by omega)),
    decodeFrom_inner (toNat_continuation (v / 4096)) (by omega),
    decodeFrom_inner (toNat_continuation (v / 64)) (by omega) (by omega) (by omega)]
  · apply decodeFrom_last (toNat_continuation v) rfl <;> omega
  · split <;> omega
  · split <;> omega

theorem decodeFrom_encodeChar (position : Nat) (c : Char) (rest : List UInt8) :
    ∃ later, decodeFrom position none (String.utf8EncodeChar c ++ rest) =
      (decodeFrom later none rest).cons c := by
  have scalar : c.val.toNat < 0xD800 ∨ 0xDFFF < c.val.toNat ∧ c.val.toNat < 0x110000 := c.valid
  have same : Char.ofNat c.val.toNat = c := c.ofNat_toNat
  unfold String.utf8EncodeChar
  dsimp only
  generalize c.val.toNat = v at scalar same ⊢
  rw [← same]
  split
  · exact ⟨_, decodeFrom_one ‹_›⟩
  split
  · exact ⟨_, decodeFrom_two ‹_› ‹_›⟩
  split
  · exact ⟨_, decodeFrom_three ‹_› ‹_› (scalar.imp_right And.left)⟩
  · exact ⟨_, decodeFrom_four ‹_› (by omega)⟩

def encode (text : List Char) : List UInt8 := text.flatMap String.utf8EncodeChar

theorem encode_cons (c : Char) (text : List Char) :
    encode (c :: text) = String.utf8EncodeChar c ++ encode text := List.flatMap_cons

theorem encode_singleton (c : Char) : encode [c] = String.utf8EncodeChar c :=
  List.flatMap_singleton _ c

theorem toList_toUTF8 (text : String) : text.toUTF8.data.toList = encode text.toList := by
  rw [String.toUTF8_eq_toByteArray, ← String.utf8Encode_toList, List.utf8Encode,
    List.toList_data_toByteArray, encode]

def Decoded.behind (text : List Char) : Decoded → Decoded
  | .whole rest => .whole (text ++ rest)
  | .flawed failure => .flawed failure
  | .cutOff rest tail failure => .cutOff (text ++ rest) tail failure

theorem decodeFrom_encode_append (position : Nat) (text : List Char) (tail : List UInt8) :
    ∃ later, decodeFrom position none (encode text ++ tail) =
      (decodeFrom later none tail).behind text := by
  induction text generalizing position with
  | nil =>
    refine ⟨position, ?_⟩
    show decodeFrom position none tail = _
    cases decodeFrom position none tail <;> rfl
  | cons c text ih =>
    obtain ⟨next, read⟩ := decodeFrom_encodeChar position c (encode text ++ tail)
    obtain ⟨later, rest⟩ := ih next
    refine ⟨later, ?_⟩
    rw [encode_cons, List.append_assoc, read, rest]
    cases decodeFrom later none tail <;> rfl

theorem decodeFrom_encode (position : Nat) (text : List Char) :
    decodeFrom position none (encode text) = .whole text := by
  obtain ⟨later, read⟩ := decodeFrom_encode_append position text []
  rw [List.append_nil] at read
  rw [read, decodeFrom, Decoded.behind, List.append_nil]

end Earley.Text.Utf8
