import Earley.Proofs.Text.Utf8

/-!
# What was read

Reading gives a whole text for its encoding and for nothing else.  The end cuts a character off
exactly where a text is followed by some bytes of a character but not all, or by the two bytes with
which a surrogate would begin.  A reader inside a character has taken bytes that every continuation
within the bounds makes the encoding of a character.
-/

set_option autoImplicit false

namespace Earley.Text.Utf8

variable {byte : UInt8} {v position : Nat} {u : Unfinished}
  {bytes more rest tail : List UInt8} {text : List Char} {c : Char}

def Begun (bytes : List UInt8) : Prop :=
  bytes ≠ [] ∧ ∃ c more, more ≠ [] ∧ bytes ++ more = String.utf8EncodeChar c

/-- Two bytes with which a surrogate would begin. -/
def BegunSurrogate (bytes : List UInt8) : Prop :=
  ∃ byte : UInt8, 0xA0 ≤ byte.toNat ∧ byte.toNat ≤ 0xBF ∧ bytes = [0xED, byte]

/-- The bytes of a text, and behind them nothing or a character that is not finished. -/
structure Legible (bytes : List UInt8) (text : List Char) (tail : List UInt8) : Prop where
  spelled : bytes = encode text ++ tail
  unfinished : tail = [] ∨ Begun tail ∨ BegunSurrogate tail

/-! ## Encodings by length -/

theorem encodeChar_ofNat (scalar : v < 0xD800 ∨ 0xDFFF < v ∧ v < 0x110000) :
    String.utf8EncodeChar (Char.ofNat v) =
      if v ≤ 0x7F then [UInt8.ofNat v]
      else if v ≤ 0x7FF then [UInt8.ofNat (v / 64 % 0x20 + 0xC0), UInt8.ofNat (v % 0x40 + 0x80)]
      else if v ≤ 0xFFFF then [UInt8.ofNat (v / 4096 % 0x10 + 0xE0),
        UInt8.ofNat (v / 64 % 0x40 + 0x80), UInt8.ofNat (v % 0x40 + 0x80)]
      else [UInt8.ofNat (v / 262144 % 0x08 + 0xF0), UInt8.ofNat (v / 4096 % 0x40 + 0x80),
        UInt8.ofNat (v / 64 % 0x40 + 0x80), UInt8.ofNat (v % 0x40 + 0x80)] := by
  have bound : v < UInt32.size := by
    have size : UInt32.size = 4294967296 := rfl
    omega
  have letter : Char.ofNat v = ⟨UInt32.ofNatLT v bound, scalar⟩ :=
    Char.ofNat_toNat ⟨UInt32.ofNatLT v bound, scalar⟩
  rw [letter]
  rfl

theorem ofNat_eq (byte : UInt8) (value : v = byte.toNat) : UInt8.ofNat v = byte := by
  rw [value, UInt8.ofNat_toNat]

section

variable {first second third fourth : UInt8}

theorem encodeChar_one (bound : first.toNat < 0x80) :
    String.utf8EncodeChar (Char.ofNat first.toNat) = [first] := by
  rw [encodeChar_ofNat (by omega), if_pos (by omega), ofNat_eq first rfl]

theorem encodeChar_two (low : 0xC2 ≤ first.toNat) (high : first.toNat < 0xE0)
    (low₂ : 0x80 ≤ second.toNat) (high₂ : second.toNat ≤ 0xBF)
    (value : v = (first.toNat - 0xC0) * 64 + (second.toNat - 0x80)) :
    String.utf8EncodeChar (Char.ofNat v) = [first, second] := by
  have one : v / 64 = first.toNat - 0xC0 := by omega
  have two : v % 0x40 = second.toNat - 0x80 := by omega
  rw [encodeChar_ofNat (by omega), if_neg (by omega), if_pos (by omega), one, two]
  rw [ofNat_eq first (by omega), ofNat_eq second (by omega)]

/-- The bounds for the second byte leave out long forms and surrogates. -/
theorem encodeChar_three (low : 0xE0 ≤ first.toNat) (high : first.toNat < 0xF0)
    (low₂ : (if first.toNat = 0xE0 then 0xA0 else 0x80) ≤ second.toNat)
    (high₂ : second.toNat ≤ if first.toNat = 0xED then 0x9F else 0xBF)
    (low₃ : 0x80 ≤ third.toNat) (high₃ : third.toNat ≤ 0xBF)
    (value : v = ((first.toNat - 0xE0) * 64 + (second.toNat - 0x80)) * 64 + (third.toNat - 0x80)) :
    String.utf8EncodeChar (Char.ofNat v) = [first, second, third] := by
  have second_low : 0x80 ≤ second.toNat ∧ (first.toNat = 0xE0 → 0xA0 ≤ second.toNat) := by
    split at low₂ <;> omega
  have second_high : second.toNat ≤ 0xBF ∧ (first.toNat = 0xED → second.toNat ≤ 0x9F) := by
    split at high₂ <;> omega
  clear low₂ high₂
  have one : v / 4096 = first.toNat - 0xE0 := by omega
  have two : v / 64 % 0x40 = second.toNat - 0x80 := by omega
  have three : v % 0x40 = third.toNat - 0x80 := by omega
  rw [encodeChar_ofNat (by omega), if_neg (by omega), if_neg (by omega), if_pos (by omega), one,
    two, three]
  rw [ofNat_eq first (by omega), ofNat_eq second (by omega),
    ofNat_eq third (by omega)]

/-- The bounds for the second byte leave out long forms and what is no code point. -/
theorem encodeChar_four (low : 0xF0 ≤ first.toNat) (high : first.toNat < 0xF5)
    (low₂ : (if first.toNat = 0xF0 then 0x90 else 0x80) ≤ second.toNat)
    (high₂ : second.toNat ≤ if first.toNat = 0xF4 then 0x8F else 0xBF)
    (low₃ : 0x80 ≤ third.toNat) (high₃ : third.toNat ≤ 0xBF)
    (low₄ : 0x80 ≤ fourth.toNat) (high₄ : fourth.toNat ≤ 0xBF)
    (value : v = (((first.toNat - 0xF0) * 64 + (second.toNat - 0x80)) * 64 +
      (third.toNat - 0x80)) * 64 + (fourth.toNat - 0x80)) :
    String.utf8EncodeChar (Char.ofNat v) = [first, second, third, fourth] := by
  have second_low : 0x80 ≤ second.toNat ∧ (first.toNat = 0xF0 → 0x90 ≤ second.toNat) := by
    split at low₂ <;> omega
  have second_high : second.toNat ≤ 0xBF ∧ (first.toNat = 0xF4 → second.toNat ≤ 0x8F) := by
    split at high₂ <;> omega
  clear low₂ high₂
  have one : v / 262144 = first.toNat - 0xF0 := by omega
  have two : v / 4096 % 0x40 = second.toNat - 0x80 := by omega
  have three : v / 64 % 0x40 = third.toNat - 0x80 := by omega
  have four : v % 0x40 = fourth.toNat - 0x80 := by omega
  rw [encodeChar_ofNat (by omega), if_neg (by omega), if_neg (by omega), if_neg (by omega), one,
    two, three, four]
  rw [ofNat_eq first (by omega), ofNat_eq second (by omega),
    ofNat_eq third (by omega), ofNat_eq fourth (by omega)]

end

/-! ## Characters under way -/

/-- All that is still allowed makes the bytes taken the encoding of a character. -/
inductive Unfinished.Valid : Unfinished → Prop
  | last {taken : List UInt8} {least greatest code : Nat} (begun : taken ≠ [])
      (allowed : ∃ byte : UInt8, least ≤ byte.toNat ∧ byte.toNat ≤ greatest)
      (spelled : ∀ byte : UInt8, least ≤ byte.toNat → byte.toNat ≤ greatest →
        String.utf8EncodeChar (Char.ofNat (code * 64 + (byte.toNat - 0x80))) = taken ++ [byte]) :
      Valid ⟨taken, 1, least, greatest, code⟩
  | inner {taken : List UInt8} {owed least greatest code : Nat} (begun : taken ≠ [])
      (allowed : ∃ byte : UInt8, least ≤ byte.toNat ∧ byte.toNat ≤ greatest)
      (valid : ∀ byte : UInt8, least ≤ byte.toNat → byte.toNat ≤ greatest →
        Valid ⟨taken ++ [byte], owed + 1, 0x80, 0xBF, code * 64 + (byte.toNat - 0x80)⟩) :
      Valid ⟨taken, owed + 2, least, greatest, code⟩

theorem exists_byte {least greatest : Nat} (inside : least ≤ greatest) (bound : least < 0x100) :
    ∃ byte : UInt8, least ≤ byte.toNat ∧ byte.toNat ≤ greatest := by
  refine ⟨UInt8.ofNat least, ?_⟩
  rw [toNat_ofNat bound]
  exact ⟨Nat.le_refl _, inside⟩

namespace Unfinished.Valid

variable (valid : u.Valid)

include valid

theorem begun : u.taken ≠ [] := by
  cases valid with
  | last begun => exact begun
  | inner begun => exact begun

theorem spelled (owed : u.owed = 1) (inside : u.least ≤ byte.toNat ∧ byte.toNat ≤ u.greatest) :
    String.utf8EncodeChar (Char.ofNat (u.code * 64 + (byte.toNat - 0x80))) = u.taken ++ [byte] := by
  cases valid with
  | last _ _ spelled => exact spelled byte inside.1 inside.2
  | inner => simp at owed

theorem next (owed : u.owed ≠ 1) (inside : u.least ≤ byte.toNat ∧ byte.toNat ≤ u.greatest) :
    Valid ⟨u.taken ++ [byte], u.owed - 1, 0x80, 0xBF, u.code * 64 + (byte.toNat - 0x80)⟩ := by
  cases valid with
  | last => simp at owed
  | inner _ _ valid => exact valid byte inside.1 inside.2

theorem unfinished : Begun u.taken := by
  refine ⟨valid.begun, ?_⟩
  induction valid with
  | last _ allowed spelled =>
    obtain ⟨byte, low, high⟩ := allowed
    exact ⟨_, [byte], List.cons_ne_nil _ _, (spelled byte low high).symm⟩
  | inner _ allowed _ ih =>
    obtain ⟨byte, low, high⟩ := allowed
    obtain ⟨c, more, _, whole⟩ := ih byte low high
    refine ⟨c, byte :: more, List.cons_ne_nil _ _, ?_⟩
    rw [← whole, List.append_assoc]
    rfl

end Unfinished.Valid

def Lead.Fits (byte : UInt8) : Lead → Prop
  | .character c => String.utf8EncodeChar c = [byte]
  | .unfinished u => u.taken = [byte] ∧ u.Valid
  | .none => True

theorem lead_fits (byte : UInt8) : (lead byte).Fits byte := by
  have begun : [byte] ≠ [] := List.cons_ne_nil _ _
  unfold lead
  dsimp only
  split
  · exact encodeChar_one ‹_›
  split
  · trivial
  split
  · refine ⟨rfl, .last begun (exists_byte (by omega) (by omega)) fun second low₂ high₂ => ?_⟩
    exact encodeChar_two (by omega) (by omega) low₂ high₂ rfl
  split
  · refine ⟨rfl, .inner begun (exists_byte ?_ ?_) fun second low₂ high₂ => ?_⟩
    · split <;> split <;> omega
    · split <;> omega
    refine .last (by simp) (exists_byte (by omega) (by omega)) fun third low₃ high₃ => ?_
    exact encodeChar_three (by omega) (by omega) low₂ high₂ low₃ high₃ rfl
  split
  · refine ⟨rfl, .inner begun (exists_byte ?_ ?_) fun second low₂ high₂ => ?_⟩
    · split <;> split <;> omega
    · split <;> omega
    refine .inner (by simp) (exists_byte (by omega) (by omega)) fun third low₃ high₃ => ?_
    refine .last (by simp) (exists_byte (by omega) (by omega)) fun fourth low₄ high₄ => ?_
    exact encodeChar_four (by omega) (by omega) low₂ high₂ low₃ high₃ low₄ high₄ rfl
  · trivial

/-! ## Results -/

def Decoded.Fits (bytes : List UInt8) : Decoded → Prop
  | .whole text => bytes = encode text
  | .cutOff text tail _ => bytes = encode text ++ tail ∧ (Begun tail ∨ BegunSurrogate tail)
  | .flawed _ => True

theorem Decoded.Fits.cons {result : Decoded} (fits : result.Fits rest)
    (spelled : String.utf8EncodeChar c ++ rest = bytes) : (result.cons c).Fits bytes := by
  subst spelled
  cases result with
  | whole text =>
    have same : rest = encode text := fits
    show _ = encode (c :: text)
    rw [encode_cons, same]
  | cutOff text tail failure =>
    obtain ⟨rfl, unfinished⟩ := fits
    refine ⟨?_, unfinished⟩
    rw [encode_cons, List.append_assoc]
  | flawed failure => trivial

/-- What a reader says, it says of the bytes taken and the bytes read. -/
theorem decodeFrom_fits (position : Nat) (state : Option Unfinished) (bytes : List UInt8)
    (valid : ∀ u, state = some u → u.Valid) :
    (decodeFrom position state bytes).Fits (state.elim [] Unfinished.taken ++ bytes) := by
  -- Along the reader: the lead of a character makes it valid, and each byte within bounds keeps it so.
  fun_induction decodeFrom position state bytes with
  | case1 => rfl
  | case2 _ u => exact ⟨List.append_nil _, .inl (valid u rfl).unfinished⟩
  | case3 _ byte rest c led ih =>
    have fits := lead_fits byte
    rw [led] at fits
    exact (ih nofun).cons (congrArg (· ++ rest) fits)
  | case4 _ byte rest u led ih =>
    have fits := lead_fits byte
    rw [led] at fits
    obtain ⟨taken, begun⟩ := fits
    have read := ih fun _ same => Option.some.inj same ▸ begun
    rw [Option.elim_some, taken] at read
    exact read
  | case5 => trivial
  | case6 _ u byte rest b inside code owed ih =>
    refine (ih nofun).cons ?_
    rw [(valid u rfl).spelled owed inside, Option.elim_some, Option.elim_none, List.append_assoc]
    rfl
  | case7 _ u byte rest b inside code owed ih =>
    have read := ih fun _ same => Option.some.inj same ▸ (valid u rfl).next owed inside
    rw [Option.elim_some, List.append_assoc] at read
    exact read
  | case8 _ u byte rest b _ surrogate =>
    obtain ⟨taken, low, high, rfl⟩ := surrogate
    refine ⟨rfl, .inr ⟨byte, low, high, ?_⟩⟩
    rw [taken]
    rfl
  | case9 => trivial

theorem decode_eq_whole_iff : decode bytes = .whole text ↔ bytes = encode text := by
  constructor
  · intro read
    have fits := decodeFrom_fits 0 none bytes nofun
    rw [← decode, read] at fits
    exact fits
  · rintro rfl
    exact decodeFrom_encode 0 text

/-! ## Longer bytes -/

theorem Decoded.cons_eq_flawed {result : Decoded} {failure : Failure} :
    result.cons c = .flawed failure ↔ result = .flawed failure := by
  cases result <;> simp [Decoded.cons]

/-- More bytes do not mend a flaw. -/
theorem decodeFrom_append_of_flawed {state : Option Unfinished} {failure : Failure}
    (flawed : decodeFrom position state bytes = .flawed failure) (more : List UInt8) :
    decodeFrom position state (bytes ++ more) = .flawed failure := by
  fun_induction decodeFrom position state bytes with
  | case1 => cases flawed
  | case2 => cases flawed
  | case3 _ byte rest c led ih =>
    rw [List.cons_append, decodeFrom_character led, Decoded.cons_eq_flawed]
    exact ih (Decoded.cons_eq_flawed.mp flawed)
  | case4 _ byte rest u led ih =>
    rw [List.cons_append, decodeFrom_unfinished led]
    exact ih flawed
  | case5 _ byte rest led => simpa [decodeFrom, led] using flawed
  | case6 _ u byte rest b inside code owed ih =>
    rw [List.cons_append, decodeFrom]
    dsimp only
    rw [if_pos inside, if_pos owed, Decoded.cons_eq_flawed]
    exact ih (Decoded.cons_eq_flawed.mp flawed)
  | case7 _ u byte rest b inside code owed ih =>
    rw [List.cons_append, decodeFrom]
    dsimp only
    rw [if_pos inside, if_neg owed]
    exact ih flawed
  | case8 => cases flawed
  | case9 _ u byte rest b outside other =>
    have still : ¬ (u.taken = [0xED] ∧ 0xA0 ≤ b ∧ b ≤ 0xBF ∧ rest ++ more = []) := by
      rintro ⟨taken, low, high, ends⟩
      exact other ⟨taken, low, high, (List.append_eq_nil_iff.mp ends).1⟩
    rw [List.cons_append, decodeFrom]
    dsimp only
    rw [if_neg outside, if_neg still]
    exact flawed

/-- The bytes of a character do not begin those of another. -/
theorem eq_nil_of_encode_append (same : encode text ++ rest = String.utf8EncodeChar c) :
    text = [] ∨ rest = [] := by
  cases text with
  | nil => exact .inl rfl
  | cons first text =>
    right
    have single := decodeFrom_encode 0 [c]
    obtain ⟨later, read⟩ := decodeFrom_encode_append 0 (first :: text) rest
    rw [encode_singleton, ← same, read] at single
    cases behind : decodeFrom later none rest with
    | whole others =>
      simp only [behind, Decoded.behind, Decoded.whole.injEq, List.cons_append, List.cons.injEq,
        List.append_eq_nil_iff] at single
      obtain ⟨rfl, rfl, _⟩ := single
      rwa [encode_singleton, List.append_right_eq_self] at same
    | cutOff => simp [behind, Decoded.behind] at single
    | flawed => simp [behind, Decoded.behind] at single

theorem decodeFrom_begun (position : Nat) (begun : Begun bytes) :
    ∃ failure, decodeFrom position none bytes = .cutOff [] bytes failure := by
  obtain ⟨solid, c, more, missing, whole⟩ := begun
  have fits := decodeFrom_fits position none bytes nofun
  cases read : decodeFrom position none bytes with
  | whole text =>
    rw [read] at fits
    have same : bytes = encode text := fits
    subst same
    rcases eq_nil_of_encode_append whole with rfl | empty
    · exact absurd rfl solid
    · exact absurd empty missing
  | cutOff text tail failure =>
    rw [read] at fits
    obtain ⟨rfl, _⟩ := fits
    rw [List.append_assoc] at whole
    rcases eq_nil_of_encode_append whole with rfl | empty
    · exact ⟨failure, rfl⟩
    · exact absurd (List.append_eq_nil_iff.mp empty).2 missing
  | flawed failure =>
    -- The bytes that finish the character would not mend the flaw.
    have flawed := decodeFrom_append_of_flawed read more
    have letters := decodeFrom_encode position [c]
    rw [encode_singleton, ← whole, flawed] at letters
    cases letters

theorem decodeFrom_begunSurrogate (position : Nat) (begun : BegunSurrogate bytes) :
    ∃ failure, decodeFrom position none bytes = .cutOff [] bytes failure := by
  obtain ⟨byte, low, high, rfl⟩ := begun
  have led : lead 0xED = .unfinished ⟨[0xED], 2, 0x80, 0x9F, 0xD⟩ := rfl
  have outside : ¬ byte.toNat ≤ 0x9F := by omega
  rw [decodeFrom_unfinished led, decodeFrom]
  simp [outside, low, high]

theorem decode_eq_cutOff_iff :
    (∃ failure, decode bytes = .cutOff text tail failure) ↔
      bytes = encode text ++ tail ∧ (Begun tail ∨ BegunSurrogate tail) := by
  constructor
  · rintro ⟨failure, read⟩
    have fits := decodeFrom_fits 0 none bytes nofun
    rw [← decode, read] at fits
    exact fits
  · rintro ⟨rfl, begun⟩
    obtain ⟨later, read⟩ := decodeFrom_encode_append 0 text tail
    obtain ⟨failure, behind⟩ : ∃ failure, decodeFrom later none tail = .cutOff [] tail failure :=
      begun.elim (decodeFrom_begun later) (decodeFrom_begunSurrogate later)
    refine ⟨failure, ?_⟩
    rw [decode, read, behind, Decoded.behind, List.append_nil]

/-! ## Bytes that come in pieces -/

theorem ready_decode_iff : (decode bytes).ready = .ok (text, tail) ↔ Legible bytes text tail := by
  constructor
  · intro read
    cases decoded : decode bytes with
    | whole letters =>
      obtain ⟨rfl, rfl⟩ : letters = text ∧ [] = tail := by simpa [decoded, Decoded.ready] using read
      have spelled := decode_eq_whole_iff.mp decoded
      exact ⟨by simp [spelled], .inl rfl⟩
    | cutOff letters behind failure =>
      obtain ⟨rfl, rfl⟩ : letters = text ∧ behind = tail := by
        simpa [decoded, Decoded.ready] using read
      obtain ⟨spelled, begun⟩ := decode_eq_cutOff_iff.mp ⟨failure, decoded⟩
      exact ⟨spelled, .inr begun⟩
    | flawed failure => simp [decoded, Decoded.ready] at read
  · rintro ⟨spelled, rfl | begun⟩
    · rw [List.append_nil] at spelled
      simp [decode_eq_whole_iff.mpr spelled, Decoded.ready]
    · obtain ⟨failure, read⟩ := decode_eq_cutOff_iff.mpr ⟨spelled, begun⟩
      simp [read, Decoded.ready]

theorem encode_append (text later : List Char) :
    encode (text ++ later) = encode text ++ encode later := List.flatMap_append

theorem legible_encode (text : List Char) : Legible (encode text) text [] :=
  ⟨by simp, .inl rfl⟩

/-- The front of what is legible is legible: a flaw in it would not be mended. -/
theorem Legible.front (legible : Legible (bytes ++ more) text tail) :
    ∃ text tail, Legible bytes text tail := by
  cases read : decode bytes with
  | whole letters => exact ⟨letters, [], ready_decode_iff.mp (by simp [read, Decoded.ready])⟩
  | cutOff letters behind failure =>
    exact ⟨letters, behind, ready_decode_iff.mp (by simp [read, Decoded.ready])⟩
  | flawed failure =>
    have whole := ready_decode_iff.mpr legible
    rw [decode, decodeFrom_append_of_flawed read more] at whole
    cases whole

/-- Reading on behind the front is reading what the front left and what follows. -/
theorem Legible.append_iff {whole : List Char} (legible : Legible bytes text tail) :
    Legible (bytes ++ more) whole rest ↔
      ∃ later, whole = text ++ later ∧ Legible (tail ++ more) later rest := by
  obtain ⟨rfl, _⟩ := legible
  constructor
  · intro legible
    obtain ⟨position, behind⟩ := decodeFrom_encode_append 0 text (tail ++ more)
    have read := ready_decode_iff.mpr legible
    have fits := decodeFrom_fits position none (tail ++ more) nofun
    rw [List.append_assoc, decode, behind] at read
    cases decoded : decodeFrom position none (tail ++ more) with
    | whole later =>
      rw [decoded] at read fits
      obtain ⟨rfl, rfl⟩ : text ++ later = whole ∧ [] = rest := by
        simpa [Decoded.behind, Decoded.ready] using read
      have spelled : tail ++ more = encode later := fits
      exact ⟨later, rfl, by simp [spelled], .inl rfl⟩
    | cutOff later left failure =>
      rw [decoded] at read fits
      obtain ⟨rfl, rfl⟩ : text ++ later = whole ∧ left = rest := by
        simpa [Decoded.behind, Decoded.ready] using read
      exact ⟨later, rfl, fits.1, .inr fits.2⟩
    | flawed failure =>
      rw [decoded] at read
      cases read
  · rintro ⟨later, rfl, spelled, unfinished⟩
    refine ⟨?_, unfinished⟩
    rw [List.append_assoc, spelled, encode_append, List.append_assoc]

end Earley.Text.Utf8
