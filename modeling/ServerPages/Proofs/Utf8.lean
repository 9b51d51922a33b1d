import Mathlib.Algebra.Group.Nat.Defs
import ServerPages.Proofs.Slice
import ServerPages.Text.Utf8

/-! UTF-8 read back. A character whose first byte was read may still become any character that it covers,
and the bytes that are to come then say which. So the bytes of a text are read as that text whatever
follows them, and only they are: what is read without an invalid part was written. -/

namespace ServerPages

namespace Text

@[simp] theorem bytes_nil : bytes [] = [] := rfl

@[simp] theorem bytes_cons (c : Char) (t : Text) :
    bytes (c :: t) = String.utf8EncodeChar c ++ bytes t := List.flatMap_cons

@[simp] theorem bytes_append (a b : Text) : bytes (a ++ b) = bytes a ++ bytes b := List.flatMap_append

theorem length_bytes (t : Text) : t.bytes.length = t.byteLength := by
  induction t with
  | nil => rfl
  | cons c t ih => rw [bytes_cons, List.length_append, String.length_utf8EncodeChar, ih, byteLength_cons]

end Text

namespace Utf8

variable {b : UInt8} {bytes : Bytes} {p : Pending} {c : Char} {n k : Nat} {parts : List (Option Char)}

/-- Numbers of characters. -/
def IsScalar (n : Nat) : Prop := n < 0xD800 ∨ 0xDFFF < n ∧ n < 0x110000

theorem toNat_ofNat (h : IsScalar n) : (Char.ofNat n).toNat = n := by
  have hvalid : n.isValidChar := h
  rw [Char.ofNat, dif_pos hvalid]
  rfl

/-- The last `k` bytes of the character with number `n`, six bits in each. -/
def tail (n : Nat) : Nat → Bytes
  | 0 => []
  | k + 1 => UInt8.ofNat (n / 64 ^ k % 64 + 0x80) :: tail n k

theorem toNat_tailByte (n : Nat) : (UInt8.ofNat (n % 64 + 0x80)).toNat = n % 64 + 0x80 := by
  rw [UInt8.toNat_ofNat']
  omega

theorem div_pow_succ (n k : Nat) : n / 64 ^ (k + 1) = n / 64 ^ k / 64 := by
  rw [Nat.pow_succ, Nat.div_div_eq_div_mul]

section Encode

theorem encode_one (h : n < 0x80) : String.utf8EncodeChar (Char.ofNat n) = [UInt8.ofNat n] := by
  have hn : (Char.ofNat n).val.toNat = n := toNat_ofNat (.inl (by omega))
  unfold String.utf8EncodeChar
  simp only [hn]
  rw [if_pos (by omega)]

theorem encode_two (hlow : 0x80 ≤ n) (hhigh : n < 0x800) :
    String.utf8EncodeChar (Char.ofNat n) = UInt8.ofNat (n / 64 + 0xC0) :: tail n 1 := by
  have hn : (Char.ofNat n).val.toNat = n := toNat_ofNat (.inl (by omega))
  unfold String.utf8EncodeChar
  simp only [hn]
  rw [if_neg (by omega), if_pos (by omega), Nat.mod_eq_of_lt (show n / 64 < 0x20 by omega)]
  simp [tail]

theorem encode_three (h : IsScalar n) (hlow : 0x800 ≤ n) (hhigh : n < 0x10000) :
    String.utf8EncodeChar (Char.ofNat n) = UInt8.ofNat (n / 4096 + 0xE0) :: tail n 2 := by
  have hn : (Char.ofNat n).val.toNat = n := toNat_ofNat h
  unfold String.utf8EncodeChar
  simp only [hn]
  rw [if_neg (by omega), if_neg (by omega), if_pos (by omega),
    Nat.mod_eq_of_lt (show n / 4096 < 0x10 by omega)]
  simp [tail]

theorem encode_four (h : IsScalar n) (hlow : 0x10000 ≤ n) :
    String.utf8EncodeChar (Char.ofNat n) = UInt8.ofNat (n / 262144 + 0xF0) :: tail n 3 := by
  have hn : (Char.ofNat n).val.toNat = n := toNat_ofNat h
  unfold IsScalar at h
  unfold String.utf8EncodeChar
  simp only [hn]
  rw [if_neg (by omega), if_neg (by omega), if_neg (by omega),
    Nat.mod_eq_of_lt (show n / 262144 < 8 by omega)]
  simp [tail]

end Encode

/-- The character may be the one with number `n`: the bits are those known, and its next byte may come. -/
structure Pending.Covers (p : Pending) (n : Nat) : Prop where
  bits : n / 64 ^ p.further / 64 = p.bits
  low : p.low ≤ n / 64 ^ p.further % 64 + 0x80
  high : n / 64 ^ p.further % 64 + 0x80 ≤ p.high

/-- What a byte brings that may come next. -/
theorem decode_inside (hlow : p.low ≤ b.toNat) (hhigh : b.toNat ≤ p.high) (rest : Bytes) :
    decode (some p) (b :: rest) =
      match p.further with
      | 0 => some (Char.ofNat (p.bits * 64 + (b.toNat - 0x80))) :: decode none rest
      | further + 1 => decode (some ⟨p.bits * 64 + (b.toNat - 0x80), 0x80, 0xBF, further⟩) rest := by
  rw [decode, feed, if_pos ⟨hlow, hhigh⟩]
  cases p.further <;> rfl

theorem decode_outside (h : ¬ (p.low ≤ b.toNat ∧ b.toNat ≤ p.high)) (rest : Bytes) :
    decode (some p) (b :: rest) = none :: decode none (b :: rest) := by
  simp only [decode, feed, if_neg h, List.cons_append]

theorem decode_tail (hk : p.further = k) (h : p.Covers n) (rest : Bytes) :
    decode (some p) (tail n (k + 1) ++ rest) = some (Char.ofNat n) :: decode none rest := by
  induction k generalizing p with
  | zero =>
    obtain ⟨hbits, hlow, hhigh⟩ := h
    rw [hk] at hbits hlow hhigh
    have hbyte := toNat_tailByte (n / 64 ^ 0)
    have hn : p.bits * 64 + (n / 64 ^ 0 % 64 + 0x80 - 0x80) = n := by omega
    rw [tail, List.cons_append, decode_inside (by omega) (by omega), hbyte, hk, hn]
    rfl
  | succ k ih =>
    obtain ⟨hbits, hlow, hhigh⟩ := h
    rw [hk] at hbits hlow hhigh
    have hbyte := toNat_tailByte (n / 64 ^ (k + 1))
    have hdiv := div_pow_succ n k
    rw [tail, List.cons_append, decode_inside (by omega) (by omega), hbyte, hk]
    -- the bits of the byte join those known, and any byte of a character may come next
    refine ih rfl ⟨?_, ?_, ?_⟩ <;> simp only <;> omega

/-- A character that was left open and ends has a number that was covered, and its bytes are read. -/
theorem exists_covers (hk : p.further = k) (hlow : 0x80 ≤ p.low) (hhigh : p.high ≤ 0xBF)
    (h : decode (some p) bytes = some c :: parts) :
    ∃ n rest, p.Covers n ∧ c = Char.ofNat n ∧ bytes = tail n (k + 1) ++ rest ∧
      decode none rest = parts := by
  induction k generalizing p bytes with
  | zero =>
    cases bytes with
    | nil => cases h
    | cons b rest =>
      by_cases hb : p.low ≤ b.toNat ∧ b.toNat ≤ p.high
      · rw [decode_inside hb.1 hb.2, hk] at h
        simp only [List.cons.injEq, Option.some.injEq] at h
        obtain ⟨hc, hrest⟩ := h
        have hbyte : b = UInt8.ofNat ((p.bits * 64 + (b.toNat - 0x80)) / 64 ^ 0 % 64 + 0x80) := by
          apply UInt8.toNat_inj.1
          rw [toNat_tailByte]
          omega
        refine ⟨p.bits * 64 + (b.toNat - 0x80), rest, ?_, hc.symm, ?_, hrest⟩
        · constructor <;> rw [hk] <;> omega
        · rw [tail, ← hbyte]
          rfl
      · rw [decode_outside hb] at h
        cases h
  | succ k ih =>
    cases bytes with
    | nil => cases h
    | cons b rest =>
      by_cases hb : p.low ≤ b.toNat ∧ b.toNat ≤ p.high
      · rw [decode_inside hb.1 hb.2, hk] at h
        obtain ⟨n, behind, ⟨hbits, -, -⟩, hc, hbytes, hrest⟩ := ih rfl (by simp) (by simp) h
        simp only at hbits
        have hdiv := div_pow_succ n k
        have hbyte : b = UInt8.ofNat (n / 64 ^ (k + 1) % 64 + 0x80) := by
          apply UInt8.toNat_inj.1
          rw [toNat_tailByte]
          omega
        refine ⟨n, behind, ?_, hc, ?_, hrest⟩
        · constructor <;> rw [hk] <;> omega
        · rw [tail, ← hbyte, hbytes]
          rfl
      · rw [decode_outside hb] at h
        cases h

/-- The first byte of two, three or four, with the bits in it. Overlong forms and surrogates are ruled out by
what may come next. -/
inductive Opens : Nat → Pending → Prop where
  | two {bits : Nat} (hlow : 2 ≤ bits) (hhigh : bits < 0x20) : Opens (bits + 0xC0) ⟨bits, 0x80, 0xBF, 0⟩
  | three {bits : Nat} (hhigh : bits < 0x10) : Opens (bits + 0xE0)
      ⟨bits, if bits = 0 then 0xA0 else 0x80, if bits = 0xD then 0x9F else 0xBF, 1⟩
  | four {bits : Nat} (hhigh : bits < 5) : Opens (bits + 0xF0)
      ⟨bits, if bits = 0 then 0x90 else 0x80, if bits = 4 then 0x8F else 0xBF, 2⟩

/-- What a byte can be where a character is to begin. -/
theorem begin_cases (b : Nat) : (b < 0x80 ∧ begin b = ([some (Char.ofNat b)], none)) ∨
    begin b = ([none], none) ∨ ∃ p, begin b = ([], some p) ∧ Opens b p := by
  unfold begin
  split
  · next h => exact .inl ⟨h, rfl⟩
  split
  · exact .inr (.inl rfl)
  split
  · obtain ⟨bits, rfl⟩ : ∃ bits, b = bits + 0xC0 := ⟨b - 0xC0, by omega⟩
    refine .inr (.inr ⟨_, rfl, ?_⟩)
    rw [Nat.add_sub_cancel]
    exact .two (by omega) (by omega)
  split
  · obtain ⟨bits, rfl⟩ : ∃ bits, b = bits + 0xE0 := ⟨b - 0xE0, by omega⟩
    refine .inr (.inr ⟨_, rfl, ?_⟩)
    simp only [Nat.add_sub_cancel, Nat.add_eq_right, Nat.reduceEqDiff]
    exact .three (by omega)
  split
  · obtain ⟨bits, rfl⟩ : ∃ bits, b = bits + 0xF0 := ⟨b - 0xF0, by omega⟩
    refine .inr (.inr ⟨_, rfl, ?_⟩)
    simp only [Nat.add_sub_cancel, Nat.add_eq_right, Nat.reduceEqDiff]
    exact .four (by omega)
  · exact .inr (.inl rfl)

theorem begin_of_opens {b : Nat} (h : Opens b p) : begin b = ([], some p) := by
  cases h with
  | two hlow hhigh =>
    rw [begin, if_neg (by omega), if_neg (by omega), if_pos (by omega), Nat.add_sub_cancel]
  | three hhigh =>
    rw [begin, if_neg (by omega), if_neg (by omega), if_neg (by omega), if_pos (by omega)]
    simp
  | four hhigh =>
    rw [begin, if_neg (by omega), if_neg (by omega), if_neg (by omega), if_neg (by omega),
      if_pos (by omega)]
    simp

theorem Opens.bounds {b : Nat} (h : Opens b p) :
    0x80 ≤ b ∧ b < 0x100 ∧ 0x80 ≤ p.low ∧ p.high ≤ 0xBF := by
  cases h with
  | two => exact ⟨by omega, by omega, Nat.le_refl _, Nat.le_refl _⟩
  | three =>
    refine ⟨by omega, by omega, ?_, ?_⟩
    · simp only
      split <;> omega
    · simp only
      split <;> omega
  | four =>
    refine ⟨by omega, by omega, ?_, ?_⟩
    · simp only
      split <;> omega
    · simp only
      split <;> omega

theorem Opens.encode (hb : Opens b.toNat p) (h : p.Covers n) :
    String.utf8EncodeChar (Char.ofNat n) = b :: tail n (p.further + 1) := by
  obtain ⟨hbits, hlow, hhigh⟩ := h
  have hlead {m : Nat} (hm : m = b.toNat) : UInt8.ofNat m = b := by rw [hm, UInt8.ofNat_toNat]
  generalize hcode : b.toNat = code at hb
  cases hb with
  | two =>
    simp only at hbits hlow hhigh
    rw [encode_two (by omega) (by omega), hlead (by omega)]
  | three =>
    simp only at hbits hlow hhigh
    have hn : IsScalar n ∧ 0x800 ≤ n := by
      unfold IsScalar
      split at hlow <;> split at hhigh <;> omega
    rw [encode_three hn.1 hn.2 (by omega), hlead (by omega)]
  | four =>
    simp only at hbits hlow hhigh
    have hn : IsScalar n ∧ 0x10000 ≤ n := by
      unfold IsScalar
      split at hlow <;> split at hhigh <;> omega
    rw [encode_four hn.1 hn.2, hlead (by omega)]

theorem exists_opens (hn : IsScalar n) (hlarge : 0x80 ≤ n) : ∃ b p, Opens b p ∧ p.Covers n := by
  unfold IsScalar at hn
  by_cases htwo : n < 0x800
  · refine ⟨_, _, @Opens.two (n / 64) (by omega) (by omega), ?_⟩
    constructor <;> simp only <;> omega
  by_cases hthree : n < 0x10000
  · refine ⟨_, _, @Opens.three (n / 4096) (by omega), ?_⟩
    constructor <;> simp only <;> (try split) <;> omega
  · refine ⟨_, _, @Opens.four (n / 262144) (by omega), ?_⟩
    constructor <;> simp only <;> (try split) <;> omega

/-- The bytes of a character: one byte, or a first byte and those that it asks for. -/
theorem encode_cases (c : Char) :
    (c.toNat < 0x80 ∧ String.utf8EncodeChar c = [UInt8.ofNat c.toNat]) ∨
    ∃ (b : UInt8) (p : Pending), Opens b.toNat p ∧ p.Covers c.toNat ∧
      String.utf8EncodeChar c = b :: tail c.toNat (p.further + 1) := by
  have hself := Char.ofNat_toNat c
  by_cases hlow : c.toNat < 0x80
  · have hencode := encode_one hlow
    rw [hself] at hencode
    exact .inl ⟨hlow, hencode⟩
  · obtain ⟨b, p, hb, hcovers⟩ := exists_opens (n := c.toNat) c.valid (by omega)
    have hbyte : (UInt8.ofNat b).toNat = b := by
      rw [UInt8.toNat_ofNat', Nat.mod_eq_of_lt hb.bounds.2.1]
    rw [← hbyte] at hb
    have hencode := hb.encode hcovers
    rw [hself] at hencode
    exact .inr ⟨_, p, hb, hcovers, hencode⟩

theorem lineFeed_notMem (h : c ≠ '\n') : (0x0A : UInt8) ∉ String.utf8EncodeChar c := by
  have htail (n k : Nat) : (0x0A : UInt8) ∉ tail n k := by
    induction k with
    | zero => exact List.not_mem_nil
    | succ k ih =>
      have hbyte := toNat_tailByte (n / 64 ^ k)
      refine List.not_mem_cons_of_ne_of_not_mem (fun heq => ?_) ih
      rw [← heq] at hbyte
      simp at hbyte
  intro hmem
  rcases encode_cases c with ⟨hlow, hencode⟩ | ⟨b, p, hb, -, hencode⟩
  · rw [hencode, List.mem_singleton] at hmem
    refine h (Char.ext (UInt32.toNat_inj.1 ?_))
    have := congrArg UInt8.toNat hmem
    rw [UInt8.toNat_ofNat', Nat.mod_eq_of_lt (by omega)] at this
    exact this.symm
  · rw [hencode] at hmem
    rcases List.mem_cons.1 hmem with rfl | hmem
    · have := hb.bounds.1
      simp at this
    · exact htail _ _ hmem

theorem decode_one (h : b.toNat < 0x80) (rest : Bytes) :
    decode none (b :: rest) = some (Char.ofNat b.toNat) :: decode none rest := by
  simp only [decode, feed, begin, if_pos h, List.cons_append, List.nil_append]

theorem decode_opens (h : Opens b.toNat p) (rest : Bytes) :
    decode none (b :: rest) = decode (some p) rest := by
  simp only [decode, feed, begin_of_opens h, List.nil_append]

/-- The bytes of a character are read as that character. -/
theorem decode_encode (c : Char) (rest : Bytes) :
    decode none (String.utf8EncodeChar c ++ rest) = some c :: decode none rest := by
  have hself := Char.ofNat_toNat c
  rcases encode_cases c with ⟨hlow, hencode⟩ | ⟨b, p, hb, hcovers, hencode⟩
  · have hbyte : (UInt8.ofNat c.toNat).toNat = c.toNat := by
      rw [UInt8.toNat_ofNat', Nat.mod_eq_of_lt (by omega)]
    rw [hencode, List.singleton_append, decode_one (by omega), hbyte, hself]
  · rw [hencode, List.cons_append, decode_opens hb, decode_tail rfl hcovers, hself]

/-- A character that is read was written. -/
theorem exists_encode (h : decode none bytes = some c :: parts) :
    ∃ rest, bytes = String.utf8EncodeChar c ++ rest ∧ decode none rest = parts := by
  cases bytes with
  | nil => cases h
  | cons b rest =>
    rcases begin_cases b.toNat with ⟨hlow, -⟩ | hnone | ⟨p, -, hb⟩
    · rw [decode_one hlow] at h
      simp only [List.cons.injEq, Option.some.injEq] at h
      obtain ⟨rfl, hrest⟩ := h
      exact ⟨rest, by rw [encode_one hlow, UInt8.ofNat_toNat]; rfl, hrest⟩
    · simp [decode, feed, hnone] at h
    · rw [decode_opens hb] at h
      obtain ⟨n, behind, hcovers, rfl, rfl, hrest⟩ := exists_covers rfl hb.bounds.2.2.1 hb.bounds.2.2.2 h
      exact ⟨behind, by rw [hb.encode hcovers]; rfl, hrest⟩

/-- The bytes of a text are read as the text, whatever follows. -/
theorem decode_bytes_append (t : Text) (rest : Bytes) :
    decode none (t.bytes ++ rest) = t.map some ++ decode none rest := by
  induction t with
  | nil => rfl
  | cons c t ih => rw [Text.bytes_cons, List.append_assoc, decode_encode, ih, List.map_cons, List.cons_append]

/-- A text that is read first was written first. -/
theorem exists_bytes {t : Text} (h : decode none bytes = t.map some ++ parts) :
    ∃ rest, bytes = t.bytes ++ rest ∧ decode none rest = parts := by
  induction t generalizing bytes with
  | nil => exact ⟨bytes, rfl, h⟩
  | cons c t ih =>
    obtain ⟨rest, rfl, hrest⟩ := exists_encode h
    obtain ⟨behind, rfl, hbehind⟩ := ih hrest
    exact ⟨behind, by rw [Text.bytes_cons, List.append_assoc], hbehind⟩

theorem decode_some_ne_nil (p : Pending) (bytes : Bytes) : decode (some p) bytes ≠ [] := by
  induction bytes generalizing p with
  | nil => simp [decode]
  | cons b rest ih =>
    by_cases hb : p.low ≤ b.toNat ∧ b.toNat ≤ p.high
    · rw [decode_inside hb.1 hb.2]
      cases p.further with
      | zero => exact List.cons_ne_nil _ _
      | succ further => exact ih _
    · rw [decode_outside hb]
      exact List.cons_ne_nil _ _

theorem decode_eq_nil_iff : decode none bytes = [] ↔ bytes = [] := by
  refine ⟨fun h => ?_, fun h => h ▸ rfl⟩
  cases bytes with
  | nil => rfl
  | cons b rest =>
    rcases begin_cases b.toNat with ⟨hlow, -⟩ | hnone | ⟨p, -, hb⟩
    · rw [decode_one hlow] at h
      cases h
    · simp [decode, feed, hnone] at h
    · rw [decode_opens hb] at h
      exact absurd h (decode_some_ne_nil p rest)

theorem mapM_id_eq_some_iff {t : Text} : parts.mapM id = some t ↔ parts = t.map some := by
  induction parts generalizing t with
  | nil => cases t <;> simp
  | cons part parts ih =>
    simp only [List.mapM_cons, id, Option.bind_eq_bind, Option.bind_eq_some_iff, Option.pure_def,
      Option.some.injEq]
    constructor
    · rintro ⟨c, rfl, front, hfront, rfl⟩
      rw [ih.1 hfront, List.map_cons]
    · intro h
      cases t with
      | nil => cases h
      | cons c t =>
        rw [List.map_cons, List.cons.injEq] at h
        exact ⟨c, h.1, t, ih.2 h.2, rfl⟩

/-- Bytes are text when they are those of a text. -/
theorem text?_eq_some_iff {t : Text} : text? bytes = some t ↔ t.bytes = bytes := by
  rw [text?, mapM_id_eq_some_iff]
  constructor
  · intro h
    have hall : decode none bytes = t.map some ++ [] := by rw [h, List.append_nil]
    obtain ⟨rest, rfl, hrest⟩ := exists_bytes hall
    rw [decode_eq_nil_iff.1 hrest, List.append_nil]
  · rintro rfl
    have h := decode_bytes_append t []
    rwa [List.append_nil, show decode none [] = [] from rfl, List.append_nil] at h

theorem text?_eq_none_iff : text? bytes = none ↔ ∀ t : Text, t.bytes ≠ bytes := by
  rw [Option.eq_none_iff_forall_ne_some]
  exact forall_congr' fun t => not_congr text?_eq_some_iff

theorem lossy_eq {source : Text} (h : text? bytes = some source) : lossy bytes = source := by
  rw [text?, mapM_id_eq_some_iff] at h
  rw [lossy, h, List.map_map]
  exact List.map_id _

theorem decode_eq_valid (bytes : Bytes) :
    decode none bytes = (valid bytes).map some ++ (decode none bytes).dropWhile Option.isSome := by
  rw [valid]
  generalize decode none bytes = parts
  induction parts with
  | nil => rfl
  | cons part parts ih =>
    cases part with
    | none => rfl
    | some c => exact congrArg (some c :: ·) ih

/-- What is replaced stands behind the valid front part. -/
theorem valid_isPrefix_lossy (bytes : Bytes) : valid bytes <+: lossy bytes := by
  rw [lossy, decode_eq_valid, List.map_append, List.map_map]
  exact ⟨_, congrArg (· ++ _) (List.map_id _).symm⟩

/-- The text before the first invalid part is the longest that the bytes begin with. -/
theorem bytes_isPrefix_iff {t : Text} : t.bytes <+: bytes ↔ t <+: valid bytes := by
  constructor
  · rintro ⟨rest, rfl⟩
    have hchars : ∀ part ∈ t.map some, part.isSome = true := by simp
    rw [valid, decode_bytes_append, List.takeWhile_append_of_pos hchars, List.filterMap_append,
      List.filterMap_map]
    exact ⟨_, congrArg (· ++ _) List.filterMap_some.symm⟩
  · rintro ⟨behind, hbehind⟩
    obtain ⟨rest, hrest, -⟩ := exists_bytes (decode_eq_valid bytes)
    rw [← hbehind, Text.bytes_append, List.append_assoc] at hrest
    exact ⟨_, hrest.symm⟩

end Utf8

end ServerPages
