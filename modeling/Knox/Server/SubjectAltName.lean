import Knox.Types
import Mathlib.Data.Nat.Digits

/-! Reading URI names out of a certificate's SAN extension, and the DER reader under it.

`getURINamesFromSANExtension` and `GetURINamesFromExtensions` (`server/auth/spiffe.go`) are
go-spiffe's code, copied; the SPIFFE provider calls go-spiffe's own copy through
`uri.GetURINamesFromCertificate`. They read the extension with `asn1.Unmarshal` into a
`RawValue`. `Asn1` models what of Go's `encoding/asn1` that reaches: `parseBase128Int`,
`parseTagAndLength` and `parseField` for a `RawValue`, with each check and its message, an
error by its text. `RawValue.encode` is the DER encoding of an element, and `goString` reads a
Go string's bytes one character each.

* `unmarshalRaw_eq_ok`: `Unmarshal` into a `RawValue` accepts exactly the DER encoding of an
  element of a class of two bits and a tag and a length below 2^31, followed by anything, and
  returns that element and what follows: it reads no other encoding of an element.
* `getURINamesFromSANExtension_eq_ok`: the SAN reader accepts exactly the DER encoding of a
  SEQUENCE of DER elements, and returns the contents of every element of tag 6, whatever its
  class and form.
* `getURINamesFromExtensions_eq`: every SAN extension is read, the first that fails is the
  error, and the names are those of the last one. -/
namespace Knox

namespace Asn1

/-- `SyntaxError{msg}`, by its text. -/
def syntaxError (msg : String) : GoError := .errorf ("asn1: syntax error: " ++ msg)

/-- `StructuralError{msg}`, by its text. -/
def structuralError (msg : String) : GoError := .errorf ("asn1: structure error: " ++ msg)

/-- The loop of `parseBase128Int` at group `shifted`, with `ret64` read so far: each byte
adds its low seven bits, and the first with bit 8 clear ends the number. -/
def base128Loop (shifted ret64 : Nat) : List UInt8 → Except GoError (Nat × List UInt8)
  | [] => .error (syntaxError "truncated base 128 integer")
  | b :: rest =>
    if shifted = 5 then .error (structuralError "base 128 integer too large")
    else if shifted = 0 ∧ b = 0x80 then .error (syntaxError "integer is not minimally encoded")
    else if b &&& 0x80 = 0 then
      if ret64 * 128 + (b &&& 0x7f).toNat > 2147483647 then .error (structuralError "base 128 integer too large")
      else .ok (ret64 * 128 + (b &&& 0x7f).toNat, rest)
    else base128Loop (shifted + 1) (ret64 * 128 + (b &&& 0x7f).toNat) rest

/-- `parseBase128Int`, from the current offset. -/
def parseBase128Int (bytes : List UInt8) : Except GoError (Nat × List UInt8) := base128Loop 0 0 bytes

/-- The loop of `parseTagAndLength` over the `numBytes` octets of a long length. -/
def lengthLoop : Nat → Nat → List UInt8 → Except GoError (Nat × List UInt8)
  | 0, length, rest => .ok (length, rest)
  | _ + 1, _, [] => .error (syntaxError "truncated tag or length")
  | n + 1, length, b :: rest =>
    if length ≥ 8388608 then .error (structuralError "length too large")
    else if length * 256 + b.toNat = 0 then .error (structuralError "superfluous leading zeros in length")
    else lengthLoop n (length * 256 + b.toNat) rest

/-- `tagAndLength`. -/
structure TagAndLength where
  cls : Nat
  tag : Nat
  length : Nat
  isCompound : Bool

/-- The tag of the identifier octet `b`: its low five bits, or a base-128 number after them
when they are all set, which must then be 31 or more. -/
def parseTag (b : UInt8) (rest : List UInt8) : Except GoError (Nat × List UInt8) :=
  if b &&& 0x1f = 0x1f then
    match parseBase128Int rest with
    | .error e => .error e
    | .ok (tag, rest) => if tag < 0x1f then .error (syntaxError "non-minimal tag") else .ok (tag, rest)
  else .ok ((b &&& 0x1f).toNat, rest)

/-- The length after the tag: seven bits, or `numBytes` octets after `0x80 + numBytes`,
which must not be indefinite, begin with a zero, or be below 128. -/
def parseLength : List UInt8 → Except GoError (Nat × List UInt8)
  | [] => .error (syntaxError "truncated tag or length")
  | b :: rest =>
    if b &&& 0x80 = 0 then .ok ((b &&& 0x7f).toNat, rest)
    else if (b &&& 0x7f).toNat = 0 then .error (syntaxError "indefinite length found (not DER)")
    else
      match lengthLoop (b &&& 0x7f).toNat 0 rest with
      | .error e => .error e
      | .ok (length, rest) =>
        if length < 0x80 then .error (structuralError "non-minimal length") else .ok (length, rest)

/-- `parseTagAndLength`, from the current offset. -/
def parseTagAndLength : List UInt8 → Except GoError (TagAndLength × List UInt8)
  | [] => .error (.errorf "asn1: internal error in parseTagAndLength")
  | b :: rest => do
    let (tag, rest) ← parseTag b rest
    let (length, rest) ← parseLength rest
    pure (⟨(b >>> 6).toNat, tag, length, b &&& 0x20 = 0x20⟩, rest)

/-- `RawValue`, without `FullBytes`, which nothing here reads. -/
structure RawValue where
  cls : Nat
  tag : Nat
  isCompound : Bool
  bytes : List UInt8
  deriving DecidableEq, Repr

/-- `asn1.Unmarshal(b, &v)` into a `RawValue v`, as `parseField` reads it: an empty input is a
truncated sequence, a `RawValue` takes any tag, and its content must be there. -/
def unmarshalRaw (bytes : List UInt8) : Except GoError (RawValue × List UInt8) :=
  match bytes with
  | [] => .error (syntaxError "sequence truncated")
  | _ :: _ => do
    let (t, rest) ← parseTagAndLength bytes
    if t.length > rest.length then throw (syntaxError "data truncated")
    else pure (⟨t.cls, t.tag, t.isCompound, rest.take t.length⟩, rest.drop t.length)

/-! ### DER -/

/-- A number in base 128, most significant group first, bit 8 set on every group but the last. -/
def base128 (n : Nat) : List UInt8 :=
  match Nat.digits 128 n with
  | [] => []
  | d :: ds => (ds.reverse.map (· + 128) ++ [d]).map UInt8.ofNat

/-- The length octets: seven bits below 128, else `0x80 + k` and the `k` bytes of the length,
most significant first. -/
def lengthOctets (n : Nat) : List UInt8 :=
  if n < 128 then [UInt8.ofNat n]
  else UInt8.ofNat (128 + (Nat.digits 256 n).length) :: (Nat.digits 256 n).reverse.map UInt8.ofNat

/-- The identifier octets: class, form and tag, the tag in base 128 after `0x1f` from 31 on. -/
def identifier (cls : Nat) (isCompound : Bool) (tag : Nat) : List UInt8 :=
  if tag < 31 then [UInt8.ofNat (cls * 64 + (if isCompound then 32 else 0) + tag)]
  else UInt8.ofNat (cls * 64 + (if isCompound then 32 else 0) + 31) :: base128 tag

/-- The DER encoding of an element. -/
def RawValue.encode (v : RawValue) : List UInt8 :=
  identifier v.cls v.isCompound v.tag ++ lengthOctets v.bytes.length ++ v.bytes

/-- An element `Unmarshal` can read: a class of two bits, and a tag and a length that pass
Go's `int32` checks. -/
def RawValue.Valid (v : RawValue) : Prop :=
  v.cls < 4 ∧ v.tag < 2147483648 ∧ v.bytes.length < 2147483648

/-! ### Bytes -/

theorem uint8_eq_iff_toNat {a b : UInt8} : a = b ↔ a.toNat = b.toNat := ⟨fun h => h ▸ rfl, UInt8.toNat.inj⟩

theorem toNat_ofNat_byte {n : Nat} (h : n < 256) : (UInt8.ofNat n).toNat = n := UInt8.toNat_ofNat_of_lt h

theorem toNat_0x80 : (0x80 : UInt8).toNat = 128 := rfl

theorem ofNat_toNat_byte (b : UInt8) : UInt8.ofNat b.toNat = b :=
  uint8_eq_iff_toNat.mpr (toNat_ofNat_byte b.toNat_lt_size)

theorem toNat_and_7f (b : UInt8) : (b &&& 0x7f).toNat = b.toNat % 128 := by
  rw [UInt8.and_toNat]
  exact Nat.and_pow_two_sub_one_eq_mod _ 7

theorem toNat_and_1f (b : UInt8) : (b &&& 0x1f).toNat = b.toNat % 32 := by
  rw [UInt8.and_toNat]
  exact Nat.and_pow_two_sub_one_eq_mod _ 5

theorem toNat_shiftRight_6 (b : UInt8) : (b >>> 6).toNat = b.toNat / 64 := by
  show b.toNat >>> (6 % 8) = _
  rw [Nat.shiftRight_eq_div_pow]

set_option maxRecDepth 20000 in
/-- Bits 8 and 6 of a byte. -/
theorem byte_bits : ∀ x : Fin 256, (x.val &&& 128 = 0 ↔ x.val < 128) ∧ (x.val &&& 32 = 32 ↔ x.val / 32 % 2 = 1) := by
  decide

theorem and_80_eq_zero (b : UInt8) : b &&& 0x80 = 0 ↔ b.toNat < 128 := by
  rw [uint8_eq_iff_toNat, UInt8.and_toNat]
  exact (byte_bits ⟨_, b.toNat_lt_size⟩).1

theorem and_20_eq (b : UInt8) : b &&& 0x20 = 0x20 ↔ b.toNat / 32 % 2 = 1 := by
  rw [uint8_eq_iff_toNat, UInt8.and_toNat]
  exact (byte_bits ⟨_, b.toNat_lt_size⟩).2

theorem and_1f_eq (b : UInt8) : b &&& 0x1f = 0x1f ↔ b.toNat % 32 = 31 := by
  rw [uint8_eq_iff_toNat, toNat_and_1f]
  rfl

/-! ### Reading back a DER element -/

/-- The number whose digits in base `b`, most significant first, are `l`, after `acc`. -/
def beValue (b acc : Nat) (l : List Nat) : Nat := l.foldl (fun a x => a * b + x) acc

theorem le_beValue (b : Nat) (hb : 0 < b) : ∀ (l : List Nat) (acc : Nat), acc ≤ beValue b acc l
  | [], _ => le_rfl
  | x :: l, acc => le_trans (Nat.le_add_right_of_le (Nat.le_mul_of_pos_right acc hb)) (le_beValue b hb l (acc * b + x))

theorem beValue_zero (b : Nat) (l : List Nat) : beValue b 0 l = Nat.ofDigits b l.reverse := by
  suffices ∀ acc, beValue b acc l = acc * b ^ l.length + Nat.ofDigits b l.reverse by simpa using this 0
  induction l with
  | nil => simp [beValue]
  | cons x l ih =>
    intro acc
    simp only [beValue, List.foldl_cons] at ih ⊢
    rw [ih, List.reverse_cons, Nat.ofDigits_append, List.length_reverse, List.length_cons, pow_succ]
    simp [Nat.ofDigits]
    ring

/-- Digits with no leading zero are the digits of their value. -/
theorem digits_beValue {b : Nat} (hb : 1 < b) {l : List Nat} (hl : ∀ x ∈ l, x < b)
    (hh : ∀ x ∈ l.head?, x ≠ 0) : Nat.digits b (beValue b 0 l) = l.reverse := by
  rw [beValue_zero]
  refine Nat.digits_ofDigits b hb _ (fun x hx => hl x (List.mem_reverse.mp hx)) fun hne => ?_
  rw [List.getLast_reverse]
  exact hh _ (List.head?_eq_head _)

/-- The most significant digit is never zero. -/
theorem head_reverse_digits_ne_zero (b n : Nat) : ∀ x ∈ (Nat.digits b n).reverse.head?, x ≠ 0 := by
  intro x hx
  rw [List.head?_reverse] at hx
  obtain ⟨hne, rfl⟩ := List.mem_getLast?_eq_getLast hx
  exact Nat.getLast_digit_ne_zero b fun h => hne (by simp [h])

theorem beValue_reverse_digits (b n : Nat) : beValue b 0 (Nat.digits b n).reverse = n := by
  rw [beValue_zero, List.reverse_reverse, Nat.ofDigits_digits]

/-- `base128Loop` reads groups with bit 8 set and a last group without it. -/
theorem base128Loop_groups (rest : List UInt8) {d : Nat} (hd : d < 128) :
    ∀ (hs : List Nat) (s acc : Nat), (∀ h ∈ hs, h < 128) → s + hs.length < 5 →
      (s = 0 → ∀ h ∈ hs.head?, h ≠ 0) → beValue 128 acc (hs ++ [d]) ≤ 2147483647 →
      base128Loop s acc ((hs.map (· + 128) ++ [d]).map UInt8.ofNat ++ rest) = .ok (beValue 128 acc (hs ++ [d]), rest)
  | [], s, acc, _, h5, _, hle => by
    have hb : (UInt8.ofNat d).toNat = d := toNat_ofNat_byte (by omega)
    have h80 : UInt8.ofNat d ≠ 0x80 := fun e => by rw [uint8_eq_iff_toNat, hb, toNat_0x80] at e; omega
    have hv : beValue 128 acc ([] ++ [d]) = acc * 128 + d := rfl
    rw [hv] at hle ⊢
    show base128Loop s acc (UInt8.ofNat d :: rest) = _
    rw [base128Loop, if_neg (by simp at h5; omega), if_neg (by simp [h80]),
      if_pos ((and_80_eq_zero _).mpr (by omega)), toNat_and_7f, hb, Nat.mod_eq_of_lt hd, if_neg (by omega)]
  | h :: hs, s, acc, hh, h5, h0, hle => by
    have hh' : h < 128 := hh h (List.mem_cons_self _ _)
    have hb : (UInt8.ofNat (h + 128)).toNat = h + 128 := toNat_ofNat_byte (by omega)
    have h80 : ¬(s = 0 ∧ UInt8.ofNat (h + 128) = 0x80) := fun ⟨hs0, e⟩ => by
      rw [uint8_eq_iff_toNat, hb, toNat_0x80] at e
      exact h0 hs0 h rfl (by omega)
    rw [List.map_cons, List.cons_append, List.map_cons, List.cons_append, base128Loop, if_neg (by simp at h5; omega), if_neg h80, if_neg (by rw [and_80_eq_zero, hb]; omega),
      toNat_and_7f, hb, show (h + 128) % 128 = h by omega]
    exact base128Loop_groups rest hd hs (s + 1) (acc * 128 + h) (fun x hx => hh x (List.mem_cons_of_mem _ hx))
      (by simp at h5 ⊢; omega) (by omega) hle

/-- What `base128Loop` accepts: the groups `base128Loop_groups` reads, and no others. -/
theorem base128Loop_eq_ok {n : Nat} {rest : List UInt8} :
    ∀ {bytes : List UInt8} {s acc : Nat}, s ≤ 5 → base128Loop s acc bytes = .ok (n, rest) →
    ∃ hs d, d < 128 ∧ (∀ h ∈ hs, h < 128) ∧ s + hs.length < 5 ∧ (s = 0 → ∀ h ∈ hs.head?, h ≠ 0) ∧
      n = beValue 128 acc (hs ++ [d]) ∧ n ≤ 2147483647 ∧
      bytes = (hs.map (· + 128) ++ [d]).map UInt8.ofNat ++ rest
  | [], _, _, _, h => by cases h
  | b :: bytes, s, acc, hs5, h => by
    have hb : b.toNat < 256 := b.toNat_lt_size
    rw [base128Loop] at h
    split_ifs at h with h5 h80 hlow hbig
    · cases h
      rw [and_80_eq_zero] at hlow
      rw [toNat_and_7f, Nat.mod_eq_of_lt hlow] at hbig ⊢
      exact ⟨[], b.toNat, hlow, by simp, by simp; omega, by simp, rfl, by omega, by simp [ofNat_toNat_byte]⟩
    · obtain ⟨hs, d, hd, hhs, h5', _, rfl, hle, rfl⟩ := base128Loop_eq_ok (by omega) h
      rw [and_80_eq_zero] at hlow
      rw [toNat_and_7f] at hle ⊢
      refine ⟨b.toNat % 128 :: hs, d, hd, ?_, by simp at h5' ⊢; omega, fun hs0 h hh => ?_, rfl, hle, ?_⟩
      · simpa [Nat.mod_lt] using hhs
      · simp only [List.head?_cons, Option.mem_def, Option.some.injEq] at hh
        subst hh
        exact fun h0 => h80 ⟨hs0, uint8_eq_iff_toNat.mpr (by rw [toNat_0x80]; omega)⟩
      · rw [List.map_cons, List.cons_append, List.map_cons, List.cons_append,
          show b.toNat % 128 + 128 = b.toNat by omega, ofNat_toNat_byte]

/-- A number below `b` to the `k` has at most `k` digits in base `b`: here, a tag or a length
that passes Go's checks. -/
theorem length_digits_le {b n k : Nat} (hb : 1 < b) (hn : n < Nat.pow b k) : (Nat.digits b n).length ≤ k := by
  rcases Nat.eq_zero_or_pos n with rfl | hpos
  · simp
  · by_contra hc
    have hb0 : 0 < b := by omega
    refine lt_irrefl (b ^ k * b) ?_
    calc b ^ k * b = b ^ (k + 1) := (pow_succ b k).symm
      _ ≤ b ^ (Nat.digits b n).length := Nat.pow_le_pow_right hb0 (by omega)
      _ ≤ b * n := Nat.base_pow_length_digits_le b n hb hpos.ne'
      _ < b * b ^ k := Nat.mul_lt_mul_of_pos_left hn hb0
      _ = b ^ k * b := mul_comm _ _

theorem parseBase128Int_base128 {n : Nat} (h0 : 0 < n) (hn : n < 2147483648) (rest : List UInt8) :
    parseBase128Int (base128 n ++ rest) = .ok (n, rest) := by
  obtain ⟨d, ds, hds⟩ := List.exists_cons_of_ne_nil (Nat.digits_ne_nil_iff_ne_zero.mpr h0.ne')
  have hlt : ∀ x ∈ d :: ds, x < 128 := fun x hx => Nat.digits_lt_base (by norm_num) (hds ▸ hx)
  have hlen : (Nat.digits 128 n).length ≤ 5 := length_digits_le (by norm_num) (show n < 34359738368 by omega)
  have hval : beValue 128 0 (ds.reverse ++ [d]) = n := by
    rw [beValue_zero, List.reverse_append, List.reverse_reverse, List.reverse_singleton, List.singleton_append,
      ← hds, Nat.ofDigits_digits]
  have hlast : ∀ h ∈ ds.reverse.head?, h ≠ 0 := fun h hh => by
    rw [List.head?_reverse] at hh
    obtain ⟨hne, rfl⟩ := List.mem_getLast?_eq_getLast hh
    have := Nat.getLast_digit_ne_zero 128 h0.ne'
    simp only [hds, List.getLast_cons hne] at this
    exact this
  rw [hds] at hlen
  rw [base128, hds, parseBase128Int]
  have := base128Loop_groups rest (hlt d (List.mem_cons_self _ _)) ds.reverse 0 0
    (fun x hx => hlt x (List.mem_cons_of_mem _ (List.mem_reverse.mp hx))) (by simp at hlen ⊢; omega)
    (fun _ => hlast) (by rw [hval]; omega)
  rwa [hval] at this

/-- `parseBase128Int` reads exactly the minimal base-128 form of a positive number that fits
an `int32`, followed by anything. -/
theorem parseBase128Int_eq_ok {bytes rest : List UInt8} {n : Nat} (h0 : 0 < n) :
    parseBase128Int bytes = .ok (n, rest) ↔ n < 2147483648 ∧ bytes = base128 n ++ rest := by
  refine ⟨fun h => ?_, fun ⟨hn, hb⟩ => hb ▸ parseBase128Int_base128 h0 hn rest⟩
  obtain ⟨hs, d, hd, hhs, -, hhead, rfl, hle, rfl⟩ := base128Loop_eq_ok (Nat.zero_le 5) h
  have hhead' : ∀ x ∈ (hs ++ [d]).head?, x ≠ 0 := by
    cases hs with
    | nil => simpa [beValue] using h0.ne'
    | cons h hs => exact hhead rfl
  have hdig : Nat.digits 128 (beValue 128 0 (hs ++ [d])) = (hs ++ [d]).reverse :=
    digits_beValue (by norm_num) (by simpa [or_imp, forall_and] using ⟨hhs, hd⟩) hhead'
  refine ⟨by omega, ?_⟩
  rw [base128, hdig, List.reverse_append, List.reverse_singleton, List.singleton_append]
  simp only [List.reverse_reverse]

/-- `lengthLoop` reads `l.length` octets as a number in base 256 that has no leading zero and
stays below 2^31. -/
theorem lengthLoop_bytes (rest : List UInt8) :
    ∀ (l : List Nat) (acc : Nat), (∀ x ∈ l, x < 256) → (acc = 0 → ∀ x ∈ l.head?, x ≠ 0) →
      beValue 256 acc l < 2147483648 →
      lengthLoop l.length acc (l.map UInt8.ofNat ++ rest) = .ok (beValue 256 acc l, rest)
  | [], _, _, _, _ => rfl
  | x :: l, acc, hl, h0, hv => by
    have hx := hl x (List.mem_cons_self _ _)
    have hstep : beValue 256 acc (x :: l) = beValue 256 (acc * 256 + x) l := rfl
    have hle := le_beValue 256 (by norm_num) l (acc * 256 + x)
    have hx0 : acc * 256 + x ≠ 0 := fun h => h0 (by omega) x rfl (by omega)
    rw [List.length_cons, List.map_cons, List.cons_append, lengthLoop, if_neg (by omega), toNat_ofNat_byte hx,
      if_neg hx0, hstep]
    exact lengthLoop_bytes rest l _ (fun y hy => hl y (List.mem_cons_of_mem _ hy)) (absurd · hx0) (hstep ▸ hv)

/-- What `lengthLoop` accepts: the octets `lengthLoop_bytes` reads, and no others. -/
theorem lengthLoop_eq_ok {n : Nat} {rest : List UInt8} :
    ∀ {k acc : Nat} {bytes : List UInt8}, lengthLoop k acc bytes = .ok (n, rest) →
      ∃ l : List Nat, l.length = k ∧ (∀ x ∈ l, x < 256) ∧ (acc = 0 → ∀ x ∈ l.head?, x ≠ 0) ∧
        (acc < 2147483648 → n < 2147483648) ∧ n = beValue 256 acc l ∧ bytes = l.map UInt8.ofNat ++ rest
  | 0, acc, bytes, h => by
    cases h
    exact ⟨[], rfl, by simp, by simp, id, rfl, rfl⟩
  | k + 1, acc, [], h => by cases h
  | k + 1, acc, b :: bytes, h => by
    have hb : b.toNat < 256 := b.toNat_lt_size
    rw [lengthLoop] at h
    split_ifs at h with hbig hzero
    obtain ⟨l, rfl, hl, -, hn, rfl, rfl⟩ := lengthLoop_eq_ok h
    refine ⟨b.toNat :: l, rfl, ?_, fun h0 x hx => ?_, fun _ => hn (by omega), rfl, by simp [ofNat_toNat_byte]⟩
    · simpa [hb] using hl
    · simp only [List.head?_cons, Option.mem_def, Option.some.injEq] at hx
      omega

/-- What `parseLength` reads is a length below 2^31, in its DER length octets. -/
theorem lengthOctets_of_parseLength {bytes rest : List UInt8} {n : Nat} (h : parseLength bytes = .ok (n, rest)) :
    n < 2147483648 ∧ bytes = lengthOctets n ++ rest := by
  match bytes, h with
  | b :: bytes, h =>
    have hb : b.toNat < 256 := b.toNat_lt_size
    rw [parseLength] at h
    split_ifs at h with h80 h7f
    · cases h
      rw [and_80_eq_zero] at h80
      rw [toNat_and_7f, Nat.mod_eq_of_lt h80, lengthOctets, if_pos h80, ofNat_toNat_byte]
      exact ⟨by omega, rfl⟩
    · split at h
      · cases h
      · rename_i len r hloop
        split_ifs at h with hmin
        cases h
        rw [and_80_eq_zero] at h80
        rw [toNat_and_7f] at h7f hloop
        obtain ⟨l, hlen, hl, h0, hn, rfl, rfl⟩ := lengthLoop_eq_ok hloop
        have hdig : Nat.digits 256 (beValue 256 0 l) = l.reverse := digits_beValue (by norm_num) hl (h0 rfl)
        refine ⟨hn (by norm_num), ?_⟩
        rw [lengthOctets, if_neg hmin, hdig, List.length_reverse, List.reverse_reverse, hlen,
          show 128 + b.toNat % 128 = b.toNat by omega, ofNat_toNat_byte]
        rfl

/-- `parseLength` reads a length below 2^31 back from its DER length octets. -/
theorem parseLength_lengthOctets {n : Nat} (hn : n < 2147483648) (rest : List UInt8) :
    parseLength (lengthOctets n ++ rest) = .ok (n, rest) := by
  rw [lengthOctets]
  split_ifs with h128
  · have hb := toNat_ofNat_byte (show n < 256 by omega)
    rw [List.singleton_append, parseLength, if_pos ((and_80_eq_zero _).mpr (by omega)), toNat_and_7f, hb,
      Nat.mod_eq_of_lt h128]
  · have hD : (Nat.digits 256 n).length ≤ 4 := length_digits_le (by norm_num) (show n < 4294967296 by omega)
    have hD0 : 0 < (Nat.digits 256 n).length :=
      List.length_pos.mpr (Nat.digits_ne_nil_iff_ne_zero.mpr (by omega))
    have hb := toNat_ofNat_byte (show 128 + (Nat.digits 256 n).length < 256 by omega)
    have hloop := lengthLoop_bytes rest (Nat.digits 256 n).reverse 0
      (fun x hx => Nat.digits_lt_base (by norm_num) (List.mem_reverse.mp hx))
      (fun _ => head_reverse_digits_ne_zero 256 n) (by rw [beValue_reverse_digits]; exact hn)
    rw [beValue_reverse_digits, List.length_reverse] at hloop
    rw [List.cons_append, parseLength, if_neg (by rw [and_80_eq_zero, hb]; omega),
      if_neg (by rw [toNat_and_7f, hb]; omega), toNat_and_7f, hb,
      show (128 + (Nat.digits 256 n).length) % 128 = (Nat.digits 256 n).length by omega, hloop]
    simp only [if_neg h128]

/-- `parseLength` reads exactly the DER length octets of a length below 2^31, followed by
anything. -/
theorem parseLength_eq_ok {bytes rest : List UInt8} {n : Nat} :
    parseLength bytes = .ok (n, rest) ↔ n < 2147483648 ∧ bytes = lengthOctets n ++ rest :=
  ⟨lengthOctets_of_parseLength, fun ⟨hn, h⟩ => h ▸ parseLength_lengthOctets hn rest⟩

/-- A byte is its class, form and low five tag bits. -/
theorem byte_fields (b : UInt8) :
    b.toNat = b.toNat / 64 * 64 + (if b &&& 0x20 = 0x20 then 32 else 0) + b.toNat % 32 := by
  by_cases h : b &&& 0x20 = 0x20
  · rw [if_pos h]
    have := (and_20_eq b).mp h
    omega
  · rw [if_neg h]
    have := mt (and_20_eq b).mpr h
    omega

/-- The identifier octets: one byte with class, form and the tag or 31, then the tag in base 128
from 31 on. -/
theorem identifier_eq (cls : Nat) (c : Bool) (tag : Nat) :
    identifier cls c tag =
      UInt8.ofNat (cls * 64 + (if c then 32 else 0) + if tag < 31 then tag else 31) ::
        (if tag < 31 then [] else base128 tag) := by
  unfold identifier
  by_cases h : tag < 31 <;> simp [h]

theorem identifier_byte {cls t : Nat} (c : Bool) (hcls : cls < 4) (ht : t < 32) :
    let b := UInt8.ofNat (cls * 64 + (if c then 32 else 0) + t)
    b.toNat / 64 = cls ∧ (b &&& 0x20 = 0x20 ↔ c = true) ∧ b.toNat % 32 = t := by
  intro b
  have hb : b.toNat = cls * 64 + (if c then 32 else 0) + t := toNat_ofNat_byte (by split <;> omega)
  rw [and_20_eq, hb]
  cases c <;> simp <;> omega

/-- The tag after the identifier octet `b`: its low five bits, or a base-128 tag of 31 or more. -/
theorem parseTag_eq_ok {b : UInt8} {bytes rest : List UInt8} {tag : Nat} :
    parseTag b bytes = .ok (tag, rest) ↔
      tag < 2147483648 ∧ b.toNat % 32 = (if tag < 31 then tag else 31) ∧ bytes = (if tag < 31 then [] else base128 tag) ++ rest := by
  have hb : b.toNat < 256 := b.toNat_lt_size
  unfold parseTag
  by_cases h1f : b.toNat % 32 = 31
  · rw [if_pos ((and_1f_eq b).mpr h1f)]
    constructor
    · intro h
      split at h
      · cases h
      · rename_i tag' r hparse
        split_ifs at h with hmin
        cases h
        obtain ⟨hlt, rfl⟩ := (parseBase128Int_eq_ok (by omega)).mp hparse
        simp only [if_neg hmin]
        exact ⟨hlt, h1f, trivial⟩
    · rintro ⟨hlt, hmin, rfl⟩
      have h31 : ¬tag < 31 := by split at hmin <;> omega
      rw [if_neg h31, parseBase128Int_base128 (by omega) hlt]
      exact if_neg h31
  · rw [if_neg (mt (and_1f_eq b).mp h1f), toNat_and_1f]
    constructor
    · intro h
      cases h
      simp only [if_pos (show b.toNat % 32 < 31 by omega)]
      exact ⟨by omega, trivial, rfl⟩
    · rintro ⟨hlt, hmin, rfl⟩
      have h31 : tag < 31 := by split at hmin <;> omega
      simp only [hmin, if_pos h31]
      rfl

/-- `parseTagAndLength` reads exactly the DER identifier and length octets of a class of two
bits, a tag and a length that pass Go's `int32` checks, followed by anything. -/
theorem parseTagAndLength_eq_ok {bytes rest : List UInt8} {t : TagAndLength} :
    parseTagAndLength bytes = .ok (t, rest) ↔
      t.cls < 4 ∧ t.tag < 2147483648 ∧ t.length < 2147483648 ∧
        bytes = identifier t.cls t.isCompound t.tag ++ lengthOctets t.length ++ rest := by
  constructor
  · intro h
    match bytes, h with
    | b :: bytes, h =>
      simp only [parseTagAndLength, bind_eq_ok, Prod.exists, pure_eq_ok, Except.ok.injEq, Prod.mk.injEq] at h
      obtain ⟨tag, r, hpt, len, r', hpl, rfl, rfl⟩ := h
      obtain ⟨htag, hmin, rfl⟩ := parseTag_eq_ok.mp hpt
      obtain ⟨hlen, rfl⟩ := parseLength_eq_ok.mp hpl
      have hb : b.toNat < 256 := b.toNat_lt_size
      refine ⟨by simp [toNat_shiftRight_6]; omega, htag, hlen, ?_⟩
      simp only [toNat_shiftRight_6, identifier_eq, List.cons_append, List.append_assoc, List.cons.injEq, and_true,
        decide_eq_true_eq]
      rw [uint8_eq_iff_toNat, toNat_ofNat_byte (by split_ifs <;> omega), ← hmin]
      exact byte_fields b
  · rcases t with ⟨cls, tag, len, c⟩
    rintro ⟨hcls, htag, hlen, rfl⟩
    obtain ⟨h64, h20, h32⟩ := identifier_byte c hcls (show (if tag < 31 then tag else 31) < 32 by split <;> omega)
    rw [identifier_eq, List.cons_append, List.cons_append, parseTagAndLength, List.append_assoc]
    simp only [parseTag_eq_ok.mpr ⟨htag, h32, rfl⟩, parseLength_eq_ok.mpr ⟨hlen, rfl⟩, ok_bind, pure_eq_ok,
      toNat_shiftRight_6, h64, h20, Bool.decide_eq_true]

theorem encode_ne_nil (v : RawValue) : v.encode ≠ [] := by
  simp [RawValue.encode, identifier_eq]

/-- What `Unmarshal` reads is a valid element, DER-encoded, and the rest. -/
theorem encode_of_unmarshalRaw {bytes rest : List UInt8} {v : RawValue}
    (h : unmarshalRaw bytes = .ok (v, rest)) : v.Valid ∧ bytes = v.encode ++ rest := by
  match bytes, h with
  | b :: bytes, h =>
    simp only [unmarshalRaw, bind_eq_ok, Prod.exists] at h
    obtain ⟨t, r, hpt, h⟩ := h
    split_ifs at h with hlen
    simp only [pure_eq_ok, Except.ok.injEq, Prod.mk.injEq] at h
    obtain ⟨rfl, rfl⟩ := h
    obtain ⟨hcls, htag, hl, hb⟩ := parseTagAndLength_eq_ok.mp hpt
    have htake : (r.take t.length).length = t.length := List.length_take_of_le (by omega)
    refine ⟨⟨hcls, htag, by rw [htake]; exact hl⟩, ?_⟩
    rw [hb, RawValue.encode, htake, List.append_assoc, List.append_assoc, List.append_assoc,
      List.take_append_drop]

/-- `Unmarshal` reads a valid element back from its DER encoding, whatever follows it. -/
theorem unmarshalRaw_encode {v : RawValue} (hv : v.Valid) (rest : List UInt8) :
    unmarshalRaw (v.encode ++ rest) = .ok (v, rest) := by
  obtain ⟨hcls, htag, hlen⟩ := hv
  have hpt : parseTagAndLength (v.encode ++ rest) = .ok (⟨v.cls, v.tag, v.bytes.length, v.isCompound⟩, v.bytes ++ rest) :=
    parseTagAndLength_eq_ok.mpr ⟨hcls, htag, hlen, by simp [RawValue.encode]⟩
  obtain ⟨b, bs, hbs⟩ := List.exists_cons_of_ne_nil (List.append_ne_nil_of_left_ne_nil (encode_ne_nil v) rest)
  rw [hbs] at hpt ⊢
  simp only [unmarshalRaw, hpt, ok_bind, List.length_append, List.take_left, List.drop_left]
  rw [if_neg (by omega)]
  rfl

/-- **Go's DER reader into a `RawValue` is exact.** `Unmarshal` accepts a byte string exactly
when it starts with the DER encoding of a valid element, and returns that element and the
rest: it reads no other encoding of an element (a long form where a short one fits, a leading
zero, an indefinite length). -/
theorem unmarshalRaw_eq_ok {bytes rest : List UInt8} {v : RawValue} :
    unmarshalRaw bytes = .ok (v, rest) ↔ v.Valid ∧ bytes = v.encode ++ rest :=
  ⟨encode_of_unmarshalRaw, fun ⟨hv, h⟩ => h ▸ unmarshalRaw_encode hv rest⟩

/-- A one-byte OCTET STRING whose length is written in the long form. -/
example : unmarshalRaw [0x04, 0x81, 0x01, 0x00] = .error (structuralError "non-minimal length") := rfl

/-- Each element `Unmarshal` reads takes at least one byte. -/
theorem length_lt_of_unmarshalRaw {bytes rest : List UInt8} {v : RawValue}
    (h : unmarshalRaw bytes = .ok (v, rest)) : rest.length < bytes.length := by
  obtain ⟨-, rfl⟩ := encode_of_unmarshalRaw h
  have := List.length_pos.mpr (encode_ne_nil v)
  simp only [List.length_append]
  omega

end Asn1

open Asn1

/-! ### The SAN extension -/

/-- `string(b)`: a Go string is its bytes. Each byte is read as the character of that code,
which keeps `len`, slicing and the `/` that `SplitN` looks for as Go has them. -/
def goString (bytes : List UInt8) : String := ⟨bytes.map fun b => Char.ofNat b.toNat⟩

/-- The loop of `getURINamesFromSANExtension` over the elements of the sequence: `uris` are the
names read so far, and each element of tag 6 adds its contents. -/
def sanLoop (uris : List String) (rest : List UInt8) : Except GoError (List String) :=
  if rest.length > 0 then
    match _hv : unmarshalRaw rest with
    | .error e => .error e
    | .ok (v, rest') => sanLoop (if v.tag = 6 then uris ++ [goString v.bytes] else uris) rest'
  else .ok uris
termination_by rest.length
decreasing_by exact length_lt_of_unmarshalRaw _hv

/-- The elements `vs`, one after the other. -/
def encodeAll (vs : List RawValue) : List UInt8 := (vs.map RawValue.encode).flatten

/-- The contents of the elements of tag 6, whatever their class and form. -/
def uriNames (vs : List RawValue) : List String := (vs.filter (·.tag = 6)).map (goString ·.bytes)

@[simp] theorem encodeAll_nil : encodeAll [] = [] := rfl

@[simp] theorem encodeAll_cons (v : RawValue) (vs : List RawValue) : encodeAll (v :: vs) = v.encode ++ encodeAll vs := rfl

@[simp] theorem uriNames_nil : uriNames [] = [] := rfl

theorem uriNames_cons (v : RawValue) (vs : List RawValue) :
    uriNames (v :: vs) = (if v.tag = 6 then [goString v.bytes] else []) ++ uriNames vs := by
  by_cases h : v.tag = 6 <;> simp [uriNames, List.filter_cons, h]

theorem unmarshalRaw_encodeAll_cons {v : RawValue} (hv : v.Valid) (vs : List RawValue) :
    unmarshalRaw (encodeAll (v :: vs)) = .ok (v, encodeAll vs) := unmarshalRaw_encode hv _

/-- The loop reads `bytes` to its end: it succeeds exactly when `bytes` is a run of valid DER
elements, and then adds the contents of each element of tag 6, in order. -/
theorem sanLoop_eq_ok {uris uris' : List String} {bytes : List UInt8} :
    sanLoop uris bytes = .ok uris' ↔
      ∃ vs : List RawValue, (∀ v ∈ vs, v.Valid) ∧ bytes = encodeAll vs ∧ uris' = uris ++ uriNames vs := by
  induction uris, bytes using sanLoop.induct generalizing uris' with
  | case1 uris rest hlen e he =>
    rw [sanLoop, if_pos hlen]
    split
    · simp only [reduceCtorEq, false_iff, not_exists, not_and]
      rintro (_ | ⟨w, ws⟩) hws rfl
      · simp at hlen
      · rw [unmarshalRaw_encodeAll_cons (hws w (List.mem_cons_self _ _)) ws] at he
        cases he
    · rename_i heq
      rw [he] at heq
      cases heq
  | case2 uris rest hlen v rest' hv ih =>
    rw [sanLoop, if_pos hlen]
    split
    · rename_i heq
      rw [hv] at heq
      cases heq
    · rename_i w r heq
      rw [hv] at heq
      cases heq
      rw [← dite_eq_ite, ih]
      obtain ⟨hvalid, rfl⟩ := encode_of_unmarshalRaw hv
      constructor
      · rintro ⟨vs, hvs, rfl, rfl⟩
        refine ⟨v :: vs, ?_, rfl, ?_⟩
        · simpa [hvalid] using hvs
        · by_cases h6 : v.tag = 6 <;> simp [uriNames_cons, h6]
      · rintro ⟨_ | ⟨w, ws⟩, hws, hbytes, rfl⟩
        · simp [encode_ne_nil] at hbytes
        · have hw := unmarshalRaw_encodeAll_cons (hws w (List.mem_cons_self _ _)) ws
          rw [← hbytes, hv, Except.ok.injEq, Prod.mk.injEq] at hw
          obtain ⟨rfl, hr⟩ := hw
          refine ⟨ws, fun x hx => hws x (List.mem_cons_of_mem _ hx), hr, ?_⟩
          by_cases h6 : v.tag = 6 <;> simp [uriNames_cons, h6]
  | case3 uris rest hlen =>
    rw [sanLoop, if_neg hlen]
    have hrest : rest = [] := List.length_eq_zero.mp (by omega)
    subst hrest
    constructor
    · rintro ⟨⟩
      exact ⟨[], by simp, rfl, by simp⟩
    · rintro ⟨_ | ⟨w, ws⟩, hws, hbytes, rfl⟩
      · simp
      · simp [encode_ne_nil] at hbytes

/-- `getURINamesFromSANExtension`: the extension's value must be one element with nothing after
it, a constructed SEQUENCE of the universal class, whose contents `sanLoop` reads. -/
def getURINamesFromSANExtension (sanExtension : List UInt8) : Except GoError (List String) :=
  match unmarshalRaw sanExtension with
  | .error e => .error e
  | .ok (seq, rest) =>
    if rest.length ≠ 0 then .error (.errorf "x509: trailing data after X.509 extension")
    else if !seq.isCompound || seq.tag != 16 || seq.cls != 0 then .error (structuralError "bad SAN sequence")
    else sanLoop [] seq.bytes

/-- The SEQUENCE of the elements `vs`. -/
def generalNames (vs : List RawValue) : RawValue := ⟨0, 16, true, encodeAll vs⟩

/-- **What a SAN extension yields.** `getURINamesFromSANExtension` accepts exactly the DER
encoding of a SEQUENCE of valid DER elements, and returns the contents of every element of
tag 6 in order, whatever its class and form: a universal OBJECT IDENTIFIER (`06`) or a
constructed `[6]` counts as a URI, not only the `[6] IA5String` of RFC 5280. -/
theorem getURINamesFromSANExtension_eq_ok {ext : List UInt8} {uris : List String} :
    getURINamesFromSANExtension ext = .ok uris ↔
      ∃ vs : List RawValue, (∀ v ∈ vs, v.Valid) ∧ (encodeAll vs).length < 2147483648 ∧
        ext = (generalNames vs).encode ∧ uris = uriNames vs := by
  constructor
  · intro h
    unfold getURINamesFromSANExtension at h
    split at h
    · cases h
    · rename_i seq rest hseq
      obtain ⟨⟨-, -, hlen⟩, rfl⟩ := encode_of_unmarshalRaw hseq
      split_ifs at h with hrest hbad
      obtain ⟨vs, hvs, hbytes, rfl⟩ := sanLoop_eq_ok.mp h
      simp only [Bool.or_eq_true, Bool.not_eq_true', bne_iff_ne, ne_eq, not_or, Bool.not_eq_false,
        not_not] at hbad
      obtain ⟨⟨hc, ht⟩, hcls⟩ := hbad
      rcases seq with ⟨cls, tag, c, bytes⟩
      simp only at hc ht hcls hbytes hlen
      subst hc ht hcls hbytes
      refine ⟨vs, hvs, hlen, ?_, rfl⟩
      rw [List.length_eq_zero.mp (not_not.mp hrest), List.append_nil]
      rfl
  · rintro ⟨vs, hvs, hlen, rfl, rfl⟩
    have hseq : unmarshalRaw (generalNames vs).encode = .ok (generalNames vs, []) :=
      List.append_nil (generalNames vs).encode ▸ unmarshalRaw_encode ⟨by simp [generalNames], by simp [generalNames], hlen⟩ []
    rw [getURINamesFromSANExtension, hseq]
    exact sanLoop_eq_ok.mpr ⟨vs, hvs, rfl, rfl⟩

/-- A SAN whose one element is the universal OBJECT IDENTIFIER `06 01 2f`. -/
example : getURINamesFromSANExtension [0x30, 0x03, 0x06, 0x01, 0x2f] = .ok ["/"] := by
  rw [getURINamesFromSANExtension, show unmarshalRaw [0x30, 0x03, 0x06, 0x01, 0x2f] =
    .ok (⟨0, 16, true, [0x06, 0x01, 0x2f]⟩, []) from rfl]
  exact sanLoop_eq_ok.mpr ⟨[⟨0, 6, false, [0x2f]⟩], by simp [RawValue.Valid], rfl, rfl⟩

/-- `pkix.Extension`, without `Critical`, which nothing here reads. -/
structure Extension where
  id : List Int
  value : List UInt8

/-- `oidExtensionSubjectAltName`. -/
def oidExtensionSubjectAltName : List Int := [2, 5, 29, 17]

/-- The loop of `GetURINamesFromExtensions`: each SAN extension replaces `uris` with its names. -/
def extensionsLoop (uris : List String) : List Extension → Except GoError (List String)
  | [] => .ok uris
  | ext :: exts =>
    if ext.id = oidExtensionSubjectAltName then
      match getURINamesFromSANExtension ext.value with
      | .error e => .error e
      | .ok uris => extensionsLoop uris exts
    else extensionsLoop uris exts

/-- `GetURINamesFromExtensions`. -/
def getURINamesFromExtensions (extensions : List Extension) : Except GoError (List String) :=
  extensionsLoop [] extensions

theorem extensionsLoop_eq (uris : List String) (exts : List Extension) :
    extensionsLoop uris exts =
      ((exts.filter (·.id = oidExtensionSubjectAltName)).mapM (getURINamesFromSANExtension ·.value)).map
        fun names => names.getLast?.getD uris := by
  induction exts generalizing uris with
  | nil => rfl
  | cons ext exts ih =>
    by_cases hid : ext.id = oidExtensionSubjectAltName
    · rw [extensionsLoop, if_pos hid, List.filter_cons_of_pos (by simpa using hid)]
      simp only [List.mapM_cons]
      cases getURINamesFromSANExtension ext.value with
      | error e => rfl
      | ok names =>
        dsimp only
        rw [ok_bind, ih]
        cases List.mapM (getURINamesFromSANExtension ·.value) (exts.filter (·.id = oidExtensionSubjectAltName)) <;>
          simp [Except.map, List.getLast?_cons]
    · rw [extensionsLoop, if_neg hid, List.filter_cons_of_neg (by simpa using hid), ih]

/-- **The last SAN extension decides.** `GetURINamesFromExtensions` reads the SAN extensions
in order and stops at the first that fails; when none fails, the names are those of the last
one, and those of the earlier ones are dropped. Other extensions are not looked at. -/
theorem getURINamesFromExtensions_eq (exts : List Extension) :
    getURINamesFromExtensions exts =
      ((exts.filter (·.id = oidExtensionSubjectAltName)).mapM (getURINamesFromSANExtension ·.value)).map
        fun names => names.getLast?.getD [] :=
  extensionsLoop_eq [] exts

end Knox
