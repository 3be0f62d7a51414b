import Uplift.Proofs.Text.Trimming
import Uplift.Url.Percent

/-!
# Percent-encoded texts

An escaped text consists of characters that need no escape and of escapes, and it is read back byte
by byte if each of its percent signs starts an escape (`unescape_escape`).  Escaping leaves no
character out, so a part of a text whose escaped form is as long as that of the text is the whole
text (`eq_of_length_escape`).
-/

set_option autoImplicit false

namespace Uplift

/-! ## Bytes of a text -/

namespace Text

theorem toList_loop (bytes : ByteArray) (start : Nat) (done : List UInt8) :
    ByteArray.toList.loop bytes start done = done.reverse ++ bytes.data.toList.drop start := by
  induction start, done using ByteArray.toList.loop.induct bytes with
  | case1 start done inside ih =>
      have bound : start < bytes.data.toList.length := by simpa using inside
      have byte : bytes.get! start = bytes.data.toList[start] := by
        rw [ByteArray.get!, Array.getElem_toList]
        exact getElem!_pos bytes.data start (by simpa using inside)
      rw [ByteArray.toList.loop, if_pos inside, ih, List.drop_eq_getElem_cons bound, byte]
      simp
  | case2 start done outside =>
      have bound : bytes.data.toList.length ≤ start := by simpa using outside
      rw [ByteArray.toList.loop, if_neg outside, List.drop_eq_nil_of_le bound, List.append_nil]

/-- The bytes of a text are those of its characters. -/
theorem toList_encode (text : List Char) :
    (encode (String.ofList text)).toList = text.flatMap String.utf8EncodeChar := by
  rw [ByteArray.toList, toList_loop]
  simp [encode, String.ofList, List.utf8Encode]

theorem toList_encode_singleton (c : Char) :
    (encode (String.singleton c)).toList = String.utf8EncodeChar c := by
  rw [String.singleton_eq_ofList, toList_encode, List.flatMap_singleton]

end Text

namespace Url

/-! ## Escapes -/

theorem hexValue?_upperHexDigit : ∀ n < 16, hexValue? (upperHexDigit n) = some n := by
  decide

theorem unescape_escapeByte (byte : UInt8) (rest : List Char) :
    unescape (escapeByte byte ++ rest) = byte :: unescape rest := by
  have bound := byte.toNat_lt
  have whole : byte.toNat / 16 * 16 + byte.toNat % 16 = byte.toNat := by omega
  rw [escapeByte, List.cons_append, List.cons_append, List.cons_append, List.nil_append, unescape,
    hexValue?_upperHexDigit _ (by omega), hexValue?_upperHexDigit _ (by omega)]
  simp [whole]

theorem unescape_escapeBytes (bytes : List UInt8) (rest : List Char) :
    unescape (bytes.flatMap escapeByte ++ rest) = bytes ++ unescape rest := by
  induction bytes with
  | nil => rfl
  | cons byte bytes ih =>
      rw [List.flatMap_cons, List.append_assoc, unescape_escapeByte, ih, List.cons_append]

theorem unescape_cons {c : Char} (plain : c ≠ '%') (rest : List Char) :
    unescape (c :: rest) = String.utf8EncodeChar c ++ unescape rest := by
  rw [unescape, Text.toList_encode_singleton]
  rintro _ _ _ rfl
  exact absurd rfl plain

/-- **An escaped text is read back**, if each percent sign of the text is escaped. -/
theorem unescape_escape {reserved : Char → Bool} {text : List Char}
    (percent : '%' ∈ text → reserved '%' = true) :
    unescape (escape reserved text) = (Text.encode (String.ofList text)).toList := by
  rw [Text.toList_encode, escape]
  induction text with
  | nil => simp [unescape]
  | cons c text ih =>
      have rest := ih fun member => percent (List.mem_cons_of_mem _ member)
      rw [List.flatMap_cons, List.flatMap_cons, Text.toList_encode_singleton]
      split
      next => rw [unescape_escapeBytes, rest]
      next unreserved =>
        have plain : c ≠ '%' := by
          rintro rfl
          exact unreserved (percent List.mem_cons_self)
        rw [List.singleton_append, unescape_cons plain, rest]

theorem upperHexDigit_isAlphanum : ∀ n < 16, (upperHexDigit n).isAlphanum = true := by
  decide

/-- The characters of an escaped text. -/
theorem mem_escape {reserved : Char → Bool} {text : List Char} {c : Char}
    (member : c ∈ escape reserved text) :
    c ∈ text ∧ reserved c = false ∨ c = '%' ∨ c.isAlphanum = true := by
  obtain ⟨source, among, written⟩ := List.mem_flatMap.1 member
  split at written
  next =>
    obtain ⟨byte, _, digit⟩ := List.mem_flatMap.1 written
    have bound := byte.toNat_lt
    simp only [escapeByte, List.mem_cons, List.not_mem_nil, or_false] at digit
    rcases digit with rfl | rfl | rfl
    · exact .inr (.inl rfl)
    · exact .inr (.inr (upperHexDigit_isAlphanum _ (by omega)))
    · exact .inr (.inr (upperHexDigit_isAlphanum _ (by omega)))
  next unreserved =>
    rw [List.mem_singleton] at written
    subst written
    exact .inl ⟨among, Bool.eq_false_iff.2 unreserved⟩

/-- A text without characters that need an escape is written as it is. -/
theorem escape_eq_self {reserved : Char → Bool} {text : List Char}
    (plain : ∀ c ∈ text, reserved c = false) : escape reserved text = text := by
  have same : text.flatMap (fun c => if reserved c then
      (Text.encode (String.singleton c)).toList.flatMap escapeByte else [c]) =
        text.flatMap fun c => [c] :=
    List.flatMap_congr fun c member => by rw [plain c member]; rfl
  rw [escape, same, List.flatMap_singleton']

/-- Letters and digits are never escaped. -/
theorem reservedInSegment_of_isAlphanum {c : Char} (alphanum : c.isAlphanum = true) :
    reservedInSegment c = false := by
  have bounds := Text.toNat_of_isAlphanum alphanum
  rw [← Bool.not_eq_true]
  simp only [reservedInSegment, reservedInFragment, isControl, Bool.or_eq_true, decide_eq_true_eq,
    List.contains_iff_mem, List.mem_cons, List.not_mem_nil, or_false]
  rintro (((low | high) | rfl | rfl | rfl | rfl | rfl) | rfl | rfl | rfl | rfl)
  · omega
  · omega
  all_goals exact absurd alphanum (by decide)

/-! ## Lengths -/

/-- No character is left out. -/
theorem length_escape_cons (reserved : Char → Bool) (c : Char) (text : List Char) :
    (escape reserved text).length < (escape reserved (c :: text)).length := by
  have some : 0 < (if reserved c then
      (Text.encode (String.singleton c)).toList.flatMap escapeByte else [c]).length := by
    split
    next =>
      rw [Text.toList_encode_singleton]
      cases bytes : String.utf8EncodeChar c with
      | nil => exact absurd bytes String.utf8EncodeChar_ne_nil
      | cons byte rest => simp [escapeByte]
    next => simp
  rw [escape, escape, List.flatMap_cons, List.length_append]
  omega

theorem escape_ne_nil (reserved : Char → Bool) {text : List Char} (some : text ≠ []) :
    escape reserved text ≠ [] := by
  obtain ⟨c, rest, rfl⟩ := List.exists_cons_of_ne_nil some
  exact List.length_pos_iff.1 (Nat.zero_lt_of_lt (length_escape_cons reserved c rest))

/-- What is missing in a part of a text is missing in its escaped form. -/
theorem length_escape_of_sublist (reserved : Char → Bool) {part text : List Char}
    (sublist : part.Sublist text) :
    (escape reserved part).length + text.length ≤ (escape reserved text).length + part.length := by
  induction sublist with
  | slnil => exact Nat.le_refl _
  | @cons part text c _ ih =>
      have := length_escape_cons reserved c text
      rw [List.length_cons]
      omega
  | @cons_cons part text c _ ih =>
      have : ∀ rest, (escape reserved (c :: rest)).length =
          (escape reserved [c]).length + (escape reserved rest).length := by
        intro rest
        simp [escape]
      rw [this part, this text, List.length_cons, List.length_cons]
      omega

/-- **A part of a text is the whole text** if it is as long when it is escaped. -/
theorem eq_of_length_escape {reserved : Char → Bool} {part text : List Char}
    (sublist : part.Sublist text)
    (same : (escape reserved part).length = (escape reserved text).length) : part = text := by
  have := length_escape_of_sublist reserved sublist
  exact sublist.eq_of_length_le (by omega)

end Url

end Uplift
