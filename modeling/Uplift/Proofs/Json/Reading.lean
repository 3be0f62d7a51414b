import Mathlib.Data.List.Nodup
import Uplift.Json.Printer
import Uplift.Json.Reader
import Uplift.Proofs.Results

/-!
# Reading what was written

A value in the indented layout is read as a value, and what follows it is left (`ReadsAs`): texts
and truth values as themselves (`readable_string`, `readable_bool`), and lists and objects as made
of what their parts are read as, the keys of an object being distinct (`readsAs_array`,
`readsAs_object`).  What follows a value inside a document is a comma or a line break, so nothing
that follows can be taken for a part of it.
-/

set_option autoImplicit false

namespace Uplift.Json

open Uplift.Text (Symbol)

/-- The units of a text. -/
def units (chars : List Char) : List Symbol :=
  chars.map .char

@[simp] theorem units_nil : units [] = [] := rfl

@[simp] theorem units_cons (c : Char) (chars : List Char) :
    units (c :: chars) = .char c :: units chars := rfl

@[simp] theorem units_append (first second : List Char) :
    units (first ++ second) = units first ++ units second :=
  List.map_append

/-! ## Texts -/

theorem hexValue?_hexDigit : ∀ n < 16, hexValue? (.char (hexDigit n)) = some n := by
  decide

/-- Four digits are read as one code unit. -/
theorem readHex_digits {a b c d : Nat} (ha : a < 16) (hb : b < 16) (hc : c < 16) (hd : d < 16)
    (rest : List Symbol) :
    readHex (.char (hexDigit a) :: .char (hexDigit b) :: .char (hexDigit c) ::
        .char (hexDigit d) :: rest) = .ok (((a * 16 + b) * 16 + c) * 16 + d, rest) := by
  have wide : ∀ c : Char, 0 < (Symbol.char c).width := Char.utf8Size_pos
  have long : ¬ byteLength (.char (hexDigit a) :: .char (hexDigit b) :: .char (hexDigit c) ::
      .char (hexDigit d) :: rest) < 4 := by
    have first := wide (hexDigit a)
    have second := wide (hexDigit b)
    have third := wide (hexDigit c)
    have fourth := wide (hexDigit d)
    simp only [byteLength, List.foldr_cons]
    omega
  rw [readHex, if_neg long]
  simp only [hexValue?_hexDigit, ha, hb, hc, hd]

/-- A control character reads back from its code. -/
theorem readEscape_control {c : Char} (control : c.toNat < 32) (rest : List Symbol) :
    readEscape (units ['u', '0', '0', hexDigit (c.toNat / 16), hexDigit (c.toNat % 16)] ++ rest) =
      .ok (c, rest) := by
  have hex := readHex_digits (a := 0) (b := 0) (by omega) (by omega)
    (show c.toNat / 16 < 16 by omega) (show c.toNat % 16 < 16 by omega) rest
  have code : ((0 * 16 + 0) * 16 + c.toNat / 16) * 16 + c.toNat % 16 = c.toNat := by omega
  rw [code] at hex
  have zero : hexDigit 0 = '0' := rfl
  rw [zero] at hex
  have low : ¬ (0xDC00 ≤ c.toNat ∧ c.toNat ≤ 0xDFFF) := by omega
  have plain : c.toNat < 0xD800 ∨ 0xDBFF < c.toNat := by omega
  simp only [units_cons, units_nil, List.cons_append, List.nil_append, readEscape, readUnicode,
    hex, Results.ok_bind, if_neg low, if_pos plain, Char.ofNat_toNat]
  rfl

/-- **An escaped character reads back.** -/
theorem readChars_escape (fuel : Nat) (done : List Char) (c : Char) (rest : List Symbol) :
    readChars (fuel + 1) true done (units (escape c) ++ rest) =
      readChars fuel true (c :: done) rest := by
  have escaped : ∀ chars, readEscape (units chars ++ rest) = .ok (c, rest) →
      readChars (fuel + 1) true done (units ('\\' :: chars) ++ rest) =
        readChars fuel true (c :: done) rest := by
    intro chars read
    rw [units_cons, List.cons_append, readChars, if_neg (by decide), if_pos rfl, read]
  have code : ∀ n, c.toNat = n → c = Char.ofNat n := by
    rintro n rfl
    exact (Char.ofNat_toNat c).symm
  rw [escape]
  split
  next quote => exact escaped _ (by rw [quote]; rfl)
  split
  next backslash => exact escaped _ (by rw [backslash]; rfl)
  split
  next backspace => exact escaped _ (by rw [code 8 backspace]; rfl)
  split
  next tab => exact escaped _ (by rw [code 9 tab]; rfl)
  split
  next feed => exact escaped _ (by rw [code 10 feed]; rfl)
  split
  next page => exact escaped _ (by rw [code 12 page]; rfl)
  split
  next carriage => exact escaped _ (by rw [code 13 carriage]; rfl)
  split
  next control => exact escaped _ (readEscape_control control rest)
  next notQuote notBackslash _ _ _ _ _ plain =>
    rw [units_cons, units_nil, List.singleton_append, readChars, if_neg notQuote,
      if_neg notBackslash, if_neg plain]

theorem readChars_quote {fuel : Nat} {chars : List Char} (enough : chars.length < fuel)
    (done : List Char) (rest : List Symbol) :
    readChars fuel true done (units (chars.flatMap escape) ++ .char '"' :: rest) =
      .ok (String.ofList (done.reverse ++ chars), rest) := by
  induction chars generalizing fuel done with
  | nil =>
      obtain ⟨fuel, rfl⟩ : ∃ more, fuel = more + 1 := ⟨fuel - 1, by simp at enough; omega⟩
      simp [readChars]
  | cons c chars ih =>
      obtain ⟨fuel, rfl⟩ : ∃ more, fuel = more + 1 := ⟨fuel - 1, by simp at enough; omega⟩
      rw [List.flatMap_cons, units_append, List.append_assoc, readChars_escape,
        ih (by simpa using enough)]
      simp

/-- Escaping does not make a text shorter. -/
theorem length_le_flatMap_escape (chars : List Char) :
    chars.length ≤ (chars.flatMap escape).length := by
  induction chars with
  | nil => simp
  | cons c chars ih =>
      have one : 1 ≤ (escape c).length := by
        rw [escape]
        split_ifs <;> simp
      rw [List.flatMap_cons, List.length_append, List.length_cons]
      omega

/-- **A text in quotes reads back.** -/
theorem readString_quote (text : String) (rest : List Symbol) :
    readString (units (text.toList.flatMap escape) ++ .char '"' :: rest) = .ok (text, rest) := by
  have enough := length_le_flatMap_escape text.toList
  rw [readString, readChars_quote]
  · simp
  · rw [List.length_append, units, List.length_map]
    omega

/-! ## Blanks -/

theorem skipSpace_of_char {c : Char} (dark : isSpace (.char c) = false) (rest : List Symbol) :
    skipSpace (.char c :: rest) = .char c :: rest :=
  List.dropWhile_cons_of_neg (by simp [dark])

/-- The blanks before a line's first character are skipped. -/
theorem skipSpace_newline (level : Nat) (rest : List Symbol) :
    skipSpace (units (newline level) ++ rest) = skipSpace rest := by
  have blank : ∀ unit ∈ units (newline level), isSpace unit = true := by
    intro unit member
    obtain ⟨c, among, rfl⟩ := List.mem_map.1 member
    rcases List.mem_cons.1 among with rfl | blank
    · rfl
    · rw [(List.mem_replicate.1 blank).2]
      rfl
  exact List.dropWhile_append_of_pos blank

/-! ## Values -/

/-- What may follow a value: the end, a comma or a line break. -/
def Ends (rest : List Symbol) : Prop :=
  ∀ unit ∈ rest.head?, unit = .char ',' ∨ unit = .char '\n'

theorem ends_newline (level : Nat) (rest : List Symbol) :
    Ends (units (newline level) ++ rest) := by
  simp [Ends, newline]

theorem ends_comma (rest : List Symbol) : Ends (.char ',' :: rest) := by
  simp [Ends]

/-- A value whose layout at a level is read as a value, with a number of nested levels allowed. -/
structure ReadsAs (depth level : Nat) (value result : Value) : Prop where
  /-- The layout starts with a character that is no blank and closes no list. -/
  starts : ∃ c chars, pretty level value = c :: chars ∧ isSpace (.char c) = false ∧ c ≠ ']'
  reads : ∀ rest, Ends rest →
    readValue depth (units (pretty level value) ++ rest) = .ok (result, rest)

/-- A value that reads back from its layout. -/
def Readable (depth level : Nat) (value : Value) : Prop :=
  ReadsAs depth level value value

theorem readable_string (depth level : Nat) (text : String) :
    Readable (depth + 1) level (.string text) := by
  refine ⟨⟨'"', _, rfl, rfl, by decide⟩, fun rest _ => ?_⟩
  have dark : isSpace (.char '"') = false := rfl
  rw [pretty, quote]
  simp only [List.cons_append, units_cons, units_append, units_nil, List.append_assoc,
    List.nil_append]
  rw [readValue, skipSpace_of_char dark]
  simp only [readString_quote, Results.ok_bind]
  rfl

theorem readable_bool (depth level : Nat) (value : Bool) :
    Readable (depth + 1) level (.bool value) := by
  cases value with
  | true => exact ⟨⟨'t', _, rfl, rfl, by decide⟩, fun rest _ => rfl⟩
  | false => exact ⟨⟨'f', _, rfl, rfl, by decide⟩, fun rest _ => rfl⟩

/-! ## Lists -/

theorem ends_prettyItems (level outer : Nat) (items : List Value) (rest : List Symbol) :
    Ends (units (prettyItems level items) ++ (units (newline outer) ++ rest)) := by
  cases items with
  | nil => exact ends_newline outer rest
  | cons item items => exact ends_comma _

/-- The items after the first are read one by one. -/
theorem readItems_prettyItems (again : Value → Value) {depth level : Nat} (outer : Nat)
    {items : List Value}
    (readable : ∀ item ∈ items, ReadsAs depth level item (again item)) {fuel : Nat}
    (enough : items.length < fuel) {done : List Value} (started : done ≠ [])
    (rest : List Symbol) :
    readItems (readValue depth) fuel done
        (units (prettyItems level items) ++ (units (newline outer) ++ .char ']' :: rest)) =
      .ok (done.reverse ++ items.map again, rest) := by
  induction items generalizing fuel done with
  | nil =>
      obtain ⟨fuel, rfl⟩ : ∃ more, fuel = more + 1 := ⟨fuel - 1, by simp at enough; omega⟩
      rw [prettyItems, units_nil, List.nil_append, readItems, skipSpace_newline,
        skipSpace_of_char rfl, List.map_nil, List.append_nil]
      rfl
  | cons item items ih =>
      obtain ⟨fuel, rfl⟩ : ∃ more, fuel = more + 1 := ⟨fuel - 1, by simp at enough; omega⟩
      have here := readable item List.mem_cons_self
      obtain ⟨c, chars, starts, dark, open_⟩ := here.starts
      have reads := here.reads _ (ends_prettyItems level outer items (.char ']' :: rest))
      have further := ih (fun other member => readable other (List.mem_cons_of_mem _ member))
        (by simpa using enough) (List.cons_ne_nil (again item) done)
      have notEmpty : done.isEmpty = false := by simpa using started
      have comma : (Symbol.char ',').isChar ',' = true := rfl
      rw [prettyItems]
      simp only [List.cons_append, units_cons, units_append, List.append_assoc]
      rw [readItems, skipSpace_of_char rfl]
      rw [starts] at reads ⊢
      simp only [units_cons, List.cons_append] at reads ⊢
      split
      next none => cases none
      next closes => simp at closes
      next equal =>
        cases equal
        rw [notEmpty, if_neg Bool.false_ne_true, if_pos comma, skipSpace_newline,
          skipSpace_of_char dark]
        split
        next none => cases none
        next closes =>
          cases closes
          exact absurd rfl open_
        next =>
          simp only [reads, Results.ok_bind, further]
          simp

/-- The items are read, from the first on. -/
theorem readItems_pretty (again : Value → Value) {depth level outer : Nat} {item : Value}
    {items : List Value}
    (readable : ∀ other ∈ item :: items, ReadsAs depth level other (again other)) {fuel : Nat}
    (enough : items.length + 1 < fuel) (rest : List Symbol) :
    readItems (readValue depth) fuel []
        (units (newline level) ++ (units (pretty level item) ++
          (units (prettyItems level items) ++ (units (newline outer) ++ .char ']' :: rest)))) =
      .ok ((item :: items).map again, rest) := by
  obtain ⟨fuel, rfl⟩ : ∃ more, fuel = more + 1 := ⟨fuel - 1, by omega⟩
  have here := readable item List.mem_cons_self
  obtain ⟨c, chars, starts, dark, open_⟩ := here.starts
  have reads := here.reads _ (ends_prettyItems level outer items (.char ']' :: rest))
  have further := readItems_prettyItems again outer
    (fun other member => readable other (List.mem_cons_of_mem _ member))
    (show items.length < fuel by omega) (List.cons_ne_nil (again item) []) rest
  rw [starts] at reads ⊢
  simp only [units_cons, List.cons_append] at reads ⊢
  rw [readItems, skipSpace_newline, skipSpace_of_char dark]
  split
  next none => cases none
  next closes =>
    cases closes
    exact absurd rfl open_
  next equal =>
    cases equal
    rw [if_pos List.isEmpty_nil]
    simp only [reads, Results.ok_bind, further]
    rfl

theorem length_le_prettyItems (level : Nat) (items : List Value) :
    items.length ≤ (prettyItems level items).length := by
  induction items with
  | nil => simp
  | cons item items ih =>
      rw [prettyItems, List.length_cons, List.length_append, List.length_append, List.length_cons]
      omega

/-- **A list is read** as the list of what its items are read as. -/
theorem readsAs_array (again : Value → Value) {depth level : Nat} {items : List Value}
    (readable : ∀ item ∈ items, ReadsAs (depth + 1) (level + 1) item (again item)) :
    ReadsAs (depth + 2) level (.array items) (.array (items.map again)) := by
  cases items with
  | nil => exact ⟨⟨'[', _, rfl, rfl, by decide⟩, fun rest _ => rfl⟩
  | cons item items =>
      refine ⟨⟨'[', _, rfl, rfl, by decide⟩, fun rest _ => ?_⟩
      have long := length_le_prettyItems (level + 1) items
      rw [pretty]
      simp only [List.cons_append, units_cons, units_append, units_nil, List.append_assoc,
        List.nil_append]
      rw [readValue, skipSpace_of_char rfl]
      simp only [Nat.add_one_ne_zero, if_false]
      rw [readItems_pretty again readable]
      · rfl
      · simp only [units, List.length_append, List.length_map, List.length_cons, newline]
        omega

/-- A list reads back if its items do. -/
theorem readable_array {depth level : Nat} {items : List Value}
    (readable : ∀ item ∈ items, Readable (depth + 1) (level + 1) item) :
    Readable (depth + 2) level (.array items) := by
  have reads := readsAs_array id readable
  rwa [List.map_id] at reads

/-! ## Objects -/

/-- What follows a key: a colon and a value, which is added to the fields. -/
def readField (depth : Nat) (key : String) (fields : Fields) : Reader Fields := fun rest => do
  let (value, rest) ← readValue depth (← readColon rest)
  pure (fields.insert key value, rest)

theorem readValue_blank (depth : Nat) (input : List Symbol) :
    readValue depth (.char ' ' :: input) = readValue depth input := by
  have skip : skipSpace (.char ' ' :: input) = skipSpace input := rfl
  cases depth with
  | zero => rw [readValue, readValue, skip]
  | succ depth => rw [readValue, readValue, skip]

/-- A new key is put at the end. -/
theorem insert_of_not_mem {fields : Fields} {key : String} (fresh : key ∉ fields.map Prod.fst)
    (value : Value) : fields.insert key value = fields ++ [(key, value)] := by
  induction fields with
  | nil => rfl
  | cons field fields ih =>
      obtain ⟨name, old⟩ := field
      rw [List.map_cons, List.mem_cons, not_or] at fresh
      rw [Fields.insert, if_neg (Ne.symm fresh.1), ih fresh.2, List.cons_append]

theorem ends_prettyFields (level outer : Nat) (fields : Fields) (rest : List Symbol) :
    Ends (units (prettyFields level fields) ++ (units (newline outer) ++ rest)) := by
  cases fields with
  | nil => exact ends_newline outer rest
  | cons field fields => exact ends_comma _

/-- Fields with the values that theirs are read as. -/
def mapValues (again : Value → Value) (fields : Fields) : Fields :=
  fields.map fun field => (field.1, again field.2)

theorem mapValues_cons (again : Value → Value) (key : String) (value : Value) (fields : Fields) :
    mapValues again ((key, value) :: fields) = (key, again value) :: mapValues again fields :=
  rfl

/-- A field is read, and is put at the end. -/
theorem readField_pretty {depth level : Nat} {key : String} {value result : Value}
    (reads : ReadsAs depth level value result) {done : Fields} (fresh : key ∉ done.map Prod.fst)
    {rest : List Symbol} (ends : Ends rest) :
    readField depth key done
        (.char ':' :: .char ' ' :: (units (pretty level value) ++ rest)) =
      .ok (done ++ [(key, result)], rest) := by
  have colon : ∀ input, readColon (.char ':' :: input) = .ok input := fun _ => rfl
  simp only [readField, colon, Results.ok_bind, readValue_blank, reads.reads rest ends]
  rw [insert_of_not_mem fresh]
  rfl

/-- The fields after the first are read one by one. -/
theorem readMembers_prettyFields (again : Value → Value) {depth level : Nat} (outer : Nat)
    {fields : Fields}
    (readable : ∀ field ∈ fields, ReadsAs depth level field.2 (again field.2)) {fuel : Nat}
    (enough : fields.length < fuel) {done : Fields}
    (distinct : ((done ++ fields).map Prod.fst).Nodup) (rest : List Symbol) :
    readMembers (readField depth) fuel false done
        (units (prettyFields level fields) ++ (units (newline outer) ++ .char '}' :: rest)) =
      .ok (done ++ mapValues again fields, rest) := by
  induction fields generalizing fuel done with
  | nil =>
      obtain ⟨fuel, rfl⟩ : ∃ more, fuel = more + 1 := ⟨fuel - 1, by simp at enough; omega⟩
      rw [prettyFields, units_nil, List.nil_append, readMembers, skipSpace_newline,
        skipSpace_of_char rfl, mapValues, List.map_nil, List.append_nil]
      rfl
  | cons field fields ih =>
      obtain ⟨key, value⟩ := field
      obtain ⟨fuel, rfl⟩ : ∃ more, fuel = more + 1 := ⟨fuel - 1, by simp at enough; omega⟩
      have fresh : key ∉ done.map Prod.fst := by
        rw [List.map_append, List.map_cons] at distinct
        exact fun member => List.disjoint_of_nodup_append distinct member List.mem_cons_self
      have reads := readField_pretty (readable _ List.mem_cons_self) fresh
        (ends_prettyFields level outer fields (.char '}' :: rest))
      have further := ih (fun other member => readable other (List.mem_cons_of_mem _ member))
        (show fields.length < fuel by simpa using enough)
        (show ((done ++ [(key, again value)] ++ fields).map Prod.fst).Nodup by
          simpa using distinct)
      have comma : (Symbol.char ',').isChar ',' = true := rfl
      rw [prettyFields, quote]
      simp only [List.cons_append, units_cons, units_append, List.append_assoc, List.nil_append]
      rw [readMembers, skipSpace_of_char rfl]
      split
      next none => cases none
      next closes => simp at closes
      next equal =>
        cases equal
        rw [if_neg Bool.false_ne_true, if_pos comma, skipSpace_newline, skipSpace_of_char rfl]
        simp only [readString_quote, Results.ok_bind, reads, further]
        simp [mapValues_cons]

/-- The fields are read, from the first on. -/
theorem readMembers_pretty (again : Value → Value) {depth level : Nat} (outer : Nat) {key : String}
    {value : Value} {fields : Fields}
    (readable : ∀ field ∈ (key, value) :: fields, ReadsAs depth level field.2 (again field.2))
    {fuel : Nat} (enough : fields.length + 1 < fuel)
    (distinct : (((key, value) :: fields).map Prod.fst).Nodup) (rest : List Symbol) :
    readMembers (readField depth) fuel true []
        (units (newline level) ++ (units (quote key) ++ (.char ':' :: .char ' ' ::
          (units (pretty level value) ++ (units (prettyFields level fields) ++
            (units (newline outer) ++ .char '}' :: rest)))))) =
      .ok (mapValues again ((key, value) :: fields), rest) := by
  obtain ⟨fuel, rfl⟩ : ∃ more, fuel = more + 1 := ⟨fuel - 1, by omega⟩
  have reads := readField_pretty (readable _ List.mem_cons_self)
    (show key ∉ ([] : Fields).map Prod.fst by simp)
    (ends_prettyFields level outer fields (.char '}' :: rest))
  have further := readMembers_prettyFields again outer
    (fun other member => readable other (List.mem_cons_of_mem _ member))
    (show fields.length < fuel by omega)
    (show (([(key, again value)] ++ fields).map Prod.fst).Nodup from distinct) rest
  have opens : (Symbol.char '"').isChar '"' = true := rfl
  rw [quote]
  simp only [List.cons_append, units_cons, units_append, units_nil, List.append_assoc,
    List.nil_append]
  rw [readMembers, skipSpace_newline, skipSpace_of_char rfl]
  split
  next none => cases none
  next closes => simp at closes
  next equal =>
    cases equal
    rw [if_pos rfl, if_pos opens]
    simp only [readString_quote, Results.ok_bind, reads, List.nil_append, further]
    rfl

theorem length_le_prettyFields (level : Nat) (fields : Fields) :
    fields.length ≤ (prettyFields level fields).length := by
  induction fields with
  | nil => simp
  | cons field fields ih =>
      obtain ⟨key, value⟩ := field
      rw [prettyFields]
      simp only [List.length_cons, List.length_append]
      omega

/-- **An object with distinct keys is read** as the object of what its values are read as. -/
theorem readsAs_object (again : Value → Value) {depth level : Nat} {fields : Fields}
    (readable : ∀ field ∈ fields, ReadsAs (depth + 1) (level + 1) field.2 (again field.2))
    (distinct : (fields.map Prod.fst).Nodup) :
    ReadsAs (depth + 2) level (.object fields) (.object (mapValues again fields)) := by
  cases fields with
  | nil => exact ⟨⟨'{', _, rfl, rfl, by decide⟩, fun rest _ => rfl⟩
  | cons field fields =>
      obtain ⟨key, value⟩ := field
      refine ⟨⟨'{', _, rfl, rfl, by decide⟩, fun rest _ => ?_⟩
      have long := length_le_prettyFields (level + 1) fields
      rw [pretty]
      simp only [List.cons_append, units_cons, units_append, units_nil, List.append_assoc,
        List.nil_append]
      rw [readValue, skipSpace_of_char rfl]
      simp only [Nat.add_one_ne_zero, if_false]
      change (readMembers (readField (depth + 1)) _ true [] _ >>= fun result =>
        pure (Value.object result.1, result.2)) = _
      rw [readMembers_pretty again level readable _ distinct]
      · rfl
      · simp only [units, List.length_append, List.length_map, List.length_cons, newline]
        omega

/-- An object with distinct keys reads back if its values do. -/
theorem readable_object {depth level : Nat} {fields : Fields}
    (readable : ∀ field ∈ fields, Readable (depth + 1) (level + 1) field.2)
    (distinct : (fields.map Prod.fst).Nodup) : Readable (depth + 2) level (.object fields) := by
  have reads := readsAs_object id readable distinct
  rwa [show mapValues id fields = fields from List.map_id fields] at reads

/-! ## Documents -/

/-- **A document is read from its text.** -/
theorem parse_render {value result : Value} (reads : ReadsAs depthLimit 0 value result) :
    parse (value.render ++ "\n") = .ok result := by
  have input : (value.render ++ "\n").toList.map Symbol.char =
      units (pretty 0 value) ++ [.char '\n'] := by
    simp [Value.render, units]
  have ends : Ends [.char '\n'] := by simp [Ends]
  rw [parse, parseSymbols, readDocument, input, reads.reads _ ends]
  rfl

end Uplift.Json
