import Uplift.Proofs.Json.Numbers

/-!
# Documents that are read, written and read again

What is read is legible: the numbers in it are sound, the keys of an object are distinct, and it is
nested no deeper than the reader allowed (`legible_of_readValue`).  A legible value that is written
is read as the value it rereads as (`Legible.readsAs`), which differs from it in doubles at most.
Nothing is said about which double a double rereads as: its shortest decimal is read by a method
that need not give it back.
-/

set_option autoImplicit false

namespace Uplift.Json

open Uplift.Text (Symbol)

/-! ## Legible values -/

/-- A value that a reader makes with a number of nested levels allowed. -/
inductive Legible : Nat → Value → Prop
  | null (depth : Nat) : Legible (depth + 1) .null
  | bool (depth : Nat) (value : Bool) : Legible (depth + 1) (.bool value)
  | number (depth : Nat) {number : Number} (sound : number.IsSound) :
      Legible (depth + 1) (.number number)
  | string (depth : Nat) (text : String) : Legible (depth + 1) (.string text)
  | array {depth : Nat} {items : List Value} (legible : ∀ item ∈ items, Legible (depth + 1) item) :
      Legible (depth + 2) (.array items)
  | object {depth : Nat} {fields : Fields}
      (legible : ∀ field ∈ fields, Legible (depth + 1) field.2)
      (distinct : (fields.map Prod.fst).Nodup) : Legible (depth + 2) (.object fields)

/-! ## What is read is legible -/

theorem absorb_le {start : Nat} (fits : start ≤ maxSignificand) (digits : List Nat) :
    (absorb start digits).1 ≤ maxSignificand := by
  induction digits generalizing start with
  | nil => exact fits
  | cons d digits ih =>
      rw [absorb]
      split
      next more => exact ih more
      next => exact fits

theorem isSound_of_toDouble {negative : Bool} {significand : Nat} {exponent : Int}
    {rest left : List Symbol} {number : Number}
    (read : toDouble negative significand exponent rest = .ok (number, left)) :
    number.IsSound := by
  obtain ⟨bits, rfl, finite⟩ := isFinite_of_toDouble read
  exact finite

theorem isSound_zero (negative : Bool) :
    (Number.double (if negative then (-0.0 : Float) else 0.0).toBits).IsSound := by
  have zeros : ∀ negative : Bool,
      Decimal.biased (if negative then (-0.0 : Float) else 0.0).toBits ≠ 0x7FF := by
    decide +kernel
  exact zeros negative

theorem isSound_of_readExponent {negative : Bool} {significand : Nat} {start : Int}
    {input left : List Symbol} {number : Number}
    (read : readExponent negative significand start input = .ok (number, left)) :
    number.IsSound := by
  rw [readExponent.eq_def] at read
  dsimp only at read
  split at read
  next => cases read
  next =>
    split at read
    next => cases read
    next =>
      split at read
      next => exact isSound_of_toDouble read
      next =>
        split at read <;> split at read
        all_goals cases read
        all_goals exact isSound_zero negative

theorem isSound_of_readScaled {negative : Bool} {significand : Nat} {exponent : Int}
    {input left : List Symbol} {number : Number}
    (read : readScaled negative significand exponent input = .ok (number, left)) :
    number.IsSound := by
  rw [readScaled.eq_def] at read
  split at read
  next => exact isSound_of_readExponent read
  next => exact isSound_of_readExponent read
  next => exact isSound_of_toDouble read

theorem isSound_of_readFraction {negative : Bool} {significand : Nat} {exponent : Int}
    {input left : List Symbol} {number : Number}
    (read : readFraction negative significand exponent input = .ok (number, left)) :
    number.IsSound := by
  rw [readFraction] at read
  dsimp only at read
  split at read
  next => split at read <;> cases read
  next => exact isSound_of_readScaled read

/-- **A number that is read is sound.** -/
theorem isSound_of_readNumber {negative : Bool} {input left : List Symbol} {number : Number}
    (read : readNumber negative input = .ok (number, left)) : number.IsSound := by
  rw [readNumber] at read
  dsimp only at read
  split at read
  next => split at read <;> cases read
  next => cases read
  next =>
    split at read
    next => exact isSound_of_readFraction read
    next => exact isSound_of_readExponent read
    next => exact isSound_of_readExponent read
    next =>
      split at read
      next =>
        cases read
        exact isSound_ofSignificand negative (absorb_le (Nat.zero_le _) _)
      next => exact isSound_of_toDouble read

/-- Every item of a list is read by the reader of items. -/
theorem forall_of_readItems {α : Type} {item : Reader α} {holds : α → Prop}
    (each : ∀ {input value rest}, item input = .ok (value, rest) → holds value) {fuel : Nat}
    {done items : List α} {input rest : List Symbol} (earlier : ∀ value ∈ done, holds value)
    (read : readItems item fuel done input = .ok (items, rest)) : ∀ value ∈ items, holds value := by
  induction fuel generalizing done input with
  | zero => cases read
  | succ fuel ih =>
      have next : ∀ {input}, (do
          let read ← item input
          readItems item fuel (read.1 :: done) read.2 : Except Fault (List α × List Symbol)) =
            .ok (items, rest) → ∀ value ∈ items, holds value := by
        intro input more
        obtain ⟨⟨value, after⟩, first, others⟩ := Results.bind_eq_ok_iff.1 more
        refine ih ?_ others
        intro other member
        rcases List.mem_cons.1 member with rfl | member
        · exact each first
        · exact earlier other member
      rw [readItems] at read
      dsimp only at read
      split at read
      next => cases read
      next =>
        cases read
        intro value member
        exact earlier value (List.mem_reverse.1 member)
      next =>
        split at read
        next => exact next read
        next =>
          split at read
          next =>
            split at read
            next => cases read
            next => cases read
            next => exact next read
          next => cases read

/-- What holds at first and is kept by every field holds in the end. -/
theorem invariant_of_readMembers {α : Type} (holds : α → Prop) {member : String → α → Reader α}
    (each : ∀ {key state input state' rest}, holds state →
      member key state input = .ok (state', rest) → holds state') {fuel : Nat} {first : Bool}
    {state state' : α} {input rest : List Symbol} (initial : holds state)
    (read : readMembers member fuel first state input = .ok (state', rest)) : holds state' := by
  induction fuel generalizing first state input with
  | zero => cases read
  | succ fuel ih =>
      have next : ∀ {input}, (do
          let key ← readString input
          let read ← member key.1 state key.2
          readMembers member fuel false read.1 read.2 : Except Fault (α × List Symbol)) =
            .ok (state', rest) → holds state' := by
        intro input more
        obtain ⟨⟨key, after⟩, _, others⟩ := Results.bind_eq_ok_iff.1 more
        obtain ⟨⟨between, after'⟩, field, others⟩ := Results.bind_eq_ok_iff.1 others
        exact ih (each initial field) others
      rw [readMembers] at read
      dsimp only at read
      split at read
      next => cases read
      next =>
        cases read
        exact initial
      next =>
        split at read
        next =>
          split at read
          next => exact next read
          next => cases read
        next =>
          split at read
          next =>
            split at read
            next => cases read
            next => exact next read
            next => cases read
            next => cases read
          next => cases read

/-- Setting a field keeps keys distinct. -/
theorem names_insert (fields : Fields) (key : String) (value : Value) :
    (fields.insert key value).map Prod.fst =
      if key ∈ fields.map Prod.fst then fields.map Prod.fst else fields.map Prod.fst ++ [key] := by
  induction fields with
  | nil => simp [Fields.insert]
  | cons field fields ih =>
      obtain ⟨name, old⟩ := field
      rw [Fields.insert]
      split
      next same => simp [same]
      next different =>
        rw [List.map_cons, ih, List.map_cons]
        simp only [List.mem_cons, Ne.symm different, false_or]
        split <;> rfl

theorem nodup_insert {fields : Fields} (distinct : (fields.map Prod.fst).Nodup) (key : String)
    (value : Value) : ((fields.insert key value).map Prod.fst).Nodup := by
  rw [names_insert]
  split
  next => exact distinct
  next fresh =>
    rw [List.nodup_append_comm]
    exact List.nodup_cons.2 ⟨fresh, distinct⟩

theorem mem_insert {fields : Fields} {key : String} {value : Value} {field : String × Value}
    (member : field ∈ fields.insert key value) : field.2 = value ∨ field ∈ fields := by
  induction fields with
  | nil =>
      rw [Fields.insert, List.mem_singleton] at member
      exact .inl (by rw [member])
  | cons head fields ih =>
      obtain ⟨name, old⟩ := head
      rw [Fields.insert] at member
      split at member
      next =>
        rcases List.mem_cons.1 member with rfl | member
        · exact .inl rfl
        · exact .inr (List.mem_cons_of_mem _ member)
      next =>
        rcases List.mem_cons.1 member with rfl | member
        · exact .inr List.mem_cons_self
        · exact (ih member).imp id (List.mem_cons_of_mem _)

/-- The fields of an object that can be read back. -/
def LegibleFields (depth : Nat) (fields : Fields) : Prop :=
  (∀ field ∈ fields, Legible depth field.2) ∧ (fields.map Prod.fst).Nodup

theorem LegibleFields.insert {depth : Nat} {fields : Fields} (legible : LegibleFields depth fields)
    (key : String) {value : Value} (new : Legible depth value) :
    LegibleFields depth (fields.insert key value) := by
  refine ⟨fun field member => ?_, nodup_insert legible.2 key value⟩
  rcases mem_insert member with same | old
  · exact same ▸ new
  · exact legible.1 field old

/-- **What is read is legible.** -/
theorem legible_of_readValue {depth : Nat} {input rest : List Symbol} {value : Value}
    (read : readValue depth input = .ok (value, rest)) : Legible depth value := by
  induction depth generalizing input value rest with
  | zero => cases read
  | succ depth ih =>
      rw [readValue] at read
      split at read
      next => cases read
      next =>
        obtain ⟨_, _, equal⟩ := Results.bind_eq_ok_iff.1 read
        cases equal
        exact .null depth
      next =>
        obtain ⟨_, _, equal⟩ := Results.bind_eq_ok_iff.1 read
        cases equal
        exact .bool depth true
      next =>
        obtain ⟨_, _, equal⟩ := Results.bind_eq_ok_iff.1 read
        cases equal
        exact .bool depth false
      next =>
        obtain ⟨⟨number, after⟩, first, equal⟩ := Results.bind_eq_ok_iff.1 read
        cases equal
        exact .number depth (isSound_of_readNumber first)
      next =>
        obtain ⟨⟨text, after⟩, _, equal⟩ := Results.bind_eq_ok_iff.1 read
        cases equal
        exact .string depth text
      next =>
        split at read
        next => cases read
        next some =>
          obtain ⟨depth, rfl⟩ := Nat.exists_eq_succ_of_ne_zero some
          obtain ⟨⟨items, after⟩, inside, equal⟩ := Results.bind_eq_ok_iff.1 read
          cases equal
          exact .array (forall_of_readItems ih (by simp) inside)
      next =>
        split at read
        next => cases read
        next some =>
          obtain ⟨depth, rfl⟩ := Nat.exists_eq_succ_of_ne_zero some
          obtain ⟨⟨fields, after⟩, inside, equal⟩ := Results.bind_eq_ok_iff.1 read
          cases equal
          have fieldsLegible : LegibleFields (depth + 1) fields := by
            refine invariant_of_readMembers _ ?_ ⟨by simp, by simp⟩ inside
            intro key state input state' rest legible field
            obtain ⟨afterColon, _, field⟩ := Results.bind_eq_ok_iff.1 field
            obtain ⟨⟨value, after⟩, made, equal⟩ := Results.bind_eq_ok_iff.1 field
            cases equal
            exact legible.insert key (ih made)
          exact .object fieldsLegible.1 fieldsLegible.2
      next =>
        split at read
        next =>
          obtain ⟨⟨number, after⟩, first, equal⟩ := Results.bind_eq_ok_iff.1 read
          cases equal
          exact .number depth (isSound_of_readNumber first)
        next => cases read

/-- A document that is read is legible. -/
theorem legible_of_parse {text : String} {value : Value} (read : parse text = .ok value) :
    Legible depthLimit value := by
  rw [parse, parseSymbols, readDocument] at read
  split at read
  next made =>
    cases read
    obtain ⟨⟨value', rest⟩, first, others⟩ := Results.bind_eq_ok_iff.1 made
    obtain ⟨_, _, equal⟩ := Results.bind_eq_ok_iff.1 others
    cases equal
    exact legible_of_readValue first
  next => cases read

/-! ## Rereading -/

mutual

/-- The value that the text of a legible value is read as. -/
def Value.reread : Value → Value
  | .number number => .number number.reread
  | .array items => .array (rereadItems items)
  | .object fields => .object (rereadFields fields)
  | value => value
termination_by structural value => value

/-- The values that items are read as. -/
def rereadItems : List Value → List Value
  | [] => []
  | item :: items => item.reread :: rereadItems items
termination_by structural items => items

/-- The fields that fields are read as. -/
def rereadFields : List (String × Value) → List (String × Value)
  | [] => []
  | (key, value) :: fields => (key, value.reread) :: rereadFields fields
termination_by structural fields => fields

end

theorem rereadItems_eq (items : List Value) : rereadItems items = items.map Value.reread := by
  induction items with
  | nil => rfl
  | cons item items ih => rw [rereadItems, ih, List.map_cons]

theorem rereadFields_eq (fields : Fields) : rereadFields fields = mapValues Value.reread fields := by
  induction fields with
  | nil => rfl
  | cons field fields ih => rw [rereadFields, ih, mapValues_cons]

/-- **A legible value that is written is read** as the value it rereads as. -/
theorem Legible.readsAs {depth : Nat} {value : Value} (legible : Legible depth value)
    (level : Nat) : ReadsAs depth level value value.reread := by
  induction legible generalizing level with
  | null depth => exact ⟨⟨'n', _, rfl, rfl, by decide⟩, fun rest _ => rfl⟩
  | bool depth value =>
      exact readable_bool depth level value
  | number depth sound =>
      rw [Value.reread]
      exact readsAs_number sound depth level
  | string depth text =>
      exact readable_string depth level text
  | array _ ih =>
      rw [Value.reread, rereadItems_eq]
      exact readsAs_array Value.reread fun item member => ih item member (level + 1)
  | object _ distinct ih =>
      rw [Value.reread, rereadFields_eq]
      exact readsAs_object Value.reread (fun field member => ih field member (level + 1)) distinct

/-- A legible document is read from its text as what it rereads as. -/
theorem parse_render_reread {value : Value} (legible : Legible depthLimit value) :
    parse (value.render ++ "\n") = .ok value.reread :=
  parse_render (legible.readsAs 0)

/-! ### What rereading keeps -/

theorem get?_mapValues (again : Value → Value) (fields : Fields) (key : String) :
    Fields.get? (mapValues again fields) key = (Fields.get? fields key).map again := by
  induction fields with
  | nil => rfl
  | cons field fields ih =>
      obtain ⟨name, value⟩ := field
      rw [mapValues_cons, Fields.get?, Fields.get?, ih]
      split <;> rfl

theorem text?_reread (value : Value) : value.reread.text? = value.text? := by
  cases value <;> rfl

theorem fields?_reread (value : Value) :
    value.reread.fields? = value.fields?.map (mapValues Value.reread) := by
  cases value with
  | object fields =>
      rw [Value.reread, rereadFields_eq]
      rfl
  | _ => rfl

theorem items?_reread (value : Value) :
    value.reread.items? = value.items?.map (List.map Value.reread) := by
  cases value with
  | array items =>
      rw [Value.reread, rereadItems_eq]
      rfl
  | _ => rfl

end Uplift.Json
