import Uplift.Proofs.Workspace.Bumping

/-!
# Manifests and their texts

A manifest whose numbers are all integers is read back from its text, with every key in its place
(`parse_render_integersOnly`).  The text of a manifest that was read is therefore a normal form:
reading it and writing it again gives the same text.  Integers are what the statement needs, and no
more: a double is written as its shortest decimal, and reading that need not give the double back.

Two facts about what is read carry the statement: its keys are distinct, however often the text
repeats one, and it is nested no deeper than the reader allows, so neither the printer nor the
reader can stumble over it a second time.
-/

set_option autoImplicit false

namespace Uplift

namespace Json

/-- All numbers in a value are integers of at most 64 bits. -/
inductive IntegersOnly : Value → Prop
  | null : IntegersOnly .null
  | bool (value : Bool) : IntegersOnly (.bool value)
  | integer {n : Int} (least : -2 ^ 63 ≤ n) (most : n < 2 ^ 64) :
      IntegersOnly (.number (.integer n))
  | string (text : String) : IntegersOnly (.string text)
  | array {items : List Value} (each : ∀ item ∈ items, IntegersOnly item) :
      IntegersOnly (.array items)
  | object {fields : Fields} (each : ∀ field ∈ fields, IntegersOnly field.2) :
      IntegersOnly (.object fields)

/-- A value without doubles rereads as itself. -/
theorem IntegersOnly.reread_eq {value : Value} (integers : IntegersOnly value) :
    value.reread = value := by
  induction integers with
  | null => rfl
  | bool value => rfl
  | integer least most =>
      rw [Value.reread, reread_integer ⟨by omega, by rw [maxSignificand]; omega⟩]
  | string text => rfl
  | array _ ih =>
      rw [Value.reread, rereadItems_eq]
      exact congrArg Value.array ((List.map_congr_left ih).trans (List.map_id' _))
  | @object fields _ ih =>
      have values : ∀ field ∈ fields, (field.1, field.2.reread) = field :=
        fun field member => Prod.ext rfl (ih field member)
      rw [Value.reread, rereadFields_eq]
      exact congrArg Value.object ((List.map_congr_left values).trans (List.map_id' _))

end Json

namespace Manifest

open Json (IntegersOnly)

/-- A manifest without doubles rereads as itself. -/
theorem reread_eq {manifest : Manifest} (integers : IntegersOnly manifest.toValue) :
    manifest.reread = manifest := by
  have fields := integers.reread_eq
  rw [toValue, Json.Value.reread, Json.rereadFields_eq] at fields
  rw [reread, Json.Value.object.inj fields]

/-- **A manifest is read back from its text.**  A manifest that was read from any text, and whose
numbers are all integers, is what its own text is read as, whatever name it goes by in messages, and
writing that again gives the same text. -/
theorem parse_render_integersOnly {display content : String} {manifest : Manifest}
    (parsed : parse display content = .ok manifest)
    (integers : IntegersOnly manifest.toValue) (other : String) :
    parse other manifest.render = .ok manifest ∧
      ∀ again, parse other manifest.render = .ok again → again.render = manifest.render := by
  obtain ⟨legible, good⟩ := of_parse parsed
  have reads : parse other manifest.render = .ok manifest := by
    rw [parse_render legible good, reread_eq integers]
  refine ⟨reads, fun again reread => ?_⟩
  cases reads.symm.trans reread
  rfl

/-- A text on one line with a repeated key, escapes, a surrogate pair, empty values and integers at
both bounds. -/
def denseText : String :=
  "\x7b\"name\":\"old\",\"n\":[-9223372036854775808,18446744073709551615,[],\x7b\x7d]," ++
    "\"name\":\"\\ud83d\\ude00\\u0001\\/\\\"\"," ++
    "\"dependencies\":\x7b\"b\":null,\"a\":true\x7d\x7d"

/-- What the text spells. -/
def denseManifest : Manifest :=
  ⟨[("name", .string (String.ofList [Char.ofNat 0x1F600, Char.ofNat 1, '/', '"'])),
    ("n", .array [.number (.integer (-9223372036854775808)),
      .number (.integer 18446744073709551615), .array [], .object []]),
    ("dependencies", .object [("b", .null), ("a", .bool true)])]⟩

theorem parse_render_integersOnly_dense :
    parse "package.json" denseText = .ok denseManifest ∧
      IntegersOnly denseManifest.toValue ∧
      parse "" denseManifest.render = .ok denseManifest := by
  have parsed : parse "package.json" denseText = .ok denseManifest := by
    set_option maxRecDepth 8192 in rfl
  have numbers : ∀ item ∈ [.number (.integer (-9223372036854775808)),
      .number (.integer 18446744073709551615), .array [], .object []], IntegersOnly item := by
    simp only [List.forall_mem_cons]
    exact ⟨.integer (by decide) (by decide), .integer (by decide) (by decide),
      .array (List.forall_mem_nil _), .object (List.forall_mem_nil _), List.forall_mem_nil _⟩
  have integers : IntegersOnly denseManifest.toValue := by
    refine .object ?_
    simp only [denseManifest, List.forall_mem_cons]
    refine ⟨.string _, .array numbers, .object ?_, List.forall_mem_nil _⟩
    simp only [List.forall_mem_cons]
    exact ⟨.null, .bool true, List.forall_mem_nil _⟩
  exact ⟨parsed, integers, (parse_render_integersOnly parsed integers "").1⟩

end Manifest

end Uplift
