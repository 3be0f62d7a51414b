/-!
# Computations that may fail

A computation made of two parts succeeds exactly if the first succeeds and the second succeeds on
its value (`bind_eq_ok_iff`).  Doing the same for every item of a list succeeds exactly if it
succeeds for each, and the values are in the order of the items (`mapM_eq_ok_iff`).
-/

set_option autoImplicit false

namespace Uplift.Results

variable {ε α β : Type}

@[simp] theorem ok_bind (value : α) (next : α → Except ε β) :
    (Except.ok value >>= next) = next value := rfl

@[simp] theorem error_bind (cause : ε) (next : α → Except ε β) :
    (Except.error cause >>= next) = .error cause := rfl

theorem bind_eq_ok_iff {first : Except ε α} {next : α → Except ε β} {result : β} :
    (first >>= next) = .ok result ↔ ∃ value, first = .ok value ∧ next value = .ok result := by
  cases first with
  | error cause => simp
  | ok value => simp

theorem toOption_eq_some_iff {result : Except ε α} {value : α} :
    result.toOption = some value ↔ result = .ok value := by
  cases result with
  | error cause => simp [Except.toOption]
  | ok found => simp [Except.toOption]

/-- Values for the items of a list, each computed from its own item. -/
inductive Each (compute : α → Except ε β) : List α → List β → Prop where
  | nil : Each compute [] []
  | cons {item : α} {value : β} {items : List α} {values : List β} :
      compute item = .ok value → Each compute items values →
        Each compute (item :: items) (value :: values)

theorem mapM_eq_ok_iff {compute : α → Except ε β} {items : List α} {values : List β} :
    items.mapM compute = .ok values ↔ Each compute items values := by
  induction items generalizing values with
  | nil =>
      rw [List.mapM_nil]
      constructor
      · intro done
        cases done
        exact .nil
      · intro each
        cases each
        rfl
  | cons item items ih =>
      rw [List.mapM_cons, bind_eq_ok_iff]
      constructor
      · rintro ⟨value, computed, later⟩
        obtain ⟨values, done, equal⟩ := bind_eq_ok_iff.1 later
        cases equal
        exact .cons computed (ih.1 done)
      · intro each
        cases each with
        | cons computed later =>
            refine ⟨_, computed, bind_eq_ok_iff.2 ⟨_, ih.2 later, rfl⟩⟩

theorem mapM_eq_ok_map {compute : α → Except ε β} {items : List α} {value : α → β}
    (computed : ∀ item ∈ items, compute item = .ok (value item)) :
    items.mapM compute = .ok (items.map value) := by
  rw [mapM_eq_ok_iff]
  induction items with
  | nil => exact .nil
  | cons item items ih =>
      exact .cons (computed item List.mem_cons_self)
        (ih fun other member => computed other (List.mem_cons_of_mem _ member))

theorem Each.exists_of_mem {compute : α → Except ε β} {items : List α} {values : List β}
    (each : Each compute items values) {item : α} (member : item ∈ items) :
    ∃ value ∈ values, compute item = .ok value := by
  induction each with
  | nil => cases member
  | cons computed _ ih =>
      rcases List.mem_cons.1 member with rfl | member
      · exact ⟨_, List.mem_cons_self, computed⟩
      · obtain ⟨value, found, computed⟩ := ih member
        exact ⟨value, List.mem_cons_of_mem _ found, computed⟩

theorem Each.of_mem {compute : α → Except ε β} {items : List α} {values : List β}
    (each : Each compute items values) {value : β} (member : value ∈ values) :
    ∃ item ∈ items, compute item = .ok value := by
  induction each with
  | nil => cases member
  | cons computed _ ih =>
      rcases List.mem_cons.1 member with rfl | member
      · exact ⟨_, List.mem_cons_self, computed⟩
      · obtain ⟨item, found, computed⟩ := ih member
        exact ⟨item, List.mem_cons_of_mem _ found, computed⟩

/-- Values for a list with one item in the middle. -/
theorem Each.split {compute : α → Except ε β} {early late : List α} {item : α} {values : List β}
    (each : Each compute (early ++ item :: late) values) :
    ∃ before value after, values = before ++ value :: after ∧ Each compute early before ∧
      compute item = .ok value := by
  induction early generalizing values with
  | nil =>
      cases each with
      | cons computed _ => exact ⟨[], _, _, rfl, .nil, computed⟩
  | cons first early ih =>
      cases each with
      | cons computed later =>
          obtain ⟨before, value, after, rfl, each, found⟩ := ih later
          exact ⟨_ :: before, value, after, rfl, .cons computed each, found⟩

/-- The last value is that of the last item. -/
theorem Each.getLast? {compute : α → Except ε β} {items : List α} {values : List β}
    (each : Each compute items values) {item : α} (last : items.getLast? = some item) :
    ∃ value, values.getLast? = some value ∧ compute item = .ok value := by
  induction each with
  | nil => cases last
  | cons computed later ih =>
      cases later with
      | nil =>
          cases last
          exact ⟨_, rfl, computed⟩
      | cons _ _ =>
          rw [List.getLast?_cons_cons] at last
          obtain ⟨value, ends, computed⟩ := ih last
          exact ⟨value, by rwa [List.getLast?_cons_cons], computed⟩

/-- Every item has a value exactly if each computation succeeds. -/
theorem exists_each_iff {compute : α → Except ε β} {items : List α} :
    (∃ values, Each compute items values) ↔ ∀ item ∈ items, ∃ value, compute item = .ok value := by
  constructor
  · rintro ⟨values, each⟩ item member
    obtain ⟨value, _, computed⟩ := each.exists_of_mem member
    exact ⟨value, computed⟩
  · intro computable
    induction items with
    | nil => exact ⟨[], .nil⟩
    | cons item items ih =>
        obtain ⟨value, computed⟩ := computable item List.mem_cons_self
        obtain ⟨values, each⟩ :=
          ih fun other member => computable other (List.mem_cons_of_mem _ member)
        exact ⟨value :: values, .cons computed each⟩

end Uplift.Results
