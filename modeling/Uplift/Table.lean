/-!
# Tables

A finite map from names to values, held as the list of its entries in ascending order of the
names.  The order is part of the type, so whatever is listed from a table is listed by name.
-/

set_option autoImplicit false

namespace Uplift

/-- A finite map from names to values. -/
structure Table (α : Type) where
  entries : List (String × α)
  /-- The names ascend strictly. -/
  ascending : entries.Pairwise fun a b => a.1 < b.1

namespace Table

variable {α β : Type}

/-- The table without entries. -/
def empty : Table α :=
  ⟨[], List.Pairwise.nil⟩

instance : Inhabited (Table α) := ⟨empty⟩

/-- Puts an entry at its place in an ascending list, in place of an entry of the same name. -/
def insertEntry (name : String) (value : α) : List (String × α) → List (String × α)
  | [] => [(name, value)]
  | (other, old) :: rest =>
    if name < other then (name, value) :: (other, old) :: rest
    else if name = other then (name, value) :: rest
    else (other, old) :: insertEntry name value rest

/-- The entries after an insertion are the new one and some of the old. -/
theorem mem_insertEntry {name : String} {value : α} {entries : List (String × α)}
    {entry : String × α} (h : entry ∈ insertEntry name value entries) :
    entry = (name, value) ∨ entry ∈ entries := by
  induction entries with
  | nil => simpa [insertEntry] using h
  | cons head rest ih =>
    obtain ⟨other, old⟩ := head
    unfold insertEntry at h
    split at h
    · simpa using h
    · split at h
      · rcases List.mem_cons.1 h with h | h
        · exact .inl h
        · exact .inr (List.mem_cons_of_mem _ h)
      · rcases List.mem_cons.1 h with h | h
        · exact .inr (h ▸ List.mem_cons_self)
        · rcases ih h with h | h
          · exact .inl h
          · exact .inr (List.mem_cons_of_mem _ h)

/-- Insertion keeps the order. -/
theorem ascending_insertEntry (name : String) (value : α) {entries : List (String × α)}
    (h : entries.Pairwise fun a b => a.1 < b.1) :
    (insertEntry name value entries).Pairwise fun a b => a.1 < b.1 := by
  induction entries with
  | nil => simp [insertEntry]
  | cons head rest ih =>
    obtain ⟨other, old⟩ := head
    have hrest := List.pairwise_cons.1 h
    unfold insertEntry
    split
    next hlt =>
      refine List.pairwise_cons.2 ⟨fun entry hentry => ?_, h⟩
      rcases List.mem_cons.1 hentry with rfl | hentry
      · exact hlt
      · exact String.lt_trans hlt (hrest.1 entry hentry)
    next hlt =>
      split
      next heq => exact heq ▸ List.pairwise_cons.2 hrest
      next hne =>
        refine List.pairwise_cons.2 ⟨fun entry hentry => ?_, ih hrest.2⟩
        rcases mem_insertEntry hentry with rfl | hentry
        · exact Decidable.byContradiction fun hcontra =>
            hne (String.le_antisymm (String.not_lt.1 hcontra) (String.not_lt.1 hlt))
        · exact hrest.1 entry hentry

/-- Sets the value of a name. -/
def insert (table : Table α) (name : String) (value : α) : Table α :=
  ⟨insertEntry name value table.entries, ascending_insertEntry name value table.ascending⟩

/-- The table of a list of entries; a later entry of a name wins. -/
def ofList (entries : List (String × α)) : Table α :=
  entries.foldl (fun table entry => table.insert entry.1 entry.2) empty

/-- The value of a name. -/
def get? (table : Table α) (name : String) : Option α :=
  (table.entries.find? fun entry => entry.1 = name).map Prod.snd

/-- Whether a name has a value. -/
def contains (table : Table α) (name : String) : Bool :=
  (table.get? name).isSome

/-- The names, ascending. -/
def names (table : Table α) : List String :=
  table.entries.map Prod.fst

/-- Changes the value of a name; an absent name starts from `initial`. -/
def update (table : Table α) (name : String) (initial : α) (change : α → α) : Table α :=
  table.insert name (change ((table.get? name).getD initial))

/-- The entries that satisfy a test. -/
def filter (table : Table α) (keep : String → α → Bool) : Table α :=
  ⟨table.entries.filter fun entry => keep entry.1 entry.2, table.ascending.filter _⟩

/-- Changes every value by the same rule. -/
def map (table : Table α) (change : α → β) : Table β :=
  ⟨table.entries.map fun entry => (entry.1, change entry.2), by
    rw [List.pairwise_map]; exact table.ascending⟩

/-- A table with nothing in it. -/
def isEmpty (table : Table α) : Bool :=
  table.entries.isEmpty

end Table

/-- A finite set of names, listed in ascending order. -/
abbrev NameSet := Table Unit

namespace NameSet

/-- The set with one more name. -/
def add (set : NameSet) (name : String) : NameSet :=
  Table.insert set name ()

/-- The set with the names of another added. -/
def union (set other : NameSet) : NameSet :=
  other.names.foldl add set

/-- Whether a name belongs to the set. -/
def has (set : NameSet) (name : String) : Bool :=
  Table.contains set name

end NameSet

end Uplift
