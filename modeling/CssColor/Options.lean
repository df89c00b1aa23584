import CssColor.Number.Basic

/-!
# Options

What a resolution depends on beside the value. Custom properties and relative units are found
through a `Lookup`, which is a table or a function. A `Table` is sorted by name, so that two tables
with the same entries are equal.
-/

namespace CssColor

/-- The shape of a result. -/
inductive Format where
  /-- The resolved colour as text. -/
  | computed
  /-- The value as written, with expressions simplified and keywords kept. -/
  | specified
  /-- The resolved colour itself. -/
  | mix
  /-- Hexadecimal digits, with an alpha only if the colour is not opaque. -/
  | hex
  /-- Hexadecimal digits with an alpha. -/
  | hexAlpha
deriving DecidableEq, Repr

/-- Whether entries are sorted by name, with no name twice. -/
def IsSorted {α : Type} (entries : List (String × α)) : Prop :=
  entries.Pairwise fun a b => a.1 < b.1

/-- Entries under distinct names, sorted by name. -/
structure Table (α : Type) where
  entries : List (String × α)
  sorted : IsSorted entries
deriving DecidableEq

namespace Table

variable {α : Type}

/-- The table without entries. -/
def empty : Table α := ⟨[], .nil⟩

/-- Puts an entry into sorted entries, in place of one of the same name. -/
def insertEntry (name : String) (value : α) : List (String × α) → List (String × α)
  | [] => [(name, value)]
  | (other, known) :: rest =>
    if name < other then (name, value) :: (other, known) :: rest
    else if name = other then (name, value) :: rest
    else (other, known) :: insertEntry name value rest

/-- An entry of the new list is the one inserted or one of the old list. -/
theorem mem_insertEntry {name : String} {value : α} {entries : List (String × α)}
    {entry : String × α} (h : entry ∈ insertEntry name value entries) :
    entry = (name, value) ∨ entry ∈ entries := by
  induction entries with
  | nil => simpa [insertEntry] using h
  | cons head rest ih =>
    rw [insertEntry] at h
    -- The entry goes in front of a greater name, in place of an equal one, or further back.
    split at h
    · simpa using h
    · split at h
      · rcases List.mem_cons.1 h with h | h
        · exact .inl h
        · exact .inr (List.mem_cons_of_mem _ h)
      · rcases List.mem_cons.1 h with h | h
        · exact .inr (h ▸ List.mem_cons_self)
        · exact (ih h).imp_right (List.mem_cons_of_mem _)

/-- Inserting an entry keeps the list sorted. -/
theorem isSorted_insertEntry (name : String) (value : α) {entries : List (String × α)}
    (h : IsSorted entries) : IsSorted (insertEntry name value entries) := by
  induction entries with
  | nil => exact List.pairwise_singleton _ _
  | cons head rest ih =>
    obtain ⟨hhead, hrest⟩ := List.pairwise_cons.1 h
    rw [insertEntry]
    split
    · next hlt =>
      refine List.pairwise_cons.2 ⟨fun entry hentry => ?_, h⟩
      rcases List.mem_cons.1 hentry with rfl | hentry
      · -- The names behind the head are greater still.
        exact hlt
      · exact String.lt_trans hlt (hhead entry hentry)
    · next hnot =>
      split
      · next heq =>
        exact List.pairwise_cons.2 ⟨fun entry hentry => heq ▸ hhead entry hentry, hrest⟩
      · next hne =>
        -- What is inserted further back is greater than the head, too.
        refine List.pairwise_cons.2 ⟨fun entry hentry => ?_, ih hrest⟩
        rcases mem_insertEntry hentry with rfl | hentry
        · exact Classical.byContradiction fun hge =>
            hne (String.le_antisymm (String.not_lt.1 hge) (String.not_lt.1 hnot))
        · exact hhead entry hentry

/-- The table with an entry, in place of one of the same name. -/
def insert (name : String) (value : α) (table : Table α) : Table α :=
  ⟨insertEntry name value table.entries, isSorted_insertEntry name value table.sorted⟩

/-- The table of a list of entries. Of two entries with the same name the later one counts. -/
def ofList (entries : List (String × α)) : Table α :=
  entries.foldl (fun table (name, value) => table.insert name value) empty

/-- The value under a name. -/
def get? (table : Table α) (name : String) : Option α := table.entries.lookup name

end Table

/-- Finds values by name: a table that can be compared, or a function that cannot. -/
inductive Lookup (α : Type) where
  | table (entries : Table α)
  | function (find : String → Option α)

namespace Lookup

variable {α : Type}

/-- The lookup that finds nothing. -/
def empty : Lookup α := table Table.empty

/-- The value under a name. -/
def get? : Lookup α → String → Option α
  | table entries => entries.get?
  | function find => find

/-- The table, where the lookup is one. -/
def table? : Lookup α → Option (Table α)
  | table entries => some entries
  | function _ => none

end Lookup

/-- What a resolution depends on beside the value. -/
structure Options (K : Type) where
  format : Format := .computed
  /-- Whether XYZ is reported relative to D50 instead of D65. -/
  d50 : Bool := false
  /-- The value of the keyword `currentcolor`. -/
  currentColor : Option String := none
  /-- The values of custom properties, by names that start with two dashes. -/
  properties : Lookup String := .empty
  /-- The pixels of one of a relative length unit. -/
  dimensions : Lookup K := .empty
  /-- A key that results are handed out under. -/
  key : Option String := none

end CssColor
