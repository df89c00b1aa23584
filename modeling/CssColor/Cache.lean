import CssColor.Output
import CssColor.Options

/-!
# The cache

Outputs by what they depend on. A `CacheKey` is a value with all options that change its output,
apart from the key that the output is handed out under. Lookups that are functions cannot be
compared, so options with one of them have no cache key.
-/

namespace CssColor

/-- A value and the options that its output depends on. -/
structure CacheKey (K : Type) where
  value : String
  format : Format
  d50 : Bool
  currentColor : Option String
  properties : Table String
  dimensions : Table K
deriving DecidableEq

/-- The cache key of a value and options; none if a lookup is a function. -/
def CacheKey.ofOptions? {K : Type} (value : String) (options : Options K) :
    Option (CacheKey K) := do
  let properties ← options.properties.table?
  let dimensions ← options.dimensions.table?
  return {
    value, properties, dimensions
    format := options.format
    d50 := options.d50
    currentColor := options.currentColor }

/-- Outputs under distinct cache keys. -/
structure Cache (K : Type) where
  entries : List (CacheKey K × Output K)
  distinct : (entries.map Prod.fst).Nodup

namespace Cache

variable {K : Type}

/-- The cache without entries. -/
def empty : Cache K := ⟨[], List.nodup_nil⟩

/-- The number of entries. -/
def size (cache : Cache K) : Nat := cache.entries.length

/-- Whether there are no entries. -/
def isEmpty (cache : Cache K) : Bool := cache.entries.isEmpty

variable [DecidableEq K]

/-- The output under a cache key. -/
def get? (cache : Cache K) (key : CacheKey K) : Option (Output K) := cache.entries.lookup key

/-- The cache with an entry, in place of one under the same cache key. -/
def set (cache : Cache K) (key : CacheKey K) (output : Output K) : Cache K where
  entries := (key, output) :: cache.entries.filter fun entry => entry.1 ≠ key
  distinct := by
    refine List.nodup_cons.2 ⟨by simp, ?_⟩
    exact cache.distinct.sublist (List.filter_sublist.map Prod.fst)

/-- An empty cache holds nothing. -/
@[simp] theorem get?_empty (key : CacheKey K) : (empty : Cache K).get? key = none := rfl

/-- After an entry is set, its cache key has its output, and all others have what they had. -/
theorem get?_set (cache : Cache K) (key other : CacheKey K) (output : Output K) :
    (cache.set key output).get? other = if other = key then some output else cache.get? other := by
  by_cases h : other = key
  · simp [get?, set, h]
  · have hbeq : (other == key) = false := beq_eq_false_iff_ne.2 h
    simp only [get?, set, List.lookup_cons, hbeq, h, ↓reduceIte]
    induction cache.entries with
    | nil => rfl
    | cons entry entries ih =>
      obtain ⟨known, value⟩ := entry
      -- An entry that is dropped is not under the other cache key.
      by_cases hknown : known = key
      · rw [List.filter_cons_of_neg (by simpa using hknown), ih, List.lookup_cons, hknown, hbeq]
      · rw [List.filter_cons_of_pos (by simpa using hknown), List.lookup_cons, ih,
          List.lookup_cons]

end Cache

end CssColor
