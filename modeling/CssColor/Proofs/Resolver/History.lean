import CssColor.Resolver
import Mathlib.Data.Set.Card

/-!
# Histories of a resolver

A resolver remembers outputs, so what it answers could depend on what it has been asked before. It
does not: after any list of operations on an empty resolver, the next output is the one that
`CssColor.resolve` gives, and the cache holds one entry for each combination of a value and what its
output depends on that has been resolved since the last clear (`output_and_size_after`).

The proof carries `Reflects` through the list: every entry of the cache is the output of all values
and options with its cache key, and the cache keys are those of the recent operations. A cache key
is turned into a `Combination` at the end, where a table is read as the map that it stands for.
-/

namespace CssColor

/-! ## Tables as maps -/

namespace Table

variable {α : Type}

/-- Entries find nothing under a name that comes before all of theirs. -/
theorem lookup_eq_none_of_lt {name : String} {entries : List (String × α)}
    (h : ∀ entry ∈ entries, name < entry.1) : entries.lookup name = none := by
  rw [List.lookup_eq_none_iff]
  intro entry hentry
  rw [bne_iff_ne]
  exact String.ne_of_lt (h entry hentry)

/-- What is found under its name in sorted entries with a given head is not before that head. -/
theorem not_lt_of_lookup_eq_some {name : String} {found : α} {head : String × α}
    {rest : List (String × α)} (hsorted : IsSorted (head :: rest))
    (h : (head :: rest).lookup name = some found) : ¬ name < head.1 := by
  intro hlt
  have hnone : (head :: rest).lookup name = none := lookup_eq_none_of_lt fun entry hentry => by
    rcases List.mem_cons.1 hentry with rfl | hentry
    · exact hlt
    · exact String.lt_trans hlt ((List.pairwise_cons.1 hsorted).1 entry hentry)
  rw [hnone] at h
  cases h

/-- Sorted entries are determined by the values that they find. -/
theorem entries_eq_of_lookup_eq {first second : List (String × α)} (hfirst : IsSorted first)
    (hsecond : IsSorted second) (h : ∀ name, first.lookup name = second.lookup name) :
    first = second := by
  induction first generalizing second with
  | nil =>
    cases second with
    | nil => rfl
    | cons other others =>
      obtain ⟨name, value⟩ := other
      simpa using h name
  | cons entry rest ih =>
    obtain ⟨name, value⟩ := entry
    have hfound := h name
    rw [List.lookup_cons_self] at hfound
    cases second with
    | nil => simp at hfound
    | cons other others =>
      obtain ⟨name', value'⟩ := other
      have hfound' := h name'
      rw [List.lookup_cons_self] at hfound'
      -- The least name of one list is found in the other, so it is the least name of both.
      have hname : name = name' :=
        String.le_antisymm (String.not_lt.1 (not_lt_of_lookup_eq_some hfirst hfound'))
          (String.not_lt.1 (not_lt_of_lookup_eq_some hsecond hfound.symm))
      subst hname
      have hvalue : value = value' := by simpa using hfound
      subst hvalue
      obtain ⟨hbefore, hrest⟩ := List.pairwise_cons.1 hfirst
      obtain ⟨hbefore', hothers⟩ := List.pairwise_cons.1 hsecond
      rw [ih hrest hothers fun other => ?_]
      by_cases hother : other = name
      · rw [hother, lookup_eq_none_of_lt hbefore, lookup_eq_none_of_lt hbefore']
      · have hne : (other == name) = false := beq_eq_false_iff_ne.2 hother
        simpa only [List.lookup_cons, hne] using h other

/-- A table is determined by the values that it finds. -/
theorem ext_get? {first second : Table α} (h : first.get? = second.get?) : first = second := by
  obtain ⟨entries, hentries⟩ := first
  obtain ⟨others, hothers⟩ := second
  have heq : entries = others := entries_eq_of_lookup_eq hentries hothers (congrFun h)
  subst heq
  rfl

end Table

/-! ## What an output depends on -/

/-- A value and all that its output depends on, where lookups are the maps that they stand for. The
key that an output is handed out under is no part of it. -/
@[ext]
structure Combination (K : Type) where
  value : String
  format : Format
  d50 : Bool
  currentColor : Option String
  properties : String → Option String
  dimensions : String → Option K

variable {K : Type}

/-- The combination of a value and options whose lookups are tables. -/
def Combination.of? (value : String) (options : Options K) : Option (Combination K) :=
  match options.properties, options.dimensions with
  | .table properties, .table dimensions =>
    some ⟨value, options.format, options.d50, options.currentColor, properties.get?,
      dimensions.get?⟩
  | _, _ => none

namespace CacheKey

/-- The combination that a cache key stands for. -/
def combination (key : CacheKey K) : Combination K :=
  ⟨key.value, key.format, key.d50, key.currentColor, key.properties.get?, key.dimensions.get?⟩

/-- Different cache keys stand for different combinations. -/
theorem combination_injective : Function.Injective (combination : CacheKey K → Combination K) := by
  intro first second h
  obtain ⟨value, format, d50, currentColor, properties, dimensions⟩ := first
  obtain ⟨value', format', d50', currentColor', properties', dimensions'⟩ := second
  simp only [combination, Combination.mk.injEq] at h
  obtain ⟨rfl, rfl, rfl, rfl, hproperties, hdimensions⟩ := h
  rw [Table.ext_get? hproperties, Table.ext_get? hdimensions]

/-- The options of a cache key, without a key for the output. -/
def options (key : CacheKey K) : Options K :=
  { format := key.format
    d50 := key.d50
    currentColor := key.currentColor
    properties := .table key.properties
    dimensions := .table key.dimensions
    key := none }

/-- A value and options have a cache key exactly if it holds the value and all options but the key
for the output. -/
theorem ofOptions?_eq_some {value : String} {options : Options K} {key : CacheKey K} :
    ofOptions? value options = some key ↔
      value = key.value ∧ { options with key := none } = key.options := by
  obtain ⟨format, d50, currentColor, properties, dimensions, label⟩ := options
  obtain ⟨value', format', d50', currentColor', properties', dimensions'⟩ := key
  cases properties <;> cases dimensions <;>
    simp [ofOptions?, CacheKey.options, Lookup.table?]

/-- The combination of a value and options is that of their cache key. -/
theorem combination_ofOptions? (value : String) (options : Options K) :
    (ofOptions? value options).map combination = Combination.of? value options := by
  obtain ⟨format, d50, currentColor, properties, dimensions, label⟩ := options
  cases properties <;> cases dimensions <;> rfl

end CacheKey

/-! ## Operations -/

namespace Resolver

/-- What can be done with a resolver. -/
inductive Operation (K : Type) where
  | resolve (value : String) (options : Options K)
  | clear

/-- Whether a value has been resolved with options since the last clear. -/
def IsRecent (operations : List (Operation K)) (value : String) (options : Options K) : Prop :=
  ∃ before later, operations = before ++ .resolve value options :: later ∧ .clear ∉ later

/-- The combinations that have been resolved since the last clear. -/
def recentCombinations (operations : List (Operation K)) : Set (Combination K) :=
  { combination | ∃ value options, IsRecent operations value options ∧
      Combination.of? value options = some combination }

/-- After a clear nothing is recent. -/
theorem not_isRecent_clear (operations : List (Operation K)) (value : String)
    (options : Options K) : ¬ IsRecent (operations ++ [.clear]) value options := by
  rintro ⟨before, later, heq, hlater⟩
  rcases List.eq_nil_or_concat later with rfl | ⟨later, last, rfl⟩
  · have hlast := (List.append_inj' heq rfl).2
    simp at hlast
  · rw [List.concat_eq_append, ← List.cons_append, ← List.append_assoc] at heq
    have hlast := (List.append_inj' heq rfl).2
    simp_all

/-- After a value is resolved, it is recent with all that was. -/
theorem isRecent_resolve {operations : List (Operation K)} {value : String} {options : Options K}
    {value' : String} {options' : Options K} :
    IsRecent (operations ++ [.resolve value options]) value' options' ↔
      IsRecent operations value' options' ∨ value' = value ∧ options' = options := by
  constructor
  · rintro ⟨before, later, heq, hlater⟩
    -- The last operation is the one that is looked for, or comes after it.
    rcases List.eq_nil_or_concat later with rfl | ⟨later, last, rfl⟩
    · have hlast := (List.append_inj' heq rfl).2
      simp only [List.cons.injEq, Operation.resolve.injEq, and_true] at hlast
      exact .inr ⟨hlast.1.symm, hlast.2.symm⟩
    · rw [List.concat_eq_append, ← List.cons_append, ← List.append_assoc] at heq
      refine .inl ⟨before, later, (List.append_inj' heq rfl).1, ?_⟩
      exact fun hclear => hlater (by simp [hclear])
  · rintro (⟨before, later, rfl, hlater⟩ | ⟨rfl, rfl⟩)
    · exact ⟨before, later ++ [.resolve value options], by simp, by simp [hlater]⟩
    · exact ⟨operations, [], rfl, by simp⟩

/-- The cache keys of what has been resolved since the last clear. -/
def recentKeys (operations : List (Operation K)) : Set (CacheKey K) :=
  { key | ∃ value options, IsRecent operations value options ∧
      CacheKey.ofOptions? value options = some key }

/-- Nothing is in the cache right after it has been cleared. -/
theorem recentKeys_clear (operations : List (Operation K)) :
    recentKeys (operations ++ [.clear]) = ∅ := by
  refine Set.eq_empty_of_forall_notMem ?_
  rintro key ⟨value, options, hrecent, -⟩
  exact not_isRecent_clear operations value options hrecent

/-- A value that is resolved adds its key, if it has one. -/
theorem mem_recentKeys_resolve {operations : List (Operation K)} {value : String}
    {options : Options K} {key : CacheKey K} :
    key ∈ recentKeys (operations ++ [.resolve value options]) ↔
      key ∈ recentKeys operations ∨ CacheKey.ofOptions? value options = some key := by
  constructor
  · rintro ⟨value', options', hrecent, hkey⟩
    rcases isRecent_resolve.1 hrecent with hrecent | ⟨rfl, rfl⟩
    · exact .inl ⟨value', options', hrecent, hkey⟩
    · exact .inr hkey
  · rintro (⟨value', options', hrecent, hkey⟩ | hkey)
    · exact ⟨value', options', isRecent_resolve.2 (.inl hrecent), hkey⟩
    · exact ⟨value, options, isRecent_resolve.2 (.inr ⟨rfl, rfl⟩), hkey⟩

/-- The recent combinations are those of the recent cache keys. -/
theorem recentCombinations_eq_image (operations : List (Operation K)) :
    recentCombinations operations = CacheKey.combination '' recentKeys operations := by
  ext combination
  constructor
  · rintro ⟨value, options, hrecent, hcombination⟩
    rw [← CacheKey.combination_ofOptions?, Option.map_eq_some_iff] at hcombination
    obtain ⟨key, hkey, rfl⟩ := hcombination
    exact ⟨key, ⟨value, options, hrecent, hkey⟩, rfl⟩
  · rintro ⟨key, ⟨value, options, hrecent, hkey⟩, rfl⟩
    exact ⟨value, options, hrecent, by rw [← CacheKey.combination_ofOptions?, hkey]; rfl⟩

variable [Scalar K] [Elementary K]

/-- The output of an operation where nothing is remembered. Clearing has none. -/
def Operation.uncached : Operation K → Option (Output K)
  | resolve value options => some (CssColor.resolve value options)
  | clear => none

variable [DecidableEq K]

/-- The output of an operation on a resolver, and the resolver after it. -/
def Operation.run (resolver : Resolver K) : Operation K → Option (Output K) × Resolver K
  | resolve value options =>
    let (output, after) := resolver.resolve value options
    (some output, after)
  | clear => (none, resolver.clear)

/-- The resolver after operations in order. -/
def after (resolver : Resolver K) (operations : List (Operation K)) : Resolver K :=
  operations.foldl (fun resolver operation => (operation.run resolver).2) resolver

end Resolver

/-! ## The outputs that a cache holds -/

section Outputs

variable [Scalar K] [Elementary K]

/-- The key for the output is applied outside of the resolution. -/
theorem resolveUnkeyed_without_key (value : String) (options : Options K) :
    resolveUnkeyed value { options with key := none } = resolveUnkeyed value options := rfl

/-- A cache key determines the output of all values and options that have it. -/
theorem resolveUnkeyed_of_ofOptions? {value : String} {options : Options K} {key : CacheKey K}
    (h : CacheKey.ofOptions? value options = some key) :
    resolveUnkeyed value options = resolveUnkeyed key.value key.options := by
  obtain ⟨rfl, hoptions⟩ := CacheKey.ofOptions?_eq_some.1 h
  rw [← hoptions, resolveUnkeyed_without_key]

end Outputs

/-- The cache keys with an output are as many as the cache has entries. -/
theorem Cache.encard_keys [DecidableEq K] (cache : Cache K) :
    { key | (cache.get? key).isSome }.encard = cache.size := by
  have hkeys : { key | (cache.get? key).isSome } =
      ((cache.entries.map Prod.fst).toFinset : Set (CacheKey K)) := by
    ext key
    simp only [Set.mem_ofPred_eq, List.coe_toFinset, List.mem_map]
    rw [Option.isSome_iff_ne_none, ne_eq, Cache.get?, List.lookup_eq_none_iff]
    simp only [bne_iff_ne, not_forall, not_not]
    constructor
    · rintro ⟨entry, hentry, h⟩
      exact ⟨entry, hentry, h.symm⟩
    · rintro ⟨entry, hentry, h⟩
      exact ⟨entry, hentry, h.symm⟩
  rw [hkeys, Set.encard_coe_eq_coe_finsetCard, List.toFinset_card_of_nodup cache.distinct,
    List.length_map]
  rfl

namespace Resolver

variable [Scalar K] [Elementary K] [DecidableEq K]

/-- A cache reflects operations if its cache keys are those of what has been resolved since the last
clear, and each of them has the output of the values and options with that cache key. -/
def Reflects (cache : Cache K) (operations : List (Operation K)) : Prop :=
  ∀ key output, cache.get? key = some output ↔
    key ∈ recentKeys operations ∧ output = CssColor.resolveUnkeyed key.value key.options

/-- A cache that reflects operations has an entry for each recent combination. -/
theorem Reflects.size_eq {cache : Cache K} {operations : List (Operation K)}
    (h : Reflects cache operations) :
    cache.size = (recentCombinations operations).encard := by
  have hkeys : { key | (cache.get? key).isSome } = recentKeys operations := by
    ext key
    rw [Set.mem_ofPred_eq, Option.isSome_iff_exists]
    exact ⟨fun ⟨output, houtput⟩ => ((h key output).1 houtput).1,
      fun hkey => ⟨_, (h key _).2 ⟨hkey, rfl⟩⟩⟩
  rw [recentCombinations_eq_image, CacheKey.combination_injective.encard_image, ← hkeys,
    Cache.encard_keys]

/-- Resolving on a cache that reflects the operations so far gives the output of the value, and a
cache that reflects this resolution too. -/
theorem resolveUnkeyed_reflects {resolver : Resolver K} {operations : List (Operation K)}
    (h : Reflects resolver.cache operations) (value : String) (options : Options K) :
    (resolver.resolveUnkeyed value options).1 = CssColor.resolveUnkeyed value options ∧
      Reflects (resolver.resolveUnkeyed value options).2.cache
        (operations ++ [.resolve value options]) := by
  unfold Resolver.resolveUnkeyed
  cases hkey : CacheKey.ofOptions? value options with
  | none =>
    -- Without a cache key nothing is remembered.
    refine ⟨rfl, fun other output => ?_⟩
    rw [h other output, mem_recentKeys_resolve, hkey]
    simp
  | some key =>
    have houtput := resolveUnkeyed_of_ofOptions? hkey
    dsimp only
    cases hget : resolver.cache.get? key with
    | some output =>
      obtain ⟨hrecent, rfl⟩ := (h key output).1 hget
      refine ⟨houtput.symm, fun other output => ?_⟩
      rw [h other output, mem_recentKeys_resolve, hkey, Option.some.injEq]
      -- The cache key is recent already.
      have hsame : key = other → other ∈ recentKeys operations := fun heq => heq ▸ hrecent
      tauto
    | none =>
      -- The output is remembered, and every other entry stays as it is.
      refine ⟨rfl, fun other output => ?_⟩
      rw [Cache.get?_set, mem_recentKeys_resolve, hkey, Option.some.injEq]
      by_cases hother : other = key
      · subst hother
        rw [if_pos rfl, Option.some.injEq, houtput]
        simp [eq_comm]
      · rw [if_neg hother, h other output]
        simp [Ne.symm hother]

/-- An operation on a cache that reflects the operations so far has the output that it has where
nothing is remembered, and leaves a cache that reflects it too. -/
theorem run_reflects {resolver : Resolver K} {operations : List (Operation K)}
    (h : Reflects resolver.cache operations) (operation : Operation K) :
    (operation.run resolver).1 = operation.uncached ∧
      Reflects (operation.run resolver).2.cache (operations ++ [operation]) := by
  cases operation with
  | resolve value options =>
    obtain ⟨houtput, hreflects⟩ := resolveUnkeyed_reflects h value options
    refine ⟨?_, hreflects⟩
    show some ((resolver.resolveUnkeyed value options).1.withKey options.key) = _
    rw [houtput]
    rfl
  | clear =>
    refine ⟨rfl, fun key output => ?_⟩
    rw [recentKeys_clear]
    simp [Operation.run, clear, empty]

/-- After any operations on an empty resolver, the cache reflects them. -/
theorem after_reflects (operations : List (Operation K)) :
    Reflects (empty.after operations).cache operations := by
  induction operations using List.reverseRecOn with
  | nil =>
    intro key output
    simp [after, empty, recentKeys, IsRecent]
  | append_singleton operations operation ih =>
    rw [after, List.foldl_append]
    exact (run_reflects ih operation).2

/-- Whatever has been done with an empty resolver, the next operation has the output that it has
where nothing is remembered, and after it the cache has one entry for each combination that has been
resolved since the last clear. -/
theorem output_and_size_after (operations : List (Operation K)) (operation : Operation K) :
    (operation.run (empty.after operations)).1 = operation.uncached ∧
      (operation.run (empty.after operations)).2.cache.size =
        (recentCombinations (operations ++ [operation])).encard := by
  obtain ⟨houtput, hreflects⟩ := run_reflects (after_reflects operations) operation
  exact ⟨houtput, hreflects.size_eq⟩

end Resolver

end CssColor
