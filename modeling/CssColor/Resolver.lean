import CssColor.Cache
import CssColor.Resolution

/-!
# Resolving with a cache

A `Resolver` remembers the outputs of the values that it has resolved. Options with functions bypass
its cache.
-/

namespace CssColor

/-- Resolves values and remembers their outputs. -/
structure Resolver (K : Type) where
  cache : Cache K

namespace Resolver

variable {K : Type}

/-- The resolver that remembers nothing. -/
def empty : Resolver K := ⟨.empty⟩

/-- The resolver after it has forgotten everything. -/
def clear (_ : Resolver K) : Resolver K := empty

variable [Scalar K] [Elementary K] [DecidableEq K]

/-- The output of a value without a key, and the resolver that remembers it. -/
def resolveUnkeyed (resolver : Resolver K) (value : String) (options : Options K) :
    Output K × Resolver K :=
  match CacheKey.ofOptions? value options with
  | some key =>
    match resolver.cache.get? key with
    | some output => (output, resolver)
    | none =>
      let output := CssColor.resolveUnkeyed value options
      (output, ⟨resolver.cache.set key output⟩)
  | none => (CssColor.resolveUnkeyed value options, resolver)

/-- The output of a value, and the resolver that remembers it. -/
def resolve (resolver : Resolver K) (value : String) (options : Options K) :
    Output K × Resolver K :=
  let (output, resolver) := resolver.resolveUnkeyed value options
  (output.withKey options.key, resolver)

end Resolver

end CssColor
