import Interview.Registry
import Interview.Text.Quoted

/-!
# Listings of registries

A registry is listed by the names of what it holds, each kind in order.

* `Registry.listing`: the listing.
-/

namespace Interview

namespace Registry

/-- Names in square brackets. -/
def listNames (names : List String) : String :=
  "[" ++ ", ".intercalate (names.map Quoted.encode) ++ "]"

/-- The names of what a registry holds. -/
def listing (r : Registry) : String :=
  "Registry \x7b predicates: " ++ listNames r.predicates.keys ++
    ", functions: " ++ listNames r.functions.keys ++
    ", country_tables: " ++ listNames r.countryTables.keys ++ " \x7d"

end Registry

end Interview
