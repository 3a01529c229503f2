import MatrixFaces.Foundation.Bytes

set_option autoImplicit false

/-!
# Routing (`src/api/router.cpp`)

A path is matched against patterns with at most one `*`.

`captureWildcard` and `matchPath` are the source's scan, with the captured text as a value.
The buffer that the source writes it to is in `Api.RoutePatterns`, where the scan is compared
with what a pattern means.

`captureWildcard` and `matchPath` are the source's scan, with the captured text as a value.  The
buffer that the source writes it to is in `Api.RoutePatterns`, where the scan is compared with
what a pattern means.
-/

namespace MatrixFaces.Api

open MatrixFaces.Foundation

abbrev chStar : Byte := 0x2A
abbrev chSlash : Byte := 0x2F

/-- `Route`, whatever its handlers are. -/
structure Route (Handler : Type) where
  method : Bytes
  pattern : Bytes
  handler : Handler
  requiresAuth : Bool

/-- `captureWildcard`: the text with its terminator has to fit. -/
def captureWildcard (text : Bytes) (cap : Nat) : Option Bytes :=
  if text.length + 1 > cap then none else some text

/-- `matchPath`: the wildcard text, empty for a pattern without one. -/
def matchPath (pattern path : Bytes) (wildcardCap : Nat) : Option Bytes :=
  if wildcardCap = 0 then none
  else
    match pattern.dropWhile (· != chStar) with
    | [] => if pattern = path then some [] else none
    | _ :: suffix =>
        let before := pattern.takeWhile (· != chStar)
        if before.isPrefixOf path = false then none
        else
          let rest := path.drop before.length
          if suffix = [] then captureWildcard rest wildcardCap
          else
            -- Interior wildcard: one segment, then exactly the rest of the pattern.
            match rest.dropWhile (· != chSlash) with
            | [] => none
            | segmentEnd =>
                if segmentEnd = suffix then
                  captureWildcard (rest.takeWhile (· != chSlash)) wildcardCap
                else none

/-- `findRoute`: the first route whose method and pattern both match. -/
def findRoute {Handler : Type} (table : List (Route Handler)) (method path : Bytes)
    (wildcardCap : Nat) : Option (Route Handler × Bytes) :=
  table.findSome? fun route =>
    if route.method = method then
      (matchPath route.pattern path wildcardCap).map fun wildcard => (route, wildcard)
    else none

theorem findRoute_eq_some {Handler : Type} {table : List (Route Handler)} {method path : Bytes}
    {wildcardCap : Nat} {route : Route Handler} {wildcard : Bytes}
    (h : findRoute table method path wildcardCap = some (route, wildcard)) :
    route ∈ table ∧ route.method = method ∧
      matchPath route.pattern path wildcardCap = some wildcard := by
  obtain ⟨found, hfound, hmatch⟩ := List.exists_of_findSome?_eq_some h
  split at hmatch
  · rename_i hmethod
    obtain ⟨text, htext, hpair⟩ := Option.map_eq_some_iff.mp hmatch
    cases hpair
    exact ⟨hfound, hmethod, htext⟩
  · cases hmatch

/-- A pattern without a wildcard matches itself only. -/
theorem eq_of_matchPath {pattern path wildcard : Bytes} {wildcardCap : Nat}
    (hplain : pattern.dropWhile (· != chStar) = [])
    (h : matchPath pattern path wildcardCap = some wildcard) : path = pattern := by
  rw [matchPath] at h
  split at h
  · cases h
  · rw [hplain] at h
    simp only at h
    split at h
    · rename_i heq
      exact heq.symm
    · cases h

end MatrixFaces.Api
