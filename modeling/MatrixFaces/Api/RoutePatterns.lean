import MatrixFaces.Api.Dispatch

set_option autoImplicit false

/-!
# What a pattern matches (`src/api/router.cpp`, `src/api/router.h`)

The three shapes of a pattern, and the buffer the wildcard text is written to.
`matchPathInto` and `findRouteInto` are the functions of the source with that buffer.

`RoutePattern.Matches` says what a pattern means, without a scan: the path is the pattern
with its wildcard replaced by a text that fits the buffer.  At the end of a pattern that may
be any text, in the middle of one it has no slash.
`FirstServing` says the same of a table: the first route with the method of the request whose
pattern matches.

The main result is `routes_match`, for every table whose patterns have one of the three
shapes.  That the firmware's own table is one is `wellShaped_routes`.
-/

namespace MatrixFaces.Api

open MatrixFaces.Foundation

/-! ## The shapes -/

/-- The patterns a route may have. -/
inductive RoutePattern where
  | literal (text : Bytes) (hplain : chStar ∉ text)
  /-- `before*` -/
  | trailing (before : Bytes) (hplain : chStar ∉ before)
  /-- `before*/behind` -/
  | interior (before behind : Bytes) (hplain : chStar ∉ before) (hbehind : chStar ∉ behind)

namespace RoutePattern

/-- The pattern as it stands in the table. -/
def text : RoutePattern → Bytes
  | literal text _ => text
  | trailing before _ => before ++ [chStar]
  | interior before behind _ _ => before ++ chStar :: chSlash :: behind

/-- The pattern with its wildcard replaced. -/
def fill (wildcard : Bytes) : RoutePattern → Bytes
  | literal text _ => text
  | trailing before _ => before ++ wildcard
  | interior before behind _ _ => before ++ (wildcard ++ chSlash :: behind)

/-- What the wildcard may stand for. -/
def Allows (wildcard : Bytes) : RoutePattern → Prop
  | literal _ _ => wildcard = []
  | trailing _ _ => True
  | interior _ _ _ _ => chSlash ∉ wildcard

end RoutePattern

/-- The path is the pattern with its wildcard replaced by a text that fits the buffer. -/
structure RoutePattern.Matches (pattern : RoutePattern) (path wildcard : Bytes) (cap : Nat) :
    Prop where
  allowed : pattern.Allows wildcard
  path_eq : path = pattern.fill wildcard
  fits : wildcard.length < cap

section

variable {path wildcard : Bytes} {cap : Nat}

theorem captureWildcard_eq_some_iff {text : Bytes} :
    captureWildcard text cap = some wildcard ↔ wildcard = text ∧ text.length < cap := by
  rw [captureWildcard]
  split
  · exact iff_of_false (by simp) fun h => by omega
  · rename_i hfits
    rw [Option.some.injEq]
    exact ⟨fun h => ⟨h.symm, by omega⟩, fun h => h.1.symm⟩

/-- A star and what is in front of it. -/
theorem matchPath_star {before : Bytes} (hplain : chStar ∉ before) (suffix : Bytes)
    (hcap : 0 < cap) :
    matchPath (before ++ chStar :: suffix) path cap =
      if before.isPrefixOf path = false then none
      else if suffix = [] then captureWildcard (path.drop before.length) cap
      else
        match (path.drop before.length).dropWhile (· != chSlash) with
        | [] => none
        | segmentEnd =>
            if segmentEnd = suffix then
              captureWildcard ((path.drop before.length).takeWhile (· != chSlash)) cap
            else none := by
  have hstar := dropWhile_bne_append hplain suffix
  have hbefore := takeWhile_bne_append hplain suffix
  rw [matchPath, if_neg (Nat.ne_of_gt hcap)]
  generalize (before ++ chStar :: suffix).dropWhile (· != chStar) = star at hstar ⊢
  generalize (before ++ chStar :: suffix).takeWhile (· != chStar) = front at hbefore ⊢
  subst hstar hbefore
  rfl

theorem isPrefixOf_eq_true_iff {before : Bytes} :
    ¬ before.isPrefixOf path = false ↔ ∃ rest, path = before ++ rest := by
  rw [Bool.not_eq_false, List.isPrefixOf_iff_prefix]
  exact ⟨fun ⟨rest, h⟩ => ⟨rest, h.symm⟩, fun ⟨rest, h⟩ => ⟨rest, h.symm⟩⟩

/-- `matchPath` finds what the shape of the pattern says. -/
theorem matchPath_eq_some_iff (pattern : RoutePattern) (hcap : 0 < cap) :
    matchPath pattern.text path cap = some wildcard ↔ pattern.Matches path wildcard cap := by
  cases pattern with
  | literal text hplain =>
      have hno : text.dropWhile (· != chStar) = [] :=
        List.dropWhile_eq_nil_iff.mpr (bne_of_not_mem hplain)
      rw [RoutePattern.text, matchPath, if_neg (Nat.ne_of_gt hcap), hno]
      simp only
      split
      · rename_i heq
        rw [Option.some.injEq]
        exact ⟨fun h => ⟨h.symm, heq.symm, h ▸ hcap⟩, fun h => h.allowed.symm⟩
      · rename_i hne
        exact iff_of_false (by simp) fun h => hne h.path_eq.symm
  | trailing before hplain =>
      rw [RoutePattern.text, matchPath_star hplain [] hcap]
      split
      · rename_i hnot
        refine iff_of_false (by simp) fun h => ?_
        exact isPrefixOf_eq_true_iff.mpr ⟨wildcard, h.path_eq⟩ hnot
      · rename_i hprefix
        obtain ⟨rest, rfl⟩ := isPrefixOf_eq_true_iff.mp hprefix
        rw [if_pos rfl, List.drop_left, captureWildcard_eq_some_iff]
        constructor
        · rintro ⟨rfl, hfits⟩
          exact ⟨trivial, rfl, hfits⟩
        · rintro ⟨-, hpath, hfits⟩
          have hrest := List.append_cancel_left hpath
          exact ⟨hrest.symm, hrest ▸ hfits⟩
  | interior before behind hplain hbehind =>
      rw [RoutePattern.text, matchPath_star hplain _ hcap]
      split
      · rename_i hnot
        refine iff_of_false (by simp) fun h => ?_
        exact isPrefixOf_eq_true_iff.mpr ⟨_, h.path_eq⟩ hnot
      · rename_i hprefix
        obtain ⟨rest, rfl⟩ := isPrefixOf_eq_true_iff.mp hprefix
        rw [if_neg (List.cons_ne_nil _ _), List.drop_left]
        have hparts := @List.takeWhile_append_dropWhile _ (· != chSlash) rest
        constructor
        · intro h
          split at h
          · cases h
          · rename_i segmentEnd hne
            split at h
            · rename_i hsuffix
              obtain ⟨hwildcard, hfits⟩ := captureWildcard_eq_some_iff.mp h
              rw [hsuffix, ← hwildcard] at hparts
              refine ⟨?_, congrArg _ hparts.symm, hwildcard ▸ hfits⟩
              rw [hwildcard]
              exact fun hmem => by simpa using List.mem_takeWhile_imp hmem
            · cases h
        · rintro ⟨hallowed, hpath, hfits⟩
          have hrest := List.append_cancel_left hpath
          rw [hrest, dropWhile_bne_append hallowed, takeWhile_bne_append hallowed]
          simp only [if_true]
          exact captureWildcard_eq_some_iff.mpr ⟨rfl, hfits⟩

end

/-! ## The buffer -/

/-- `captureWildcard` with its buffer. -/
def captureWildcardInto (text out : Bytes) : Bool × Bytes :=
  if text.length + 1 > out.length then (false, out)
  else (true, (memcpy out 0 text).set text.length 0)

/-- `matchPath` with its buffer, which is emptied first. -/
def matchPathInto (pattern path wildcardOut : Bytes) : Bool × Bytes :=
  if wildcardOut.length = 0 then (false, wildcardOut)
  else
    let wildcardOut := wildcardOut.set 0 0
    match pattern.dropWhile (· != chStar) with
    | [] => (pattern == path, wildcardOut)
    | _ :: suffix =>
        let before := pattern.takeWhile (· != chStar)
        if before.isPrefixOf path = false then (false, wildcardOut)
        else
          let rest := path.drop before.length
          if suffix = [] then captureWildcardInto rest wildcardOut
          else
            match rest.dropWhile (· != chSlash) with
            | [] => (false, wildcardOut)
            | segmentEnd =>
                if segmentEnd = suffix then
                  captureWildcardInto (rest.takeWhile (· != chSlash)) wildcardOut
                else (false, wildcardOut)

/-- `findRoute` with its buffer, which every route that is looked at writes to. -/
def findRouteInto {Handler : Type} (method path : Bytes) :
    List (Route Handler) → Bytes → Option (Route Handler) × Bytes
  | [], wildcardOut => (none, wildcardOut.set 0 0)
  | route :: rest, wildcardOut =>
      if route.method ≠ method then findRouteInto method path rest wildcardOut
      else
        match matchPathInto route.pattern path wildcardOut with
        | (true, wildcardOut) => (some route, wildcardOut)
        | (false, wildcardOut) => findRouteInto method path rest wildcardOut

theorem wrote_captureWildcard (text : Bytes) {out : Bytes} (hempty : HoldsText out []) :
    Wrote (captureWildcardInto text out) (captureWildcard text out.length) out.length := by
  rw [captureWildcardInto, captureWildcard]
  split
  · exact ⟨rfl, hempty, rfl⟩
  · obtain ⟨hholds, hlength⟩ := @holdsText_memcpy text out (by omega)
    exact ⟨rfl, hholds, hlength⟩

/-- The buffer after `matchPath`. -/
theorem wrote_matchPath (pattern path : Bytes) {out : Bytes} (h : 0 < out.length) :
    Wrote (matchPathInto pattern path out) (matchPath pattern path out.length) out.length := by
  have hempty := holdsText_set_zero h
  have hlength : (out.set 0 0).length = out.length := List.length_set
  have hnothing : Wrote (false, out.set 0 0) none out.length := ⟨rfl, hempty, hlength⟩
  have hcapture : ∀ text : Bytes, Wrote (captureWildcardInto text (out.set 0 0))
      (captureWildcard text out.length) out.length := by
    intro text
    have hwrote := wrote_captureWildcard text hempty
    rwa [hlength] at hwrote
  rw [matchPathInto, matchPath, if_neg (Nat.ne_of_gt h), if_neg (Nat.ne_of_gt h)]
  cases pattern.dropWhile (· != chStar) with
  | nil =>
      simp only
      split
      · rename_i heq
        exact ⟨by simpa using heq, hempty, hlength⟩
      · rename_i hne
        exact ⟨by simpa using hne, hempty, hlength⟩
  | cons star suffix =>
      simp only
      split
      · exact hnothing
      · split
        · exact hcapture _
        · cases (path.drop (pattern.takeWhile (· != chStar)).length).dropWhile (· != chSlash) with
          | nil => exact hnothing
          | cons slash behind =>
              simp only
              split
              · exact hcapture _
              · exact hnothing

/-! ## The table -/

variable {Handler : Type}

/-- The route is for this method, and its pattern matches with this wildcard text. -/
def Route.Serves (route : Route Handler) (method path wildcard : Bytes) (cap : Nat) : Prop :=
  route.method = method ∧
    ∃ pattern : RoutePattern, pattern.text = route.pattern ∧ pattern.Matches path wildcard cap

/-- Every pattern of the table has one of the three shapes. -/
def WellShaped (table : List (Route Handler)) : Prop :=
  ∀ route ∈ table, ∃ pattern : RoutePattern, pattern.text = route.pattern

theorem serves_iff {route : Route Handler} {method path wildcard : Bytes} {cap : Nat}
    (hcap : 0 < cap) (hmethod : route.method = method)
    (hshape : ∃ pattern : RoutePattern, pattern.text = route.pattern) :
    route.Serves method path wildcard cap ↔ matchPath route.pattern path cap = some wildcard := by
  constructor
  · rintro ⟨-, pattern, htext, hmatches⟩
    rw [← htext]
    exact (matchPath_eq_some_iff pattern hcap).mpr hmatches
  · intro hmatch
    obtain ⟨pattern, htext⟩ := hshape
    rw [← htext] at hmatch
    exact ⟨hmethod, pattern, htext, (matchPath_eq_some_iff pattern hcap).mp hmatch⟩

/-- What `findRoute` returns: the first route that serves the request, and its wildcard text in
the buffer; or none that does, and an empty text. -/
def FirstServing (table : List (Route Handler)) (method path : Bytes) (cap : Nat)
    (result : Option (Route Handler) × Bytes) : Prop :=
  match result.1 with
  | some route => ∃ before after wildcard, table = before ++ route :: after ∧
      route.Serves method path wildcard cap ∧ HoldsText result.2 wildcard ∧
      ∀ other ∈ before, ∀ text, ¬ other.Serves method path text cap
  | none => HoldsText result.2 [] ∧
      ∀ other ∈ table, ∀ text, ¬ other.Serves method path text cap

/-- A route in front that does not serve the request. -/
theorem FirstServing.cons {route : Route Handler} {table : List (Route Handler)}
    {method path : Bytes} {cap : Nat} {result : Option (Route Handler) × Bytes}
    (h : FirstServing table method path cap result)
    (hnot : ∀ text, ¬ route.Serves method path text cap) :
    FirstServing (route :: table) method path cap result := by
  rw [FirstServing] at h ⊢
  split at h
  · obtain ⟨before, after, wildcard, rfl, hserves, hholds, hothers⟩ := h
    exact ⟨route :: before, after, wildcard, rfl, hserves, hholds,
      List.forall_mem_cons.mpr ⟨hnot, hothers⟩⟩
  · exact ⟨h.1, List.forall_mem_cons.mpr ⟨hnot, h.2⟩⟩

theorem firstServing_findRouteInto {table : List (Route Handler)} (hshape : WellShaped table)
    (method path : Bytes) {out : Bytes} (h : 0 < out.length) :
    FirstServing table method path out.length (findRouteInto method path table out) := by
  induction table generalizing out with
  | nil => exact ⟨holdsText_set_zero h, fun _ hother => by cases hother⟩
  | cons route rest ih =>
      obtain ⟨hroute, hrest⟩ := List.forall_mem_cons.mp hshape
      rw [findRouteInto]
      by_cases hmethod : route.method = method
      · have hwrote := wrote_matchPath route.pattern path h
        rw [if_neg (not_not.mpr hmethod)]
        rcases hresult : matchPathInto route.pattern path out with ⟨found, written⟩
        rw [hresult] at hwrote
        cases hmatch : matchPath route.pattern path out.length with
        | none =>
            -- what the route wrote is overwritten by the next one that is looked at
            rw [hmatch] at hwrote
            obtain rfl : found = false := hwrote.answer
            have hlength : written.length = out.length := hwrote.length
            have hlater := ih hrest (hlength ▸ h)
            rw [hlength] at hlater
            refine hlater.cons fun text hserves => ?_
            rw [serves_iff h hmethod hroute, hmatch] at hserves
            cases hserves
        | some wildcard =>
            rw [hmatch] at hwrote
            obtain rfl : found = true := hwrote.answer
            exact ⟨[], rest, wildcard, rfl, (serves_iff h hmethod hroute).mpr hmatch,
              hwrote.holds, fun _ hother => by cases hother⟩
      · rw [if_pos hmethod]
        exact (ih hrest h).cons fun text hserves => hmethod hserves.1

/-- The buffered `findRoute` is the one without a buffer. -/
theorem findRouteInto_eq (table : List (Route Handler)) (method path : Bytes) {out : Bytes}
    (h : 0 < out.length) :
    (findRouteInto method path table out).1 =
        (findRoute table method path out.length).map Prod.fst ∧
      HoldsText (findRouteInto method path table out).2
        (((findRoute table method path out.length).map Prod.snd).getD []) := by
  induction table generalizing out with
  | nil => exact ⟨rfl, holdsText_set_zero h⟩
  | cons route rest ih =>
      rw [findRouteInto, findRoute, List.findSome?_cons, ← findRoute]
      by_cases hmethod : route.method = method
      · have hwrote := wrote_matchPath route.pattern path h
        rw [if_neg (not_not.mpr hmethod), if_pos hmethod]
        rcases hresult : matchPathInto route.pattern path out with ⟨found, written⟩
        rw [hresult] at hwrote
        cases hmatch : matchPath route.pattern path out.length with
        | none =>
            rw [hmatch] at hwrote
            obtain rfl : found = false := hwrote.answer
            have hlength : written.length = out.length := hwrote.length
            have hlater := ih (hlength ▸ h)
            rwa [hlength] at hlater
        | some wildcard =>
            rw [hmatch] at hwrote
            obtain rfl : found = true := hwrote.answer
            exact ⟨rfl, hwrote.holds⟩
      · rw [if_pos hmethod, if_neg hmethod]
        exact ih h

/-- Whether a text is a pattern of one of the three shapes. -/
def isPattern (text : Bytes) : Bool :=
  match text.dropWhile (· != chStar) with
  | [] => true
  | [_] => true
  | _ :: c :: behind => c = chSlash && !behind.contains chStar

theorem exists_pattern {text : Bytes} (h : isPattern text = true) :
    ∃ pattern : RoutePattern, pattern.text = text := by
  have hparts := @List.takeWhile_append_dropWhile _ (· != chStar) text
  have hplain : chStar ∉ text.takeWhile (· != chStar) :=
    fun hmem => by simpa using List.mem_takeWhile_imp hmem
  have hstar : ∀ c rest, text.dropWhile (· != chStar) = c :: rest → c = chStar := by
    intro c rest hrest
    have hhead := List.head?_dropWhile_not (· != chStar) text
    rw [hrest] at hhead
    simpa using hhead
  rw [isPattern] at h
  split at h
  · rename_i hrest
    rw [hrest, List.append_nil] at hparts
    exact ⟨.literal text (hparts ▸ hplain), rfl⟩
  · rename_i c hrest
    rw [hrest, hstar c [] hrest] at hparts
    exact ⟨.trailing _ hplain, hparts⟩
  · rename_i c d behind hrest
    rw [Bool.and_eq_true, decide_eq_true_eq, Bool.not_eq_true', List.contains_eq_mem,
      decide_eq_false_iff_not] at h
    obtain ⟨rfl, hbehind⟩ := h
    rw [hrest, hstar c _ hrest] at hparts
    exact ⟨.interior _ behind hplain hbehind, hparts⟩

/-- The patterns of the firmware have these shapes. -/
theorem wellShaped_routes (metricsEnabled : Bool) : WellShaped (kRoutes metricsEnabled) := by
  have hall : ∀ route ∈ kRoutes metricsEnabled, isPattern route.pattern = true := by
    cases metricsEnabled <;> decide +kernel
  exact fun route hroute => exists_pattern (hall route hroute)

/-- A pattern matches a path exactly when the path is the pattern with its wildcard replaced by
a text that fits, and then writes that text; and the first route of the table that matches so,
with the method of the request, is the one that is found. -/
theorem routes_match (table : List (Route Handler)) (hshape : WellShaped table)
    (method path : Bytes) {out : Bytes} (hout : 0 < out.length) :
    (∀ pattern : RoutePattern,
      ((matchPathInto pattern.text path out).1 = true ↔
        ∃ wildcard, pattern.Matches path wildcard out.length) ∧
      ∀ wildcard, pattern.Matches path wildcard out.length →
        HoldsText (matchPathInto pattern.text path out).2 wildcard) ∧
      FirstServing table method path out.length (findRouteInto method path table out) := by
  refine ⟨fun pattern => ?_, firstServing_findRouteInto hshape method path hout⟩
  have hwrote := wrote_matchPath pattern.text path hout
  constructor
  · rw [hwrote.answer, Option.isSome_iff_exists]
    exact exists_congr fun wildcard => matchPath_eq_some_iff pattern hout
  · intro wildcard hmatches
    have hholds := hwrote.holds
    rwa [(matchPath_eq_some_iff pattern hout).mpr hmatches] at hholds

/-- Three characters and their terminator in four bytes. -/
theorem routes_match_clients :
    let table : List (Route Nat) := [⟨ascii "GET", ascii "/c/*", 1, true⟩,
      ⟨ascii "GET", ascii "/*/d", 2, true⟩]
    let out : Bytes := [7, 7, 7, 7]
    FirstServing table (ascii "GET") (ascii "/c/abc") 4
      (findRouteInto (ascii "GET") (ascii "/c/abc") table out) :=
  (routes_match [⟨ascii "GET", ascii "/c/*", 1, true⟩, ⟨ascii "GET", ascii "/*/d", 2, true⟩]
    (by
      intro route hroute
      refine exists_pattern ?_
      revert route
      decide) (ascii "GET") (ascii "/c/abc") (show 0 < ([7, 7, 7, 7] : Bytes).length by decide)).2

end MatrixFaces.Api
