import PrismProxy.PrefixMatch
import PrismProxy.RequestMediation

/-! # Which route a path selects

`route` takes the first route whose prefix the path starts with. For a validated list of
routes this says which routes are dead and when the order of the list matters. -/
namespace RouteSelection

open PrefixMatch ProxyConfig ProxyState
open RequestMediation (findRoute)

def prefixOf (r r' : RouteConfig) : Prop := startsWith r'.pathPrefix r.pathPrefix = true

/-- The route of the config that `route` selects in a state. -/
def selects (state : AppState) (path : String) : Option RouteConfig :=
  (findRoute state.routes path).map RouteState.route

def key (r : RouteConfig) : List Char := r.pathPrefix.toList

theorem prefixOf_iff {r r' : RouteConfig} : prefixOf r r' ↔ key r <+: key r' := startsWith_iff

theorem selects_eq {R : Rustls} {view : BuildView} {flag : ℕ} {c : Config} {state : AppState}
    (h : buildState R view flag c = .ok state) (path : String) :
    selects state path = firstMatch key c.routes path.toList := by
  rw [← (buildRoutes_ok (buildState_ok h).2.1).1, firstMatch, List.find?_map]
  have hsame : (fun rs : RouteState => startsWith path rs.route.pathPrefix) =
      (fun r => decide (key r <+: path.toList)) ∘ RouteState.route := by
    funext rs
    rw [Bool.eq_iff_iff, startsWith_iff]
    exact decide_eq_true_iff.symm
  rw [selects, findRoute, hsame]

/-- What the order of the routes of a config means for the state built from it. -/
structure Selection (c : Config) (state : AppState) : Prop where
  live : ∀ earlier route later, c.routes = earlier ++ route :: later →
    ((∃ path, selects state path = some route) ↔ ∀ r ∈ earlier, ¬ prefixOf r route)
  longest : c.routes.Pairwise (fun r r' => ¬ prefixOf r r') → ∀ path route,
    selects state path = some route ↔
      route ∈ c.routes ∧ startsWith path route.pathPrefix = true ∧
        ∀ r ∈ c.routes, startsWith path r.pathPrefix = true → r ≠ route →
          r.pathPrefix.length < route.pathPrefix.length
  exchange : ∀ earlier r r' later, c.routes = earlier ++ r :: r' :: later → ¬ prefixOf r r' →
    ¬ prefixOf r' r → ∀ {R view flag c' state'}, c'.routes = earlier ++ r' :: r :: later →
      buildState R view flag c' = .ok state' → ∀ path, selects state' path = selects state path

theorem keys_distinct {c : Config} (h : validate c = .ok ()) : (c.routes.map key).Nodup := by
  have hmap : c.routes.map key = (c.routes.map RouteConfig.pathPrefix).map String.toList := by
    rw [List.map_map]
    rfl
  rw [hmap]
  exact (validate_wellFormed h).distinct.map fun _ _ heq => String.toList_inj.mp heq

theorem validated_selection {R : Rustls} {view : BuildView} {flag : ℕ} {c : Config}
    {state : AppState} (hv : validate c = .ok ()) (hb : buildState R view flag c = .ok state) :
    Selection c state where
  live := by
    intro earlier route later hs
    simp only [selects_eq hb, prefixOf_iff, ← live_iff (keys_distinct hv) hs]
    constructor
    · rintro ⟨path, h⟩
      exact ⟨path.toList, h⟩
    · rintro ⟨input, h⟩
      exact ⟨String.ofList input, by rwa [String.toList_ofList]⟩
  longest := by
    intro hp path route
    simp only [prefixOf_iff] at hp
    rw [selects_eq hb, longest_iff hp]
    simp only [startsWith_iff, key, String.length_toList]
  exchange := by
    intro earlier r r' later hs hr hr' R view flag c' state' hs' hb' path
    rw [prefixOf_iff] at hr hr'
    rw [selects_eq hb', selects_eq hb, hs, hs', firstMatch_swap hr' hr]

def sampleConfig : Config :=
  ⟨⟨"127.0.0.1:8080", 10, 30000, none⟩,
    [⟨"/api", "127.0.0.1:3000", []⟩, ⟨"/api/v2", "127.0.0.1:3001", []⟩], none⟩

def sampleRustls : Rustls := ⟨fun _ => .ok [], fun _ => .ok none, fun _ _ => .ok ()⟩

def sampleView : BuildView := ⟨fun _ => .error "no such file", false, false, .error "", .error ""⟩

theorem validated_selection_shadowed : ∃ state,
    buildState sampleRustls sampleView 0 sampleConfig = .ok state ∧ Selection sampleConfig state ∧
      selects state "/api/v2/users" = some ⟨"/api", "127.0.0.1:3000", []⟩ := by
  have hv : validate sampleConfig = .ok () := rfl
  have hb : buildState sampleRustls sampleView 0 sampleConfig = .ok _ := rfl
  exact ⟨_, hb, validated_selection hv hb, rfl⟩

end RouteSelection
