import PrismProxy.ProxyPlugin

/-! # Chains of plugins

`run_on_request` with what it asks of the engine on the way: which plugins it instantiates,
and the state of the engine that all requests share. -/
namespace PluginChain

open ProxyConfig ProxyPlugin

variable {ω : Type}

/-- `instantiate` is what `Linker::instantiate` makes of a module in a new store; `after` is
what the plugin's turn leaves of the engine. -/
structure Wasmtime (ω : Type) where
  instantiate : Module → ω → Except String Instance
  after : Module → String → String → ω → ω

/-- Instantiating in a fresh store gives the module's initial memory and globals, whatever
the engine has done before. -/
def Fresh (W : Wasmtime ω) : Prop :=
  ∀ module engine, W.instantiate module engine = module.instantiate

structure Outcome (ω : Type) where
  result : Option (Except ProxyError Bool)
  engine : ω
  instantiated : List Plugin

def Wasmtime.load (W : Wasmtime ω) (engine : ω) (plugin : Plugin) : Plugin :=
  ⟨plugin.name, ⟨W.instantiate plugin.module engine⟩⟩

/-- The loop of `run_on_request`: the length of the method is checked before a plugin is
instantiated, everything else after. -/
def runOnRequest (W : Wasmtime ω) : List Plugin → ω → String → String → Outcome ω
  | [], engine, _, _ => ⟨some (.ok false), engine, []⟩
  | plugin :: plugins, engine, method, path =>
    if 256 < (asBytes method).length then ⟨runPlugin plugin method path, engine, []⟩
    else
      let engine' := W.after plugin.module method path engine
      match runPlugin (W.load engine plugin) method path with
      | some (.ok false) =>
        let rest := runOnRequest W plugins engine' method path
        { rest with instantiated := plugin :: rest.instantiated }
      | result => ⟨result, engine', [plugin]⟩

def serve (W : Wasmtime ω) (plugins : List Plugin) (engine : ω)
    (requests : List (String × String)) : ω :=
  requests.foldl (fun engine r => (runOnRequest W plugins engine r.1 r.2).engine) engine

variable {W : Wasmtime ω} {plugin : Plugin} {plugins A B : List Plugin} {engine : ω}
  {method path : String}

theorem long_method (h : 256 < (asBytes method).length) :
    runPlugin plugin method path = some (.error (.plugin
      s!"'{plugin.name}': method too long ({(asBytes method).length} bytes, max 256)")) := by
  simp only [runPlugin, if_pos h]

theorem runOnRequest_pass (h : runPlugin (W.load engine plugin) method path = some (.ok false)) :
    runOnRequest W (plugin :: plugins) engine method path =
      let rest := runOnRequest W plugins (W.after plugin.module method path engine) method path
      { rest with instantiated := plugin :: rest.instantiated } := by
  have hshort : ¬ 256 < (asBytes method).length := by
    intro hlong
    rw [long_method hlong] at h
    cases h
  simp only [runOnRequest, if_neg hshort, h]

theorem runOnRequest_stop (h : runPlugin (W.load engine plugin) method path ≠ some (.ok false))
    (plugins : List Plugin) :
    runOnRequest W (plugin :: plugins) engine method path =
      runOnRequest W [plugin] engine method path := by
  by_cases hlong : 256 < (asBytes method).length
  · simp only [runOnRequest, if_pos hlong]
  · simp only [runOnRequest, if_neg hlong]

theorem runOnRequest_single : (runOnRequest W [plugin] engine method path).result =
    runPlugin (W.load engine plugin) method path := by
  simp only [runOnRequest]
  split_ifs with hlong
  · rw [long_method hlong, long_method hlong, Wasmtime.load]
  · split
    · rename_i hrun
      exact hrun.symm
    · rfl

theorem instantiated_prefix (plugins : List Plugin) (engine : ω) (method path : String) :
    (runOnRequest W plugins engine method path).instantiated <+: plugins := by
  induction plugins generalizing engine with
  | nil => exact List.nil_prefix
  | cons plugin plugins ih =>
    simp only [runOnRequest]
    split_ifs
    · exact List.nil_prefix
    · split
      · exact List.cons_prefix_cons.mpr ⟨rfl, ih _⟩
      · exact List.cons_prefix_cons.mpr ⟨rfl, List.nil_prefix⟩

theorem runOnRequest_append_stop
    (h : (runOnRequest W A engine method path).result ≠ some (.ok false)) (B : List Plugin) :
    runOnRequest W (A ++ B) engine method path = runOnRequest W A engine method path := by
  induction A generalizing engine with
  | nil => exact absurd rfl h
  | cons plugin A ih =>
    rw [List.cons_append]
    by_cases hturn : runPlugin (W.load engine plugin) method path = some (.ok false)
    · rw [runOnRequest_pass hturn] at h
      rw [runOnRequest_pass hturn, runOnRequest_pass hturn, ih h]
    · rw [runOnRequest_stop hturn, ← runOnRequest_stop hturn A]

theorem runOnRequest_result (hW : Fresh W) (plugins : List Plugin) (engine : ω)
    (method path : String) :
    (runOnRequest W plugins engine method path).result = runPlugins plugins method path := by
  induction plugins generalizing engine with
  | nil => rfl
  | cons plugin plugins ih =>
    have hload : W.load engine plugin = plugin := by rw [Wasmtime.load, hW]
    by_cases hturn : runPlugin plugin method path = some (.ok false)
    · have hpass : runPlugin (W.load engine plugin) method path = some (.ok false) := by
        rw [hload, hturn]
      simp only [runOnRequest_pass hpass, ih, runPlugins, hturn]
    · have hstop : runPlugin (W.load engine plugin) method path ≠ some (.ok false) := by rwa [hload]
      rw [runOnRequest_stop hstop, runOnRequest_single, hload, runPlugins]
      split
      · assumption
      · assumption
      · assumption
      · rename_i hrun
        exact absurd hrun hturn

theorem runPlugins_append_pass (h : runPlugins A method path = some (.ok false)) (B : List Plugin) :
    runPlugins (A ++ B) method path = runPlugins B method path := by
  have hall := runPlugins_pass_iff.mp h
  induction A with
  | nil => rfl
  | cons plugin A ih =>
    obtain ⟨hplugin, hrest⟩ := List.forall_mem_cons.mp hall
    rw [List.cons_append, runPlugins, hplugin]
    exact ih (runPlugins_pass_iff.mpr hrest) hrest

theorem runPlugins_insert (h : runPlugins (A ++ plugin :: B) method path = some (.ok false)) :
    runPlugins (A ++ B) method path = some (.ok false) := by
  rw [runPlugins_pass_iff] at h ⊢
  intro p hp
  apply h p
  rw [List.mem_append] at hp ⊢
  exact hp.imp_right (List.mem_cons_of_mem _)

theorem load_restricts {compiled : String → Except String Module} {runtime loaded : PluginRuntime}
    {file : String} (h : runtime.load compiled file = .ok loaded)
    (hpass : loaded.runOnRequest method path = some (.ok false)) :
    runtime.runOnRequest method path = some (.ok false) := by
  unfold PluginRuntime.load at h
  split at h
  · cases h
    have hless := runPlugins_insert hpass
    rwa [List.append_nil] at hless
  · cases h

/-- How the answers of chains relate, whatever the plugins do and whatever the engine did
before. -/
structure ChainLaw (W : Wasmtime ω) : Prop where
  stops : ∀ {A engine method path},
    (runOnRequest W A engine method path).result ≠ some (.ok false) → ∀ B,
      runOnRequest W (A ++ B) engine method path = runOnRequest W A engine method path ∧
      (runOnRequest W (A ++ B) engine method path).instantiated <+: A
  passes : ∀ {A engine method path},
    (runOnRequest W A engine method path).result = some (.ok false) → ∀ B engine',
      (runOnRequest W (A ++ B) engine method path).result =
      (runOnRequest W B engine' method path).result
  inserted : ∀ {A B engine method path},
    (runOnRequest W (A ++ B) engine method path).result ≠ some (.ok false) →
      ∀ plugin engine',
        (runOnRequest W (A ++ plugin :: B) engine' method path).result ≠ some (.ok false)
  independent : ∀ plugins engine requests method path,
    (runOnRequest W plugins (serve W plugins engine requests) method path).result =
      (runOnRequest W plugins engine method path).result

theorem chain_law (hW : Fresh W) : ChainLaw W where
  stops h B := by
    have hstop := runOnRequest_append_stop h B
    exact ⟨hstop, hstop ▸ instantiated_prefix ..⟩
  passes h B engine' := by
    rw [runOnRequest_result hW] at h
    rw [runOnRequest_result hW, runOnRequest_result hW, runPlugins_append_pass h]
  inserted h plugin engine' hpass := by
    rw [runOnRequest_result hW] at h hpass
    exact h (runPlugins_insert hpass)
  independent plugins engine requests method path := by
    rw [runOnRequest_result hW, runOnRequest_result hW]

def countingEngine : Wasmtime ℕ := ⟨fun module _ => module.instantiate, fun _ _ _ n => n + 1⟩

theorem chain_law_counting : ChainLaw countingEngine := chain_law fun _ _ => rfl

end PluginChain
