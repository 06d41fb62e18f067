import Mathlib.Algebra.Group.Nat.Defs
import PrismProxy.RangeWrites
import PrismProxy.ProxyPlugin

/-! # What a plugin is called on

`run_on_request` writes the method at offset 0 and the path at offset 256 of a fresh memory and
passes both ranges as `i32`s. A turn of its loop is cut at the call: the exits before it, and
the verdict after it. -/
namespace PluginMarshalling

open ProxyConfig ProxyPlugin RangeWrites

/-- The memory and the arguments of a call of `on_request`. -/
structure Call where
  memory : Bytes
  methodPtr : Int32
  methodLen : Int32
  pathPtr : Int32
  pathLen : Int32

def marshal (plugin : Plugin) (method path : String) : Except ProxyError (OnRequest × Call) :=
  let name := plugin.name
  let methodBytes := asBytes method
  let pathBytes := asBytes path
  if 256 < methodBytes.length then
    .error (.plugin s!"'{name}': method too long ({methodBytes.length} bytes, max 256)")
  else
    match plugin.module.instantiate with
    | .error e => .error (.plugin s!"instantiate '{name}': {e}")
    | .ok inst =>
      match inst.memory with
      | none => .error (.plugin s!"'{name}' missing 'memory' export")
      | some memory =>
        match writeMemory memory 0 methodBytes with
        | .error e => .error (.plugin s!"write method for '{name}': {e}")
        | .ok memory =>
          match writeMemory memory 256 pathBytes with
          | .error e => .error (.plugin s!"write path for '{name}': {e}")
          | .ok memory =>
            match inst.onRequest with
            | .error e => .error (.plugin s!"'{name}' missing 'on_request' export: {e}")
            | .ok onRequest =>
              .ok (onRequest, ⟨memory, 0, Int32.ofNat methodBytes.length, 256,
                Int32.ofNat pathBytes.length⟩)

def verdict (plugin : Plugin) (onRequest : OnRequest) (call : Call) :
    Option (Except ProxyError Bool) :=
  match onRequest call.memory call.methodPtr call.methodLen call.pathPtr call.pathLen with
  | none => none
  | some (.error e) => some (.error (.plugin s!"'{plugin.name}' on_request trap: {e}"))
  | some (.ok result) => some (.ok (result != 0))

structure Outcome where
  result : Option (Except ProxyError Bool)
  called : List (Plugin × Call)

def runOnRequest : List Plugin → String → String → Outcome
  | [], _, _ => ⟨some (.ok false), []⟩
  | plugin :: plugins, method, path =>
    match marshal plugin method path with
    | .error e => ⟨some (.error e), []⟩
    | .ok (onRequest, call) =>
      match verdict plugin onRequest call with
      | some (.ok false) =>
        let rest := runOnRequest plugins method path
        { rest with called := (plugin, call) :: rest.called }
      | result => ⟨result, [(plugin, call)]⟩

variable {plugin : Plugin} {plugins before after : List Plugin} {method path : String}

theorem runPlugin_eq (plugin : Plugin) (method path : String) :
    runPlugin plugin method path =
      match marshal plugin method path with
      | .error e => some (.error e)
      | .ok (onRequest, call) => verdict plugin onRequest call := by
  unfold runPlugin marshal verdict
  by_cases hlong : 256 < (asBytes method).length
  · simp only [if_pos hlong]
  simp only [if_neg hlong]
  cases plugin.module.instantiate with
  | error e => rfl
  | ok inst =>
    cases hmem : inst.memory with
    | none => simp only [hmem]
    | some memory =>
      simp only [hmem]
      cases writeMemory memory 0 (asBytes method) with
      | error e => rfl
      | ok first =>
        simp only
        cases writeMemory first 256 (asBytes path) with
        | error e => rfl
        | ok second =>
          simp only
          cases inst.onRequest <;> rfl

theorem runOnRequest_result (plugins : List Plugin) (method path : String) :
    (runOnRequest plugins method path).result = runPlugins plugins method path := by
  induction plugins with
  | nil => rfl
  | cons plugin plugins ih =>
    rw [runOnRequest, runPlugins, runPlugin_eq]
    cases marshal plugin method path with
    | error e => rfl
    | ok marshalled =>
      obtain ⟨onRequest, call⟩ := marshalled
      simp only
      cases verdict plugin onRequest call with
      | none => rfl
      | some result =>
        cases result with
        | error e => rfl
        | ok blocked =>
          cases blocked with
          | true => rfl
          | false => exact ih

/-- The memory of a 32-bit module. -/
def Memory32 (module : Module) : Prop :=
  ∀ inst memory, module.instantiate = .ok inst → inst.memory = some memory →
    memory.length ≤ 2 ^ 32

/-- Method and path have room where they go. -/
structure Fits (memory : Bytes) (method path : String) : Prop where
  short : (asBytes method).length ≤ 256
  methodRoom : (asBytes method).length ≤ memory.length
  pathRoom : 256 + (asBytes path).length ≤ memory.length

/-- A call on exactly the method and the path, in a memory that is otherwise `initial`. -/
structure Marshalled (initial : Bytes) (method path : String) (call : Call) : Prop where
  short : (asBytes method).length ≤ 256
  size : call.memory.length = initial.length
  methodWritten : HoldsAt call.memory 0 (asBytes method)
  pathWritten : HoldsAt call.memory 256 (asBytes path)
  rest : ∀ i, Outside 0 (asBytes method).length i → Outside 256 (asBytes path).length i →
    call.memory[i]? = initial[i]?
  methodPtr : call.methodPtr.toUInt32.toNat = 0
  methodLen : call.methodLen.toUInt32.toNat = (asBytes method).length
  pathPtr : call.pathPtr.toUInt32.toNat = 256
  pathLen : call.pathLen.toUInt32.toNat = (asBytes path).length

theorem writeMemory_ok {memory written bytes : Bytes} {offset : ℕ}
    (h : writeMemory memory offset bytes = .ok written) :
    offset + bytes.length ≤ memory.length ∧ written = overwrite memory offset bytes := by
  unfold writeMemory at h
  split at h
  · rename_i hfits
    exact ⟨hfits, (Except.ok.inj h).symm⟩
  · cases h

theorem marshal_ok {onRequest : OnRequest} {call : Call}
    (h : marshal plugin method path = .ok (onRequest, call)) :
    ∃ inst initial, plugin.module.instantiate = .ok inst ∧ inst.memory = some initial ∧
      Fits initial method path ∧
      call = ⟨overwrite (overwrite initial 0 (asBytes method)) 256 (asBytes path), 0,
        Int32.ofNat (asBytes method).length, 256, Int32.ofNat (asBytes path).length⟩ := by
  unfold marshal at h
  simp only at h
  split at h
  · cases h
  · rename_i hshort
    split at h
    · cases h
    · rename_i inst hinst
      split at h
      · cases h
      · rename_i initial hmem
        split at h
        · cases h
        · rename_i first hfirst
          split at h
          · cases h
          · rename_i second hsecond
            split at h
            · cases h
            · obtain ⟨hmethod, rfl⟩ := writeMemory_ok hfirst
              obtain ⟨hpath, rfl⟩ := writeMemory_ok hsecond
              rw [length_overwrite hmethod] at hpath
              refine ⟨inst, initial, hinst, hmem, ⟨by omega, by omega, hpath⟩, ?_⟩
              exact (Prod.mk.inj (Except.ok.inj h)).2.symm

theorem toUInt32_ofNat {n : ℕ} (h : n < 2 ^ 32) : (Int32.ofNat n).toUInt32.toNat = n := by
  rw [show (Int32.ofNat n).toUInt32 = UInt32.ofNat n from rfl, UInt32.toNat_ofNat']
  exact Nat.mod_eq_of_lt h

theorem marshalled_of_fits {initial : Bytes} (h : Fits initial method path)
    (hsize : initial.length ≤ 2 ^ 32) :
    Marshalled initial method path
      ⟨overwrite (overwrite initial 0 (asBytes method)) 256 (asBytes path), 0,
        Int32.ofNat (asBytes method).length, 256, Int32.ofNat (asBytes path).length⟩ := by
  obtain ⟨hshort, hmethod, hpath⟩ := h
  have hfirst : 0 + (asBytes method).length ≤ initial.length := by omega
  have hlength := length_overwrite hfirst
  have hsecond : 256 + (asBytes path).length ≤
      (overwrite initial 0 (asBytes method)).length := by omega
  refine ⟨hshort, ?_, ?_, ?_, ?_, rfl, ?_, rfl, ?_⟩
  · rw [length_overwrite hsecond, hlength]
  · -- the method ends where the path begins, at the latest
    apply (overwrite_holdsAt (Nat.zero_le _)).overwrite hsecond
    left
    omega
  · apply overwrite_holdsAt
    omega
  · intro i hi hi'
    rw [overwrite_outside hsecond hi', overwrite_outside hfirst hi]
  · apply toUInt32_ofNat
    omega
  · apply toUInt32_ofNat
    omega

theorem writeMemory_fits {memory bytes : Bytes} {offset : ℕ}
    (h : offset + bytes.length ≤ memory.length) :
    writeMemory memory offset bytes = .ok (overwrite memory offset bytes) := if_pos h

theorem marshal_fits {inst : Instance} {initial : Bytes} {onRequest : OnRequest}
    (hinst : plugin.module.instantiate = .ok inst) (hmem : inst.memory = some initial)
    (hfits : Fits initial method path) (hcall : inst.onRequest = .ok onRequest) :
    marshal plugin method path = .ok (onRequest,
      ⟨overwrite (overwrite initial 0 (asBytes method)) 256 (asBytes path), 0,
        Int32.ofNat (asBytes method).length, 256, Int32.ofNat (asBytes path).length⟩) := by
  obtain ⟨hshort, hmethod, hpath⟩ := hfits
  have hfirst : 0 + (asBytes method).length ≤ initial.length := by omega
  have hsecond : 256 + (asBytes path).length ≤
      (overwrite initial 0 (asBytes method)).length := by
    rw [length_overwrite hfirst]
    exact hpath
  unfold marshal
  simp only [if_neg (Nat.not_lt.mpr hshort), hinst, hmem, writeMemory_fits hfirst,
    writeMemory_fits hsecond, hcall]

theorem marshal_refused {inst : Instance} {initial : Bytes}
    (hinst : plugin.module.instantiate = .ok inst) (hmem : inst.memory = some initial)
    (hfits : ¬ Fits initial method path) : ∃ e, marshal plugin method path = .error e := by
  cases h : marshal plugin method path with
  | error e => exact ⟨e, rfl⟩
  | ok marshalled =>
    obtain ⟨onRequest, call⟩ := marshalled
    obtain ⟨inst', initial', hinst', hmem', hok, _⟩ := marshal_ok h
    obtain rfl := Except.ok.inj (hinst.symm.trans hinst')
    obtain rfl := Option.some.inj (hmem.symm.trans hmem')
    exact absurd hok hfits

theorem called_marshal {call : Call}
    (h : (plugin, call) ∈ (runOnRequest plugins method path).called) :
    plugin ∈ plugins ∧ ∃ onRequest, marshal plugin method path = .ok (onRequest, call) := by
  induction plugins with
  | nil => cases h
  | cons first plugins ih =>
    simp only [runOnRequest] at h
    split at h
    · cases h
    · rename_i onRequest firstCall hmarshal
      split at h
      · rcases List.mem_cons.mp h with heq | hrest
        · obtain ⟨rfl, rfl⟩ := Prod.mk.inj heq
          exact ⟨List.mem_cons_self, onRequest, hmarshal⟩
        · obtain ⟨hmem, hcall⟩ := ih hrest
          exact ⟨List.mem_cons_of_mem _ hmem, hcall⟩
      · obtain ⟨rfl, rfl⟩ := Prod.mk.inj (List.mem_singleton.mp h)
        exact ⟨List.mem_cons_self, onRequest, hmarshal⟩

theorem called_single {onRequest : OnRequest} {call : Call}
    (h : marshal plugin method path = .ok (onRequest, call)) :
    (runOnRequest [plugin] method path).called = [(plugin, call)] := by
  simp only [runOnRequest, h]
  split <;> rfl

theorem runOnRequest_append (h : runPlugins before method path = some (.ok false))
    (plugins : List Plugin) :
    (runOnRequest (before ++ plugins) method path).result =
        (runOnRequest plugins method path).result ∧
      (runOnRequest (before ++ plugins) method path).called.map Prod.fst =
        before ++ (runOnRequest plugins method path).called.map Prod.fst := by
  have hall := runPlugins_pass_iff.mp h
  induction before with
  | nil => exact ⟨rfl, rfl⟩
  | cons first before ih =>
    obtain ⟨hfirst, hrest⟩ := List.forall_mem_cons.mp hall
    obtain ⟨hresult, hcalled⟩ := ih (runPlugins_pass_iff.mpr hrest) hrest
    rw [runPlugin_eq] at hfirst
    split at hfirst
    · cases hfirst
    · rename_i onRequest call hmarshal
      simp only [List.cons_append, runOnRequest, hmarshal, hfirst, List.map_cons]
      exact ⟨hresult, congrArg _ hcalled⟩

/-- What a chain passes to its plugins. -/
structure ArgumentLaw (runtime : PluginRuntime) (method path : String) : Prop where
  loop : (runOnRequest runtime.plugins method path).result = runtime.runOnRequest method path
  called : ∀ {plugin call}, (plugin, call) ∈ (runOnRequest runtime.plugins method path).called →
    ∃ inst initial, plugin.module.instantiate = .ok inst ∧ inst.memory = some initial ∧
      Marshalled initial method path call
  refused : ∀ {before plugin after inst initial}, runtime.plugins = before ++ plugin :: after →
    runPlugins before method path = some (.ok false) → plugin.module.instantiate = .ok inst →
    inst.memory = some initial → ¬ Fits initial method path →
      (∃ e, runtime.runOnRequest method path = some (.error e)) ∧
      (runOnRequest runtime.plugins method path).called.map Prod.fst = before

/-- Every call of `on_request` gets the method and the path as they are; where one of them has
no room, the call is not made and the request fails. -/
theorem argument_law (runtime : PluginRuntime) (method path : String)
    (h32 : ∀ plugin ∈ runtime.plugins, Memory32 plugin.module) :
    ArgumentLaw runtime method path where
  loop := runOnRequest_result ..
  called h := by
    obtain ⟨hplugin, onRequest, hmarshal⟩ := called_marshal h
    obtain ⟨inst, initial, hinst, hmem, hfits, rfl⟩ := marshal_ok hmarshal
    exact ⟨inst, initial, hinst, hmem,
      marshalled_of_fits hfits (h32 _ hplugin inst initial hinst hmem)⟩
  refused {before plugin after inst initial} hplugins hpass hinst hmem hfits := by
    obtain ⟨e, he⟩ := marshal_refused hinst hmem hfits
    obtain ⟨hresult, hcalled⟩ := runOnRequest_append hpass (plugin :: after)
    simp only [runOnRequest, he, List.map_nil, List.append_nil] at hresult hcalled
    refine ⟨⟨e, ?_⟩, ?_⟩
    · rw [PluginRuntime.runOnRequest, ← runOnRequest_result, hplugins, hresult]
    · rw [hplugins, hcalled]

def emptyPage : Bytes := List.replicate 65536 0

theorem emptyPage_length : emptyPage.length = 65536 := List.length_replicate

def methodCheck : Plugin where
  name := "method-check"
  module := ⟨.ok
    { memory := some emptyPage
      onRequest := .ok fun memory _ methodLen _ _ =>
        some (.ok (if methodLen ≠ 0 ∧ memory.head? = some 71 then 1 else 0)) }⟩

theorem argument_law_methodCheck :
    ((runOnRequest [methodCheck] "GET" "/test").called.map fun c => c.2.pathLen) = [5] ∧
    ArgumentLaw ⟨[methodCheck]⟩ "GET" "/test" := by
  have hmethod : (asBytes "GET").length = 3 := by decide
  have hpath : (asBytes "/test").length = 5 := by decide
  have hfits : Fits emptyPage "GET" "/test" := by
    constructor
    · rw [hmethod]
      decide
    · rw [hmethod, emptyPage_length]
      decide
    · rw [hpath, emptyPage_length]
      decide
  refine ⟨?_, argument_law _ _ _ ?_⟩
  · rw [called_single (marshal_fits rfl rfl hfits rfl), hpath]
    rfl
  · intro plugin hplugin inst memory hinst hmem
    obtain rfl := List.mem_singleton.mp hplugin
    obtain rfl := Except.ok.inj hinst
    obtain rfl := Option.some.inj hmem
    rw [emptyPage_length]
    decide

end PluginMarshalling
