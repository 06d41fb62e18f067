import Mathlib.Data.List.Basic
import PrismProxy.ProxyConfig

/-! # The plugin runtime

What `wasmtime` makes of a compiled module is a parameter in the form of data: the outcome of
instantiating it in a fresh store, the initial contents of the exported memory and the typed
export as a function of memory and arguments. The store is dropped after each call, so a call
can change nothing that a later one sees. Nothing interrupts a call: the engine counts no fuel and
sets no deadline, so a guest that loops keeps `run_on_request` for ever. -/
namespace ProxyPlugin

open ProxyConfig

abbrev Bytes := List UInt8

/-- A typed `(i32, i32, i32, i32) -> i32` export: a result or a trap, or `none` where the call
never returns. -/
abbrev OnRequest := Bytes → Int32 → Int32 → Int32 → Int32 → Option (Except String Int32)

structure Instance where
  memory : Option Bytes
  onRequest : Except String OnRequest

structure Module where
  instantiate : Except String Instance

structure Plugin where
  name : String
  module : Module

structure PluginRuntime where
  plugins : List Plugin

def PluginRuntime.new : Except ProxyError PluginRuntime := .ok ⟨[]⟩

/-- `Path::file_stem`, read as UTF-8: the last component up to its last dot, a leading dot
belonging to the stem. -/
def fileStem (path : String) : Option String :=
  let components := (path.toList.splitOn '/').filter fun c => c ≠ [] && c ≠ ['.']
  match components.getLast? with
  | none => none
  | some name =>
    if name = ['.', '.'] then none
    else
      let stem := (name.reverse.dropWhile (· ≠ '.')).drop 1 |>.reverse
      some (String.ofList (if stem = [] then name else stem))

/-- `Plugin::from_file` over the outcome of reading and compiling the file. -/
def Plugin.fromFile (compiled : Except String Module) (path : String) :
    Except ProxyError Plugin :=
  match compiled with
  | .ok module => .ok ⟨(fileStem path).getD "unknown", module⟩
  | .error e => .error (.plugin s!"compile '{path}': {e}")

def PluginRuntime.load (compiled : String → Except String Module) (runtime : PluginRuntime)
    (path : String) : Except ProxyError PluginRuntime :=
  match Plugin.fromFile (compiled path) path with
  | .ok plugin => .ok ⟨runtime.plugins ++ [plugin]⟩
  | .error e => .error e

def asBytes (s : String) : Bytes := s.toUTF8.data.toList

/-- `Memory::write`: no effect and an error when the range leaves the memory. -/
def writeMemory (memory : Bytes) (offset : ℕ) (bytes : Bytes) : Except String Bytes :=
  if offset + bytes.length ≤ memory.length then
    .ok (memory.take offset ++ bytes ++ memory.drop (offset + bytes.length))
  else .error "out of bounds memory access"

/-- One turn of the loop of `run_on_request`, if it comes to an end: the exits in source order, then
the verdict. -/
def runPlugin (plugin : Plugin) (method path : String) : Option (Except ProxyError Bool) :=
  let name := plugin.name
  let methodBytes := asBytes method
  let pathBytes := asBytes path
  if 256 < methodBytes.length then
    some (.error (.plugin s!"'{name}': method too long ({methodBytes.length} bytes, max 256)"))
  else
    match plugin.module.instantiate with
    | .error e => some (.error (.plugin s!"instantiate '{name}': {e}"))
    | .ok inst =>
      match inst.memory with
      | none => some (.error (.plugin s!"'{name}' missing 'memory' export"))
      | some memory =>
        match writeMemory memory 0 methodBytes with
        | .error e => some (.error (.plugin s!"write method for '{name}': {e}"))
        | .ok memory =>
          match writeMemory memory 256 pathBytes with
          | .error e => some (.error (.plugin s!"write path for '{name}': {e}"))
          | .ok memory =>
            match inst.onRequest with
            | .error e => some (.error (.plugin s!"'{name}' missing 'on_request' export: {e}"))
            | .ok onRequest =>
              match onRequest memory 0 (Int32.ofNat methodBytes.length) 256
                  (Int32.ofNat pathBytes.length) with
              | none => none
              | some (.error e) => some (.error (.plugin s!"'{name}' on_request trap: {e}"))
              | some (.ok result) => some (.ok (result != 0))

def runPlugins : List Plugin → String → String → Option (Except ProxyError Bool)
  | [], _, _ => some (.ok false)
  | plugin :: plugins, method, path =>
    match runPlugin plugin method path with
    | none => none
    | some (.error e) => some (.error e)
    | some (.ok true) => some (.ok true)
    | some (.ok false) => runPlugins plugins method path

def PluginRuntime.runOnRequest (runtime : PluginRuntime) (method path : String) :
    Option (Except ProxyError Bool) := runPlugins runtime.plugins method path

/-- A chain lets a request pass exactly when every plugin of it ran without error and
returned zero. -/
theorem runPlugins_pass_iff {plugins : List Plugin} {method path : String} :
    runPlugins plugins method path = some (.ok false) ↔
      ∀ p ∈ plugins, runPlugin p method path = some (.ok false) := by
  induction plugins with
  | nil => simp [runPlugins]
  | cons plugin plugins ih =>
    simp only [runPlugins, List.forall_mem_cons]
    cases h : runPlugin plugin method path with
    | none => simp
    | some result =>
      cases result with
      | error e => simp
      | ok blocked => cases blocked <;> simp [ih]

example : fileStem "./plugins/auth.wasm" = some "auth" := by decide

end ProxyPlugin
