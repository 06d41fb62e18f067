import Mathlib.Algebra.Group.Nat.Defs
import Mathlib.Data.List.Basic

/-! # The upstream health loop

The flag is written by one loop, from the outcomes of its pings. Counters are `u32` and wrap,
as in a release build. -/
namespace ProxyHealthCheck

structure Counters where
  consecutiveFailures : ℕ
  consecutiveSuccesses : ℕ
  deriving DecidableEq, Repr

def bump (n : ℕ) : ℕ := (n + 1) % 2 ^ 32

/-- One turn of the loop after `ping` has answered: the flag and the counters. -/
def afterPing (failThreshold recoverThreshold : ℕ) (ok : Bool) :
    Bool × Counters → Bool × Counters
  | (healthy, c) =>
    if ok then
      let c : Counters := ⟨0, bump c.consecutiveSuccesses⟩
      if !healthy && recoverThreshold ≤ c.consecutiveSuccesses then (true, c) else (healthy, c)
    else
      let c : Counters := ⟨bump c.consecutiveFailures, 0⟩
      if healthy && failThreshold ≤ c.consecutiveFailures then (false, c) else (healthy, c)

/-- The flag and the counters after a history of pings, oldest first, from a healthy flag. -/
def afterPings (failThreshold recoverThreshold : ℕ) (pings : List Bool) : Bool × Counters :=
  pings.foldl (fun st ok => afterPing failThreshold recoverThreshold ok st) (true, ⟨0, 0⟩)

theorem afterPings_snoc (failThreshold recoverThreshold : ℕ) (pings : List Bool) (ok : Bool) :
    afterPings failThreshold recoverThreshold (pings ++ [ok]) =
      afterPing failThreshold recoverThreshold ok
        (afterPings failThreshold recoverThreshold pings) := by
  simp [afterPings, List.foldl_append]

/-- A spawned loop: the upstream it polls, the flag it writes and, for the record, the
outcomes of its pings. -/
structure HealthLoop where
  upstream : String
  healthy : ℕ
  counters : Counters
  pings : List Bool
  deriving DecidableEq, Repr

def HealthLoop.watches (l : HealthLoop) : String × ℕ := (l.upstream, l.healthy)

/-- The thresholds `run_with_listener_hot` passes. -/
def failThreshold : ℕ := 3
def recoverThreshold : ℕ := 2

def HealthLoop.spawn (upstream : String) (healthy : ℕ) : HealthLoop :=
  ⟨upstream, healthy, ⟨0, 0⟩, []⟩

def HealthLoop.ping (l : HealthLoop) (flag ok : Bool) : HealthLoop × Bool :=
  let st := afterPing failThreshold recoverThreshold ok (flag, l.counters)
  ({ l with counters := st.2, pings := l.pings ++ [ok] }, st.1)

/-- Flag and counters are those of the loop's own history of pings. -/
def HealthLoop.Tracks (l : HealthLoop) (flag : Bool) : Prop :=
  (flag, l.counters) = afterPings failThreshold recoverThreshold l.pings

theorem HealthLoop.spawn_tracks (upstream : String) (healthy : ℕ) :
    (spawn upstream healthy).Tracks true := rfl

theorem HealthLoop.ping_tracks {l : HealthLoop} {flag : Bool} (ok : Bool) (h : l.Tracks flag) :
    (l.ping flag ok).1.Tracks (l.ping flag ok).2 := by
  unfold Tracks at h
  simp only [Tracks, ping, afterPings_snoc, ← h]

end ProxyHealthCheck
