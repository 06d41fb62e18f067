import Mathlib.Data.List.Induction

/-! # Runs of labelled machines

A machine is a partial function `next` from a state and an event to a state: an event it
refuses is not enabled. Every choice of an environment or a scheduler is in the event, so
an interleaving is a list of events. Traces record each event with the state it was taken in. -/
namespace TransitionRuns

variable {σ ε τ α : Type*} {next : σ → ε → Option σ}

inductive Run (next : σ → ε → Option σ) (s : σ) : List (σ × ε) → σ → Prop where
  | nil : Run next s [] s
  | snoc {tr t e u} : Run next s tr t → next t e = some u → Run next s (tr ++ [(t, e)]) u

/-- Every step of the trace was taken in a state and with an event that satisfy `C`. -/
def Obeys (C : σ → ε → Prop) (tr : List (σ × ε)) : Prop := ∀ p ∈ tr, C p.1 p.2

/-- `P` holds in every state a run visits, its last one included. -/
def Always (P : σ → Prop) (tr : List (σ × ε)) (u : σ) : Prop := (∀ p ∈ tr, P p.1) ∧ P u

@[simp] theorem obeys_nil (C : σ → ε → Prop) : Obeys C [] := by simp [Obeys]

@[simp] theorem obeys_append {C : σ → ε → Prop} {a b : List (σ × ε)} :
    Obeys C (a ++ b) ↔ Obeys C a ∧ Obeys C b := by
  simp only [Obeys, List.mem_append]
  exact ⟨fun h => ⟨fun p hp => h p (.inl hp), fun p hp => h p (.inr hp)⟩,
    fun h p hp => hp.elim (h.1 p) (h.2 p)⟩

@[simp] theorem obeys_cons {C : σ → ε → Prop} {p : σ × ε} {tr : List (σ × ε)} :
    Obeys C (p :: tr) ↔ C p.1 p.2 ∧ Obeys C tr := by
  simp [Obeys]

theorem Obeys.imp {C D : σ → ε → Prop} {tr : List (σ × ε)} (h : Obeys C tr)
    (k : ∀ s e, C s e → D s e) : Obeys D tr := fun p hp => k _ _ (h p hp)

theorem Obeys.and {C D : σ → ε → Prop} {tr : List (σ × ε)} (h : Obeys C tr)
    (k : Obeys D tr) : Obeys (fun s e => C s e ∧ D s e) tr := fun p hp => ⟨h p hp, k p hp⟩

theorem Run.eq_of_nil {s u : σ} (h : Run next s [] u) : u = s := by
  generalize hz : ([] : List (σ × ε)) = tr at h
  cases h with
  | nil => rfl
  | snoc => simp at hz

theorem Run.trans {s t u : σ} {a b : List (σ × ε)} (h : Run next s a t)
    (k : Run next t b u) : Run next s (a ++ b) u := by
  induction k with
  | nil => simpa using h
  | snoc _ hn ih => rw [← List.append_assoc]; exact .snoc ih hn

theorem Run.single {s u : σ} {e : ε} (h : next s e = some u) : Run next s [(s, e)] u :=
  Run.snoc (.nil) h

theorem Run.cons {s t u : σ} {e : ε} {tr : List (σ × ε)} (h : next s e = some t)
    (k : Run next t tr u) : Run next s ((s, e) :: tr) u := (Run.single h).trans k

theorem Run.split {s u : σ} {b : List (σ × ε)} : ∀ {a : List (σ × ε)},
    Run next s (a ++ b) u → ∃ t, Run next s a t ∧ Run next t b u := by
  induction b using List.reverseRecOn generalizing u with
  | nil => intro a h; exact ⟨u, by simpa using h, .nil⟩
  | append_singleton b p ih =>
    intro a h
    rw [← List.append_assoc] at h
    generalize ha : a ++ b ++ [p] = tr at h
    cases h with
    | nil => simp at ha
    | snoc hr hn =>
      obtain ⟨htr, hp⟩ := List.append_inj' ha rfl
      obtain rfl := List.singleton_inj.mp hp
      rw [← htr] at hr
      obtain ⟨t, hat, htb⟩ := ih hr
      exact ⟨t, hat, .snoc htb hn⟩

theorem Run.head {s u : σ} {p : σ × ε} {tr : List (σ × ε)} (h : Run next s (p :: tr) u) :
    p.1 = s ∧ ∃ t, next s p.2 = some t ∧ Run next t tr u := by
  obtain ⟨t, hp, htr⟩ := Run.split (a := [p]) h
  generalize ha : [p] = one at hp
  cases hp with
  | nil => simp at ha
  | @snoc pre v e _ hv hn =>
    obtain ⟨hnil, hpe⟩ := List.append_inj' (show [] ++ [p] = pre ++ [(v, e)] from ha) rfl
    obtain rfl := List.singleton_inj.mp hpe
    rw [← hnil] at hv
    obtain rfl := hv.eq_of_nil
    exact ⟨rfl, t, hn, htr⟩

theorem Run.cut {s u : σ} {p : σ × ε} {a b : List (σ × ε)} (h : Run next s (a ++ p :: b) u) :
    Run next s a p.1 ∧ ∃ t, next p.1 p.2 = some t ∧ Run next t b u := by
  obtain ⟨v, ha, hb⟩ := h.split
  obtain ⟨rfl, t, hn, hrest⟩ := hb.head
  exact ⟨ha, t, hn, hrest⟩

theorem Run.invariant_of {I : σ → Prop} {C : σ → ε → Prop} {s u : σ} {tr : List (σ × ε)}
    (step : ∀ t e v, I t → C t e → next t e = some v → I v) (h : Run next s tr u)
    (hs : I s) (hc : Obeys C tr) : I u := by
  induction h with
  | nil => exact hs
  | snoc _ hn ih =>
    obtain ⟨hpre, hlast⟩ := obeys_append.mp hc
    exact step _ _ _ (ih hpre) (by simpa using hlast) hn

theorem Run.invariant {I : σ → Prop} {s u : σ} {tr : List (σ × ε)}
    (step : ∀ t e v, I t → next t e = some v → I v) (h : Run next s tr u) (hs : I s) : I u :=
  h.invariant_of (C := fun _ _ => True) (fun t e v ht _ hn => step t e v ht hn) hs
    (fun _ _ => trivial)

theorem Run.traced {I : List (σ × ε) → σ → Prop} {C : σ → ε → Prop} {s u : σ}
    {tr : List (σ × ε)} (h : Run next s tr u) (hs : I [] s)
    (step : ∀ tr t e v, Run next s tr t → Obeys C tr → I tr t → C t e → next t e = some v →
      I (tr ++ [(t, e)]) v)
    (hc : Obeys C tr) : I tr u := by
  induction h with
  | nil => exact hs
  | snoc hr hn ih =>
    obtain ⟨hpre, hlast⟩ := obeys_append.mp hc
    exact step _ _ _ _ hr hpre (ih hpre) (by simpa using hlast) hn

theorem Run.traced_invariant {I : List (σ × ε) → σ → Prop} {s u : σ} {tr : List (σ × ε)}
    (h : Run next s tr u) (hs : I [] s)
    (step : ∀ tr t e v, I tr t → next t e = some v → I (tr ++ [(t, e)]) v) : I tr u :=
  h.traced (C := fun _ _ => True) hs (fun tr t e v _ _ ht _ hn => step tr t e v ht hn)
    (fun _ _ => trivial)

theorem Run.invariant_mem {I : σ → Prop} {s u : σ} {tr : List (σ × ε)}
    (step : ∀ t e v, I t → next t e = some v → I v) (h : Run next s tr u) (hs : I s) :
    ∀ p ∈ tr, I p.1 := by
  induction h with
  | nil => simp
  | snoc hr _ ih =>
    intro p hp
    rcases List.mem_append.mp hp with hp | hp
    · exact ih p hp
    · rw [List.mem_singleton.mp hp]
      exact hr.invariant step hs

theorem always_snoc {P : σ → Prop} {t u : σ} {e : ε} {tr : List (σ × ε)} :
    Always P (tr ++ [(t, e)]) u ↔ Always P tr t ∧ P u := by
  simp only [Always, List.mem_append, List.mem_singleton]
  constructor
  · rintro ⟨hall, hu⟩
    exact ⟨⟨fun p hp => hall p (.inl hp), hall (t, e) (.inr rfl)⟩, hu⟩
  · rintro ⟨⟨hall, ht⟩, hu⟩
    exact ⟨fun p hp => hp.elim (hall p) (by rintro rfl; exact ht), hu⟩

/-- A property of histories, once broken, stays broken. If a step keeps it exactly when
the step satisfies `C`, it holds after a run exactly when every step of the run did. -/
theorem Run.iff_obeys {I P : σ → Prop} {C : σ → ε → Prop} {s u : σ} {tr : List (σ × ε)}
    (inv : ∀ t e v, I t → next t e = some v → I v)
    (step : ∀ t e v, I t → next t e = some v → (P v ↔ P t ∧ C t e))
    (h : Run next s tr u) (hi : I s) (hp : P s) : P u ↔ Obeys C tr := by
  induction h with
  | nil => simpa using hp
  | snoc hr hn ih =>
    rw [step _ _ _ (hr.invariant inv hi) hn, ih]
    simp

/-- The same for a property of states and one of steps: they hold throughout a run exactly when
every step taken where the first holds satisfies the condition under which it keeps both. -/
theorem Run.always_obeys_iff {I P : σ → Prop} {C D E : σ → ε → Prop} {s u : σ}
    {tr : List (σ × ε)} (inv : ∀ t e v, I t → E t e → next t e = some v → I v)
    (step : ∀ t e v, I t → P t → next t e = some v → (P v ∧ D t e ↔ C t e))
    (h : Run next s tr u) (hi : I s) (hp : P s) (he : Obeys E tr) :
    Always P tr u ∧ Obeys D tr ↔ Obeys C tr := by
  induction h with
  | nil => simpa [Always] using hp
  | @snoc tr t e v hr hn ih =>
    have hpre := (obeys_append.mp he).1
    have ht := hr.invariant_of inv hi hpre
    simp only [always_snoc, obeys_append, ← ih hpre, obeys_cons, obeys_nil, and_true]
    constructor
    · rintro ⟨⟨ha, hv⟩, hd, hlast⟩
      exact ⟨⟨ha, hd⟩, (step t e v ht ha.2 hn).mp ⟨hv, hlast⟩⟩
    · rintro ⟨⟨ha, hd⟩, hc⟩
      obtain ⟨hv, hlast⟩ := (step t e v ht ha.2 hn).mpr hc
      exact ⟨⟨ha, hv⟩, hd, hlast⟩

theorem Run.always_iff {I P : σ → Prop} {C : σ → ε → Prop} {s u : σ} {tr : List (σ × ε)}
    (inv : ∀ t e v, I t → next t e = some v → I v)
    (step : ∀ t e v, I t → P t → next t e = some v → (P v ↔ C t e))
    (h : Run next s tr u) (hi : I s) (hp : P s) : Always P tr u ↔ Obeys C tr := by
  have hall : ∀ {D : σ → ε → Prop}, (∀ t e, D t e) → Obeys D tr := fun hd p _ => hd p.1 p.2
  have hboth := h.always_obeys_iff (D := fun _ _ => True) (E := fun _ _ => True)
    (fun t e v ht _ hn => inv t e v ht hn)
    (fun t e v ht hpt hn => by simpa using step t e v ht hpt hn) hi hp (hall fun _ _ => trivial)
  exact ⟨fun ha => hboth.mp ⟨ha, hall fun _ _ => trivial⟩, fun hc => (hboth.mpr hc).1⟩

theorem Run.always_of {I P : σ → Prop} {C : σ → ε → Prop} {s u : σ} {tr : List (σ × ε)}
    (step : ∀ t e v, I t → C t e → next t e = some v → I v) (imp : ∀ t, I t → P t)
    (h : Run next s tr u) (hs : I s) (hc : Obeys C tr) : Always P tr u := by
  induction h with
  | nil => exact ⟨by simp, imp _ hs⟩
  | snoc hr hn ih =>
    have hlast := (hr.snoc hn).invariant_of step hs hc
    exact always_snoc.mpr ⟨ih (obeys_append.mp hc).1, imp _ hlast⟩

theorem Run.obeys_of_always {P : σ → Prop} {C : σ → ε → Prop} {s u : σ} {tr : List (σ × ε)}
    (step : ∀ t e v, P t → P v → next t e = some v → C t e) (h : Run next s tr u)
    (ha : Always P tr u) : Obeys C tr := by
  induction h with
  | nil => exact obeys_nil C
  | snoc hr hn ih =>
    obtain ⟨hpre, hv⟩ := always_snoc.mp ha
    refine obeys_append.mpr ⟨ih hpre, ?_⟩
    simpa using step _ _ _ hpre.2 hv hn

theorem reaches_of_rank {I G : σ → Prop} {C : σ → ε → Prop} (rank : σ → ℕ)
    (step : ∀ s, I s → ¬ G s → ∃ e t, next s e = some t ∧ C s e ∧ I t ∧ rank t < rank s) {s : σ}
    (hs : I s) : ∃ tr u, Run next s tr u ∧ Obeys C tr ∧ I u ∧ G u := by
  induction hr : rank s using Nat.strongRecOn generalizing s with
  | ind n ih =>
    by_cases hg : G s
    · exact ⟨[], s, .nil, obeys_nil C, hs, hg⟩
    · obtain ⟨e, t, hn, hc, ht, hlt⟩ := step s hs hg
      obtain ⟨tr, u, hrun, hobeys, hu, hgoal⟩ := ih (rank t) (hr ▸ hlt) ht rfl
      exact ⟨(s, e) :: tr, u, .cons hn hrun, obeys_cons.mpr ⟨hc, hobeys⟩, hu, hgoal⟩

/-- The events of a kind, paid for out of what is `left` as long as each step pays for itself;
what a step may be granted is `allowed` from then on. -/
theorem Run.countP_le {I : σ → Prop} (p : ε → Bool) (left allowed : σ → ℕ) {s u : σ}
    {tr : List (σ × ε)} (h : Run next s tr u) (hs : I s)
    (step : ∀ t e v, I t → next t e = some v → I v ∧
      (if p e then 1 else 0) + left v + allowed t ≤ left t + allowed v) :
    tr.countP (fun q => p q.2) + left u + allowed s ≤ left s + allowed u := by
  suffices hboth : I u ∧ tr.countP (fun q => p q.2) + left u + allowed s ≤ left s + allowed u from
    hboth.2
  induction h with
  | nil => exact ⟨hs, by simp⟩
  | snoc _ hn ih =>
    obtain ⟨hi, hle⟩ := ih
    obtain ⟨hv, hpaid⟩ := step _ _ _ hi hn
    refine ⟨hv, ?_⟩
    simp only [List.countP_append, List.countP_singleton]
    omega

def Endless (next : σ → ε → Option σ) (s : σ) : Prop :=
  ∃ f : ℕ → σ, f 0 = s ∧ ∀ k, ∃ e, next (f k) e = some (f (k + 1))

theorem Endless.cons {s t : σ} {e : ε} (h : next s e = some t) (k : Endless next t) :
    Endless next s := by
  obtain ⟨f, rfl, hf⟩ := k
  refine ⟨fun n => n.casesOn s f, rfl, ?_⟩
  intro n
  cases n with
  | zero => exact ⟨e, h⟩
  | succ n => exact hf n

theorem Run.endless {s t : σ} {tr : List (σ × ε)} (h : Run next s tr t) (k : Endless next t) :
    Endless next s := by
  induction h with
  | nil => exact k
  | snoc _ hn ih => exact ih (k.cons hn)

theorem endless_of_progress {I : σ → Prop}
    (step : ∀ s, I s → ∃ e t, next s e = some t ∧ I t) {s : σ} (hs : I s) : Endless next s := by
  choose e t hn ht using step
  let f : ℕ → {s // I s} := fun n => n.rec ⟨s, hs⟩ fun _ s => ⟨t s.1 s.2, ht s.1 s.2⟩
  exact ⟨fun n => (f n).1, rfl, fun n => ⟨e _ (f n).2, hn _ (f n).2⟩⟩

theorem not_endless_of_rank {I : σ → Prop} {r : τ → τ → Prop} (wf : WellFounded r) (rank : σ → τ)
    (step : ∀ s e t, I s → next s e = some t → I t ∧ r (rank t) (rank s)) {s : σ} (hs : I s) :
    ¬ Endless next s := by
  rintro ⟨f, rfl, hf⟩
  have hinv : ∀ k, I (f k) := by
    intro k
    induction k with
    | zero => exact hs
    | succ k ih =>
      obtain ⟨e, he⟩ := hf k
      exact (step _ e _ ih he).1
  suffices hnone : ∀ x k, rank (f k) = x → False from hnone _ 0 rfl
  intro x
  induction x using wf.induction with
  | h x ih =>
    rintro k rfl
    obtain ⟨e, he⟩ := hf k
    exact ih _ (step _ e _ (hinv k) he).2 (k + 1) rfl

def exec (next : σ → ε → Option σ) : σ → List ε → Option σ
  | s, [] => some s
  | s, e :: es => (next s e).bind fun t => exec next t es

def traceOf (next : σ → ε → Option σ) : σ → List ε → List (σ × ε)
  | _, [] => []
  | s, e :: es => (s, e) :: ((next s e).elim [] fun t => traceOf next t es)

theorem run_of_exec {s u : σ} {es : List ε} (h : exec next s es = some u) :
    Run next s (traceOf next s es) u := by
  induction es generalizing s with
  | nil => obtain rfl := Option.some.inj h; exact .nil
  | cons e es ih =>
    obtain ⟨t, ht, hu⟩ := Option.bind_eq_some_iff.mp h
    simp only [traceOf, ht]
    exact .cons ht (ih hu)

theorem exec_append (s : σ) (es fs : List ε) :
    exec next s (es ++ fs) = (exec next s es).bind fun t => exec next t fs := by
  induction es generalizing s with
  | nil => rfl
  | cons e es ih => simp only [List.cons_append, exec, ih, Option.bind_assoc]

theorem Run.exec_eq {s u : σ} {tr : List (σ × ε)} (h : Run next s tr u) :
    exec next s (tr.map Prod.snd) = some u := by
  induction h with
  | nil => rfl
  | snoc _ hn ih =>
    rw [List.map_append, exec_append, ih]
    simp [exec, hn]

theorem run_of_view {β : Type*} (next : σ → ε → Option σ) (s : σ) (es : List ε) (view : σ → β)
    (b : β) (h : (exec next s es).map view = some b) :
    ∃ u, Run next s (traceOf next s es) u ∧ view u = b := by
  obtain ⟨u, hu, hb⟩ := Option.map_eq_some_iff.mp h
  exact ⟨u, run_of_exec hu, hb⟩

theorem obeys_of_all {C : σ → ε → Prop} [∀ s e, Decidable (C s e)] {tr : List (σ × ε)}
    (h : (tr.all fun p => decide (C p.1 p.2)) = true) : Obeys C tr := by
  intro p hp
  simpa using List.all_eq_true.mp h p hp

/-- Through a view of its states, a machine simulates another on the steps that satisfy `ok`:
each such step is, in the view, a step of the other machine or no change at all. -/
structure Simulation (next : σ → ε → Option σ) (abstract : τ → α → Option τ) where
  ok : σ → ε → Prop
  inv : σ → Prop
  view : σ → τ
  label : σ → ε → Option α
  keeps : ∀ s e t, inv s → ok s e → next s e = some t → inv t
  idle : ∀ s e t, inv s → ok s e → next s e = some t → label s e = none → view t = view s
  move : ∀ s e t a, inv s → ok s e → next s e = some t → label s e = some a →
    abstract (view s) a = some (view t)

variable {abstract : τ → α → Option τ}

/-- The abstract trace: the visible steps, each in the view of the state it was taken in. -/
def Simulation.trace (S : Simulation next abstract) (tr : List (σ × ε)) : List (τ × α) :=
  tr.filterMap fun p => (S.label p.1 p.2).map fun a => (S.view p.1, a)

theorem Simulation.run (S : Simulation next abstract) {s u : σ} {tr : List (σ × ε)}
    (h : Run next s tr u) (hi : S.inv s) (hok : Obeys S.ok tr) :
    Run abstract (S.view s) (S.trace tr) (S.view u) := by
  induction h with
  | nil => exact .nil
  | @snoc tr t e v hr hn ih =>
    obtain ⟨hpre, hlast⟩ := obeys_append.mp hok
    have hlast : S.ok t e := by simpa using hlast
    have ht : S.inv t := hr.invariant_of S.keeps hi hpre
    simp only [trace, List.filterMap_append]
    cases hl : S.label t e with
    | none =>
      rw [S.idle t e v ht hlast hn hl]
      simpa [hl, trace] using ih hpre
    | some a => simpa [hl, trace] using (ih hpre).snoc (S.move t e v a ht hlast hn hl)

theorem Simulation.obeys_trace (S : Simulation next abstract) {C : τ → α → Prop}
    {tr : List (σ × ε)} :
    Obeys C (S.trace tr) ↔ Obeys (fun s e => ∀ a, S.label s e = some a → C (S.view s) a) tr := by
  simp only [Obeys, trace, List.mem_filterMap, Option.map_eq_some_iff]
  constructor
  · intro h p hp a ha
    exact h (S.view p.1, a) ⟨p, hp, a, ha, rfl⟩
  · rintro h _ ⟨p, hp, a, ha, rfl⟩
    exact h p hp a ha

end TransitionRuns
