import Mathlib.Data.List.Nodup

/-! # First match by prefix

Items with a key, looked up by the first whose key is a prefix of the input. Keys that are
prefixes of one input are prefixes of one another, so which item is first can only matter
between comparable keys. -/
namespace PrefixMatch

variable {α β : Type*} {key : β → List α} {items before after : List β} {input : List α} {x y : β}

theorem length_lt (hx : key x <+: input) (hy : key y <+: input) (h : ¬ key x <+: key y) :
    (key y).length < (key x).length := by
  rcases List.prefix_or_prefix_of_prefix hx hy with hp | hp
  · exact absurd hp h
  · refine Nat.lt_of_le_of_ne hp.length_le ?_
    intro heq
    exact h (hp.eq_of_length heq ▸ List.prefix_refl _)

variable [DecidableEq α]

def firstMatch (key : β → List α) (items : List β) (input : List α) : Option β :=
  items.find? fun x => decide (key x <+: input)

theorem firstMatch_iff : firstMatch key items input = some x ↔
    ∃ before after, items = before ++ x :: after ∧ key x <+: input ∧
      ∀ y ∈ before, ¬ key y <+: input := by
  simp only [firstMatch, List.find?_eq_some_iff_append, decide_eq_true_eq, Bool.not_eq_true',
    decide_eq_false_iff_not]
  constructor
  · rintro ⟨hp, before, after, heq, hall⟩
    exact ⟨before, after, heq, hp, hall⟩
  · rintro ⟨before, after, heq, hp, hall⟩
    exact ⟨hp, before, after, heq, hall⟩

/-- An item is found on some input exactly when no key before it is a prefix of its own; it is
then found on its own key. -/
theorem live_iff (hn : (items.map key).Nodup) (hs : items = before ++ x :: after) :
    (∃ input, firstMatch key items input = some x) ↔ ∀ y ∈ before, ¬ key y <+: key x := by
  constructor
  · rintro ⟨input, h⟩ y hy hyx
    obtain ⟨_, _, _, hx, _⟩ := firstMatch_iff.mp h
    rw [firstMatch, hs, List.find?_append] at h
    cases hb : before.find? fun x => decide (key x <+: input) with
    | none =>
      have hno := List.find?_eq_none.mp hb y hy
      exact hno (decide_eq_true (hyx.trans hx))
    | some z =>
      rw [hb, Option.some_or] at h
      obtain rfl := Option.some.inj h
      have hz : z ∈ before := List.mem_of_find?_eq_some hb
      rw [hs, List.map_append, List.map_cons] at hn
      exact List.disjoint_of_nodup_append hn (List.mem_map_of_mem hz) (List.mem_cons_self ..)
  · intro h
    exact ⟨key x, firstMatch_iff.mpr ⟨before, after, hs, List.prefix_refl _, h⟩⟩

theorem longest_of_firstMatch (h : items.Pairwise fun x y => ¬ key x <+: key y)
    (hf : firstMatch key items input = some x) {y : β} (hy : y ∈ items) (hp : key y <+: input)
    (hne : y ≠ x) : (key y).length < (key x).length := by
  obtain ⟨before, after, rfl, hx, hno⟩ := firstMatch_iff.mp hf
  rcases List.mem_append.mp hy with hy | hy
  · exact absurd hp (hno y hy)
  · have hafter := (List.pairwise_cons.mp (List.pairwise_append.mp h).2.1).1
    exact length_lt hx hp (hafter y (List.mem_of_ne_of_mem hne hy))

theorem longest_iff (h : items.Pairwise fun x y => ¬ key x <+: key y) :
    firstMatch key items input = some x ↔ x ∈ items ∧ key x <+: input ∧
      ∀ y ∈ items, key y <+: input → y ≠ x → (key y).length < (key x).length := by
  constructor
  · intro hf
    obtain ⟨before, after, hs, hx, _⟩ := firstMatch_iff.mp hf
    exact ⟨by simp [hs], hx, fun y hy hp hne => longest_of_firstMatch h hf hy hp hne⟩
  · rintro ⟨hmem, hx, hall⟩
    cases hf : firstMatch key items input with
    | none =>
      have hno := List.find?_eq_none.mp hf x hmem
      exact absurd (decide_eq_true hx) hno
    | some z =>
      by_contra hne
      have hxz : x ≠ z := fun heq => hne (congrArg some heq.symm)
      obtain ⟨before, after, hs, hz, _⟩ := firstMatch_iff.mp hf
      have hlt := longest_of_firstMatch h hf hmem hx hxz
      have hgt := hall z (by simp [hs]) hz hxz.symm
      omega

theorem firstMatch_swap (hxy : ¬ key x <+: key y) (hyx : ¬ key y <+: key x) :
    firstMatch key (before ++ x :: y :: after) input =
      firstMatch key (before ++ y :: x :: after) input := by
  have hone : ¬ (key x <+: input ∧ key y <+: input) := by
    rintro ⟨hx, hy⟩
    rcases List.prefix_or_prefix_of_prefix hx hy with hp | hp
    · exact hxy hp
    · exact hyx hp
  simp only [firstMatch, List.find?_append, List.find?_cons]
  by_cases hx : key x <+: input
  · have hy : ¬ key y <+: input := fun hy => hone ⟨hx, hy⟩
    simp [hx, hy]
  · simp [hx]

end PrefixMatch
