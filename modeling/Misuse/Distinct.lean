/-!
# First occurrences

`distinctBy key` keeps the first of the items that share a key, in order. Every key that
occurs still occurs, and none twice (`mem_map_distinctBy`, `nodup_distinctBy`).
-/

namespace Misuse

variable {α β : Type} [DecidableEq β]

def distinctBy (key : α → β) : List α → List α
  | [] => []
  | a :: r => a :: (distinctBy key r).filter fun b => decide (key b ≠ key a)

def distinct [DecidableEq α] (s : List α) : List α := distinctBy id s

theorem distinctBy_sublist (key : α → β) (s : List α) : (distinctBy key s).Sublist s := by
  induction s with
  | nil => simp [distinctBy]
  | cons a r ih =>
    simp only [distinctBy]
    exact (List.filter_sublist.trans ih).cons_cons a

theorem mem_map_distinctBy (key : α → β) (k : β) (s : List α) :
    k ∈ (distinctBy key s).map key ↔ k ∈ s.map key := by
  induction s with
  | nil => simp [distinctBy]
  | cons a r ih =>
    simp only [distinctBy, List.map_cons, List.mem_cons]
    rw [← ih]
    simp only [List.mem_map, List.mem_filter, decide_eq_true_eq]
    constructor
    · rintro (h | ⟨b, ⟨hb, -⟩, rfl⟩)
      · exact .inl h
      · exact .inr ⟨b, hb, rfl⟩
    · rintro (h | ⟨b, hb, rfl⟩)
      · exact .inl h
      · by_cases hk : key b = key a
        · exact .inl hk
        · exact .inr ⟨b, ⟨hb, hk⟩, rfl⟩

/-- What agrees on the items of one key is not lost with their repeats. -/
theorem mem_map_distinctBy_of_congr {γ : Type} {key : α → β} {f : α → γ} {s : List α}
    (hf : ∀ a ∈ s, ∀ b ∈ s, key a = key b → f a = f b) (c : γ) :
    c ∈ (distinctBy key s).map f ↔ c ∈ s.map f := by
  constructor
  · exact fun h => ((distinctBy_sublist key s).map f).subset h
  · intro h
    obtain ⟨a, ha, rfl⟩ := List.mem_map.mp h
    have kept : key a ∈ (distinctBy key s).map key :=
      (mem_map_distinctBy key _ s).mpr (List.mem_map_of_mem ha)
    obtain ⟨b, hb, hk⟩ := List.mem_map.mp kept
    exact List.mem_map.mpr ⟨b, hb, hf b ((distinctBy_sublist key s).subset hb) a ha hk⟩

/-- One more item is kept if its key is new. -/
theorem distinctBy_concat (key : α → β) (s : List α) (a : α) :
    distinctBy key (s ++ [a]) =
      if key a ∈ s.map key then distinctBy key s else distinctBy key s ++ [a] := by
  induction s with
  | nil => rfl
  | cons b s ih =>
    simp only [List.cons_append, distinctBy, ih, List.map_cons, List.mem_cons]
    by_cases old : key a ∈ s.map key
    · rw [if_pos old, if_pos (.inr old)]
    · rw [if_neg old, List.filter_append]
      by_cases first : key a = key b
      · rw [if_pos (.inl first)]
        simp [first]
      · rw [if_neg (not_or.mpr ⟨first, old⟩)]
        simp [first]

theorem nodup_distinctBy (key : α → β) (s : List α) : ((distinctBy key s).map key).Nodup := by
  induction s with
  | nil => simp [distinctBy]
  | cons a r ih =>
    simp only [distinctBy, List.map_cons, List.nodup_cons]
    refine ⟨by simp, ih.sublist ?_⟩
    exact List.filter_sublist.map key

section Items

variable [DecidableEq α]

@[simp] theorem mem_distinct (a : α) (s : List α) : a ∈ distinct s ↔ a ∈ s := by
  have keys := mem_map_distinctBy id a s
  rwa [List.map_id, List.map_id] at keys

theorem nodup_distinct (s : List α) : (distinct s).Nodup := by
  have keys := nodup_distinctBy id s
  rwa [List.map_id] at keys

end Items

end Misuse
