import Misuse.Proofs.Places

/-!
# Repeated deliveries

A delivery that an object has taken in may come again, and nothing changes
(`receive_cons_filter`). So where deliveries to one place are the same, an object comes to hold
the same bindings from any that have the same members (`perm_receive`), and a delivery may come
before others or after them (`receive_deliveries`).
-/

namespace Misuse.Tracked

variable {o : Tracked} {d : Delivery String}

/-- A delivery to a place that is taken passes by. -/
theorem receive_filter_ne (h : o.id = d.target → o.hasPlace d.binding = true)
    (ds : List (Delivery String)) :
    o.receive (ds.filter fun e => decide (e ≠ d)) = o.receive ds := by
  induction ds generalizing o with
  | nil => rfl
  | cons e ds ih =>
    by_cases he : e = d
    · subst he
      have stays : (if o.id == e.target then o.bind e.binding else o) = o := by
        split
        next ho => rw [bind, if_pos (h (beq_iff_eq.mp ho))]
        next => rfl
      rw [List.filter_cons_of_neg (by simp), receive_cons, stays, ih h]
    · rw [List.filter_cons_of_pos (by simpa using he), receive_cons, receive_cons, ih]
      split
      · have id : (o.bind e.binding).id = o.id := by rw [bind_eq]
        exact fun ho => hasPlace_of_prefix _ (o.prefix_bind _) (h (id ▸ ho))
      · exact h

/-- A delivery that is repeated changes nothing. -/
theorem receive_cons_filter (o : Tracked) (d : Delivery String) (ds : List (Delivery String)) :
    o.receive (d :: ds.filter fun e => decide (e ≠ d)) = o.receive (d :: ds) := by
  rw [receive_cons, receive_cons]
  refine receive_filter_ne (fun ho => ?_) ds
  split
  · exact o.hasPlace_bind d.binding
  next hne =>
    rw [if_neg hne] at ho
    exact absurd (beq_iff_eq.mpr ho) hne

/-- Where deliveries to one place are the same, only which ones come matters, not how often or
in which order. -/
theorem perm_receive {ds ds' : List (Delivery String)} (placed : o.Placed)
    (coherent : ∀ d ∈ ds', ∀ e ∈ ds', d.target = e.target →
      d.binding.place = e.binding.place → d = e)
    (same : ∀ d, d ∈ ds ↔ d ∈ ds') : (o.receive ds).bindings.Perm (o.receive ds').bindings := by
  have one_way {as bs : List (Delivery String)} (sub : ∀ d ∈ as, d ∈ bs)
      (coherent : ∀ d ∈ bs, ∀ e ∈ bs, d.target = e.target →
        d.binding.place = e.binding.place → d = e) {b : Binding}
      (hb : b ∈ (o.receive as).bindings) : b ∈ (o.receive bs).bindings := by
    rcases mem_of_mem_receive b hb with held | delivered
    · exact (prefix_receive bs o).subset held
    · have taken := hasPlace_receive b (sub _ delivered)
      obtain ⟨c, hc, place⟩ := List.mem_map.mp ((hasPlace_eq_true_iff _ b).mp taken)
      rcases mem_of_mem_receive c hc with held | delivered'
      · rwa [← (placed.receive as).eq_of_place ((prefix_receive as o).subset held) hb place]
      · have : c = b :=
          congrArg Delivery.binding (coherent _ delivered' _ (sub _ delivered) rfl place)
        rwa [← this]
  have coherent' : ∀ d ∈ ds, ∀ e ∈ ds, d.target = e.target →
      d.binding.place = e.binding.place → d = e :=
    fun d hd e he => coherent d ((same d).mp hd) e ((same e).mp he)
  refine (List.perm_ext_iff_of_nodup (nodup_of_keys (placed.receive ds))
    (nodup_of_keys (placed.receive ds'))).mpr fun b => ?_
  exact ⟨one_way (fun d => (same d).mp) coherent, one_way (fun d => (same d).mpr) coherent'⟩

/-! ## A delivery before others, or after them -/

section

variable {again rest rest' : List (Delivery String)} (hagain : ∀ e ∈ again, e = d)
  (hrest : rest'.filter (fun e => decide (e ≠ d)) = rest.filter fun e => decide (e ≠ d))
include hagain hrest

/-- The same deliveries come either way. -/
theorem mem_deliveries_iff (others : List (Delivery String)) (e : Delivery String) :
    e ∈ d :: (others ++ rest) ↔ e ∈ others ++ d :: (again ++ rest') := by
  by_cases he : e = d
  · simp [he]
  · have later : e ∈ rest' ↔ e ∈ rest := by
      have := congrArg (e ∈ ·) hrest
      simpa [he] using this
    have : e ∉ again := fun h => he (hagain e h)
    simp [he, this, later]

/-- Those of some kind do the same either way, unless others of the kind come in between. -/
theorem receive_deliveries (o : Tracked) (others : List (Delivery String))
    (p : Delivery String → Bool) (apart : p d = true → others.filter p = []) :
    o.receive ((d :: (others ++ rest)).filter p) =
      o.receive ((others ++ d :: (again ++ rest')).filter p) := by
  cases hp : p d with
  | true =>
    have dropped : (again.filter p).filter (fun e => decide (e ≠ d)) = [] := by
      rw [List.filter_eq_nil_iff]
      intro e he
      simp [hagain e (List.mem_of_mem_filter he)]
    have left : (rest'.filter p).filter (fun e => decide (e ≠ d)) =
        (rest.filter p).filter fun e => decide (e ≠ d) := by
      have := congrArg (List.filter p) hrest
      simpa only [List.filter_filter, Bool.and_comm] using this
    rw [List.filter_cons_of_pos hp, List.filter_append, List.filter_append,
      List.filter_cons_of_pos hp, List.filter_append, apart hp, List.nil_append, List.nil_append,
      ← receive_cons_filter o d (again.filter p ++ rest'.filter p), List.filter_append, dropped,
      left, List.nil_append, receive_cons_filter]
  | false =>
    have other {e : Delivery String} (he : p e = true) : e ≠ d := by
      rintro rfl
      rw [hp] at he
      cases he
    have dropped : again.filter p = [] := by
      rw [List.filter_eq_nil_iff]
      exact fun e he hpe => other hpe (hagain e he)
    have kind (ds : List (Delivery String)) :
        (ds.filter fun e => decide (e ≠ d)).filter p = ds.filter p := by
      rw [List.filter_filter]
      refine List.filter_congr fun e _ => ?_
      cases hpe : p e <;> simp [other, hpe]
    have left := congrArg (List.filter p) hrest
    rw [kind, kind] at left
    rw [List.filter_cons_of_neg (by simp [hp]), List.filter_append, List.filter_append,
      List.filter_cons_of_neg (by simp [hp]), List.filter_append, dropped, left, List.nil_append]

end

end Misuse.Tracked
