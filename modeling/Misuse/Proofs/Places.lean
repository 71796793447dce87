import Mathlib.Data.List.Nodup
import Misuse.Proofs.Phases

/-!
# Places of bindings

A binding has a place: the call site, the variable and the slot. An object takes a binding
only at a free place (`Placed.bind`), so receiving deliveries keeps what is bound
(`prefix_receive`), and every place that is delivered to is taken afterwards
(`hasPlace_receive`).
-/

namespace Misuse

/-! ## Places -/

namespace Binding

/-- The question that a binding answers about its object. -/
def place (b : Binding) : String × String × Slot := (b.site, b.var, b.slot)

theorem samePlace_eq_true_iff (b c : Binding) : b.samePlace c = true ↔ b.place = c.place := by
  simp [samePlace, place, and_assoc]

end Binding

namespace Query

/-- The place that an answer to the query takes. -/
def place (q : Query) : String × String × Slot := (q.site, q.var, q.slot)

@[simp] theorem place_bind (q : Query) (values : List Value) :
    (q.bind values).place = q.place := rfl

theorem answeredBy_eq_true_iff (q : Query) (b : Binding) :
    q.answeredBy b = true ↔ b.place = q.place := by
  rw [answeredBy, Binding.samePlace_eq_true_iff, place_bind, eq_comm]

/-- An object asks at most one query for a place. -/
theorem ext_place {p q : Query} (ho : p.object = q.object) (hp : p.place = q.place) : p = q := by
  cases p
  cases q
  simp_all [place]

end Query

namespace Tracked

/-- No place is bound twice. -/
def Placed (o : Tracked) : Prop := (o.bindings.map Binding.place).Nodup

theorem hasPlace_eq_true_iff (o : Tracked) (b : Binding) :
    o.hasPlace b = true ↔ b.place ∈ o.bindings.map Binding.place := by
  simp only [hasPlace, List.any_eq_true, Binding.samePlace_eq_true_iff, List.mem_map,
    eq_comm (a := b.place)]

variable (o : Tracked) (b c : Binding)

theorem prefix_bind : o.bindings <+: (o.bind b).bindings := by
  rw [bindings_bind]
  split
  · exact List.prefix_rfl
  · exact List.prefix_append ..

theorem mem_bindings_of_bind (h : c ∈ (o.bind b).bindings) : c ∈ o.bindings ∨ c = b := by
  rw [bindings_bind] at h
  split at h
  · exact .inl h
  · rcases List.mem_append.mp h with h | h
    · exact .inl h
    · exact .inr (List.mem_singleton.mp h)

theorem hasPlace_bind : (o.bind b).hasPlace b = true := by
  rw [hasPlace_eq_true_iff, bindings_bind]
  split
  next h => exact (o.hasPlace_eq_true_iff b).mp h
  next => simp

variable {o}

theorem Placed.bind (h : o.Placed) : (o.bind b).Placed := by
  unfold Placed
  rw [bindings_bind]
  split
  next => exact h
  next hb =>
    have fresh : b.place ∉ o.bindings.map Binding.place := fun hc =>
      hb ((o.hasPlace_eq_true_iff b).mpr hc)
    rw [List.map_append, List.nodup_append]
    refine ⟨h, by simp, ?_⟩
    rintro p hp q hq rfl
    rw [List.map_singleton, List.mem_singleton] at hq
    exact fresh (hq ▸ hp)

theorem hasPlace_of_prefix {o' : Tracked} (h : o.bindings <+: o'.bindings)
    (hb : o.hasPlace b = true) : o'.hasPlace b = true := by
  rw [hasPlace_eq_true_iff] at hb ⊢
  exact List.map_subset _ h.subset hb

theorem Placed.eq_of_place {b c : Binding} (h : o.Placed) (hb : b ∈ o.bindings)
    (hc : c ∈ o.bindings) (hplace : b.place = c.place) : b = c :=
  List.inj_on_of_nodup_map h hb hc hplace

/-- In an object without repeated places, the binding at a place is the only one. -/
theorem Placed.filter_place (h : o.Placed) (hb : b ∈ o.bindings) :
    (o.bindings.filter fun c => decide (c.place = b.place)) = [b] := by
  unfold Placed at h
  generalize o.bindings = bs at h hb
  induction bs with
  | nil => cases hb
  | cons c bs ih =>
    obtain ⟨hc, hbs⟩ := List.nodup_cons.mp h
    rcases List.mem_cons.mp hb with rfl | hb
    · have rest : bs.filter (fun d => decide (d.place = b.place)) = [] := by
        rw [List.filter_eq_nil_iff]
        intro d hd
        simp only [decide_eq_true_eq]
        exact fun he => hc (List.mem_map.mpr ⟨d, hd, he⟩)
      simp [rest]
    · have hne : c.place ≠ b.place := fun he => hc (List.mem_map.mpr ⟨b, hb, he.symm⟩)
      simpa [hne] using ih hbs hb

/-! ## Receiving -/

theorem prefix_receive (ds : List (Delivery String)) (o : Tracked) :
    o.bindings <+: (o.receive ds).bindings := by
  induction ds generalizing o with
  | nil => exact List.prefix_rfl
  | cons d ds ih =>
    rw [receive_cons]
    split
    · exact (o.prefix_bind d.binding).trans (ih _)
    · exact ih o

theorem Placed.receive (ds : List (Delivery String)) (h : o.Placed) : (o.receive ds).Placed := by
  induction ds generalizing o with
  | nil => exact h
  | cons d ds ih =>
    rw [receive_cons]
    split
    · exact ih (h.bind d.binding)
    · exact ih h

/-- What is bound after a delivery was bound before, or was delivered. -/
theorem mem_of_mem_receive {ds : List (Delivery String)} (h : c ∈ (o.receive ds).bindings) :
    c ∈ o.bindings ∨ ⟨o.id, c⟩ ∈ ds := by
  induction ds generalizing o with
  | nil => exact .inl h
  | cons d ds ih =>
    rw [receive_cons] at h
    split at h
    next hd =>
      have hid : (o.bind d.binding).id = o.id := by rw [bind_eq]
      rcases ih h with hc | hc
      · rcases o.mem_bindings_of_bind d.binding c hc with hc | rfl
        · exact .inl hc
        · refine .inr (List.mem_cons.mpr (.inl ?_))
          rw [beq_iff_eq.mp hd]
      · rw [hid] at hc
        exact .inr (List.mem_cons_of_mem _ hc)
    next => exact (ih h).imp_right (List.mem_cons_of_mem _)

/-- A delivery to the object takes its place, unless it is taken. -/
theorem hasPlace_receive {ds : List (Delivery String)} (h : ⟨o.id, b⟩ ∈ ds) :
    (o.receive ds).hasPlace b = true := by
  induction ds generalizing o with
  | nil => cases h
  | cons d ds ih =>
    rw [receive_cons]
    rcases List.mem_cons.mp h with rfl | h
    · simp only [beq_self_eq_true, ↓reduceIte]
      exact hasPlace_of_prefix b (prefix_receive ds _) (o.hasPlace_bind b)
    · split
      · have hid : (o.bind d.binding).id = o.id := by rw [bind_eq]
        exact ih (hid ▸ h)
      · exact ih h

theorem receive_append (ds ds' : List (Delivery String)) :
    o.receive (ds ++ ds') = (o.receive ds).receive ds' := List.foldl_append ..

/-- What is bound depends on what was bound and on the deliveries to the object. -/
theorem bindings_receive_congr {o' : Tracked} (hid : o.id = o'.id)
    (hb : o.bindings = o'.bindings) (ds : List (Delivery String)) :
    (o.receive ds).bindings = (o'.receive ds).bindings := by
  induction ds generalizing o o' with
  | nil => exact hb
  | cons d ds ih =>
    rw [receive_cons, receive_cons, hid]
    split
    · have place : o.hasPlace d.binding = o'.hasPlace d.binding := by rw [hasPlace, hasPlace, hb]
      refine ih ?_ ?_
      · rw [o.bind_eq, o'.bind_eq]
        exact hid
      · rw [bindings_bind, bindings_bind, place, hb]
    · exact ih hid hb

/-! ## Some variables only -/

/-- The object with the bindings of some variables only. -/
def narrow (o : Tracked) (vars : List String) : Tracked :=
  { o with bindings := o.bindings.filter fun b => vars.contains b.var }

theorem narrow_bind (o : Tracked) (b : Binding) (vars : List String) :
    (o.bind b).narrow vars =
      if b.var ∈ vars then (o.narrow vars).bind b else o.narrow vars := by
  by_cases hv : b.var ∈ vars
  · -- a place that is taken is taken by a binding of the same variable
    have place : (o.narrow vars).hasPlace b = o.hasPlace b := by
      rw [hasPlace, hasPlace, narrow, List.any_filter]
      congr 1
      funext c
      cases hs : b.samePlace c with
      | false => rw [Bool.and_false]
      | true =>
        have var : b.var = c.var :=
          congrArg (fun p => p.2.1) ((b.samePlace_eq_true_iff c).mp hs)
        rw [List.contains_iff_mem.mpr (var ▸ hv), Bool.and_true]
    rw [if_pos hv, bind, bind, place]
    split
    · rfl
    · simp [narrow, List.filter_append, hv]
  · rw [if_neg hv, bind]
    split
    · rfl
    · simp [narrow, List.filter_append, hv]

/-- Deliveries for other variables pass by. -/
theorem narrow_receive (ds : List (Delivery String)) (o : Tracked) (vars : List String) :
    (o.receive ds).narrow vars =
      (o.narrow vars).receive (ds.filter fun d => vars.contains d.binding.var) := by
  induction ds generalizing o with
  | nil => rfl
  | cons d ds ih =>
    have id : (o.narrow vars).id = o.id := rfl
    rw [receive_cons, ih]
    by_cases hv : d.binding.var ∈ vars
    · have read : vars.contains d.binding.var = true := List.contains_iff_mem.mpr hv
      simp only [List.filter_cons, read, ↓reduceIte, receive_cons, id]
      split
      · rw [narrow_bind, if_pos hv]
      · rfl
    · have unread : vars.contains d.binding.var = false := by simpa using hv
      simp only [List.filter_cons, unread, Bool.false_eq_true, ↓reduceIte]
      split
      · rw [narrow_bind, if_neg hv]
      · rfl

/-- What is bound to some variables depends on the deliveries to the object for them. -/
theorem filter_receive (ds : List (Delivery String)) (o : Tracked) (vars : List String) :
    (o.receive ds).bindings.filter (fun b => vars.contains b.var) =
      ((o.narrow vars).receive (ds.filter fun d =>
        decide (d.target = o.id) && vars.contains d.binding.var)).bindings := by
  have narrowed : ((o.receive ds).narrow vars).bindings = _ :=
    congrArg bindings (narrow_receive ds o vars)
  rw [← receive_filter _ (o.narrow vars), List.filter_filter] at narrowed
  exact narrowed

end Tracked

end Misuse
