import Mathlib.Data.List.Nodup
import Misuse.Distinct

/-!
# Lists told apart by keys

In a table whose keys are not repeated, looking up a key finds its only entry
(`find?_key_eq_some_iff`). A list may be put together from one block for each of several
owners, where every item knows its owner: filtering by an owner gives its block back
(`filter_flatMap_owner`), and first occurrences are found block by block
(`mem_distinctBy_flatMap`).
-/

namespace Misuse

variable {α β κ ι : Type} [DecidableEq κ] [DecidableEq ι]

omit [DecidableEq κ] in
theorem nodup_of_keys {key : β → κ} {s : List β} (h : (s.map key).Nodup) : s.Nodup :=
  List.Pairwise.of_map key (fun _ _ hne he => hne (congrArg key he)) h

omit [DecidableEq κ] in
/-- Lists with the same keys make the same of them if items of one key do. -/
theorem flatMap_congr_of_map {γ : Type} {key : α → κ} {key' : β → κ} {s : List α} {t : List β}
    {f : α → List γ} {g : β → List γ} (h : s.map key = t.map key')
    (hf : ∀ a ∈ s, ∀ b ∈ t, key a = key' b → f a = g b) : s.flatMap f = t.flatMap g := by
  induction s generalizing t with
  | nil =>
    rw [List.map_nil, eq_comm, List.map_eq_nil_iff] at h
    rw [h]
    rfl
  | cons a s ih =>
    cases t with
    | nil => cases h
    | cons b t =>
      obtain ⟨hkey, hrest⟩ := List.cons.inj h
      rw [List.flatMap_cons, List.flatMap_cons,
        hf a (List.mem_cons_self ..) b (List.mem_cons_self ..) hkey, ih hrest fun a ha b hb =>
          hf a (List.mem_cons_of_mem _ ha) b (List.mem_cons_of_mem _ hb)]

/-- In a table without repeated keys, looking up a key finds its only entry. -/
theorem find?_key_eq_some_iff {γ δ : Type} [BEq γ] [LawfulBEq γ] {l : List (γ × δ)}
    (h : (l.map Prod.fst).Nodup) (k : γ) (v : δ) :
    (l.find? fun e => e.1 == k).map Prod.snd = some v ↔ (k, v) ∈ l := by
  induction l with
  | nil => simp
  | cons e r ih =>
    obtain ⟨hne, keys⟩ := List.nodup_cons.mp h
    by_cases he : e.1 = k
    · have hr : (k, v) ∉ r := fun hm => hne (List.mem_map.mpr ⟨_, hm, he.symm⟩)
      simp [he, hr, Prod.ext_iff, eq_comm]
    · have hn : (k, v) ≠ e := fun hm => he (by rw [← hm])
      rw [List.find?_cons_of_neg (by simpa using he), ih keys, List.mem_cons]
      simp [hn]

/-- The first item with each key is kept. -/
theorem mem_distinctBy_iff (key : β → κ) (s : List β) (b : β) :
    b ∈ distinctBy key s ↔ s.find? (fun c => decide (key c = key b)) = some b := by
  induction s with
  | nil => simp [distinctBy]
  | cons c s ih =>
    rw [distinctBy, List.mem_cons, List.mem_filter, ih, decide_eq_true_iff]
    by_cases hk : key c = key b
    · simp [hk, eq_comm]
    · have hne : b ≠ c := fun h => hk (congrArg key h.symm)
      simp [hk, Ne.symm hk, hne]

/-- A test that depends on the key only may be made before or after repeats are dropped. -/
theorem filter_distinctBy {key : β → κ} {p : β → Bool} (hp : ∀ v w, key v = key w → p v = p w)
    (s : List β) : (distinctBy key s).filter p = distinctBy key (s.filter p) := by
  induction s with
  | nil => rfl
  | cons v s ih =>
    cases hv : p v with
    | true =>
      simp only [distinctBy, List.filter_cons, hv, ↓reduceIte, ← ih, List.filter_filter,
        Bool.and_comm]
    | false =>
      have drop : ∀ w ∈ distinctBy key s, (p w && decide (key w ≠ key v)) = p w := by
        intro w _
        by_cases hk : key w = key v
        · simp [hp w v hk, hv]
        · simp [hk]
      simp only [distinctBy, List.filter_cons, hv, Bool.false_eq_true, ↓reduceIte, ← ih,
        List.filter_filter]
      exact List.filter_congr drop

/-- An item can be searched for among those with its key. -/
theorem filter_filter_key (key : β → κ) [DecidableEq β] (s : List β) (v : β) :
    (s.filter fun w => decide (key w = key v)).filter (fun w => decide (w = v)) =
      s.filter fun w => decide (w = v) := by
  rw [List.filter_filter]
  refine List.filter_congr fun w _ => ?_
  by_cases h : w = v <;> simp [h]

/-- Items may be told apart before or after they are mapped. -/
theorem distinctBy_map (key : β → κ) (f : α → β) (s : List α) :
    distinctBy key (s.map f) = (distinctBy (fun a => key (f a)) s).map f := by
  induction s with
  | nil => rfl
  | cons a s ih => simp [distinctBy, ih, List.filter_map, Function.comp_def]

/-- Keys that tell the same items apart keep the same items. -/
theorem distinctBy_congr {key : β → κ} {key' : β → ι}
    (h : ∀ a b, key a = key b ↔ key' a = key' b) (s : List β) :
    distinctBy key s = distinctBy key' s := by
  induction s with
  | nil => rfl
  | cons a s ih => simp only [distinctBy, ih, ne_eq, h]

/-- Of every item one is kept that `f` does not tell from it, exactly if `f` tells no two items of
one key apart. -/
theorem forall_exists_mem_distinctBy_iff {γ : Type} (key : β → κ) (f : β → γ) (s : List β) :
    (∀ a ∈ s, ∃ b ∈ distinctBy key s, key b = key a ∧ f b = f a) ↔
      ∀ a ∈ s, ∀ b ∈ s, key a = key b → f a = f b := by
  constructor
  · intro kept a ha b hb hk
    obtain ⟨a', ha', hka, hfa⟩ := kept a ha
    obtain ⟨b', hb', hkb, hfb⟩ := kept b hb
    have once : a' = b' := List.inj_on_of_nodup_map (nodup_distinctBy key s) ha' hb'
      (hka.trans (hk.trans hkb.symm))
    rw [← hfa, ← hfb, once]
  · intro agree a ha
    have hk : key a ∈ (distinctBy key s).map key :=
      (mem_map_distinctBy key (key a) s).mpr (List.mem_map_of_mem ha)
    obtain ⟨b, hb, hkb⟩ := List.mem_map.mp hk
    exact ⟨b, hb, hkb, agree b ((distinctBy_sublist key s).subset hb) a ha hkb⟩

variable {f : α → List β} {owner : β → ι} {id : α → ι} {s : List α}

/-- Every item of a block names the owner of the block. -/
def Owned (f : α → List β) (owner : β → ι) (id : α → ι) : Prop :=
  ∀ a, ∀ v ∈ f a, owner v = id a

theorem filter_flatMap_eq_nil (h : Owned f owner id) {i : ι} (hi : i ∉ s.map id) :
    (s.flatMap f).filter (fun v => decide (owner v = i)) = [] := by
  rw [List.filter_eq_nil_iff]
  intro v hv
  obtain ⟨a, ha, hv⟩ := List.mem_flatMap.mp hv
  simp only [decide_eq_true_eq]
  exact fun hc => hi (List.mem_map.mpr ⟨a, ha, (h a v hv).symm.trans hc⟩)

theorem filter_block_eq_self (h : Owned f owner id) (a : α) :
    (f a).filter (fun v => decide (owner v = id a)) = f a :=
  List.filter_eq_self.mpr fun v hv => decide_eq_true (h a v hv)

theorem filter_block_eq_nil (h : Owned f owner id) {a : α} {i : ι} (hi : id a ≠ i) :
    (f a).filter (fun v => decide (owner v = i)) = [] := by
  rw [List.filter_eq_nil_iff]
  intro v hv
  simp only [decide_eq_true_eq]
  exact fun hc => hi ((h a v hv).symm.trans hc)

/-- What belongs to an owner comes from the blocks of this owner. -/
theorem filter_flatMap (h : Owned f owner id) (i : ι) :
    (s.flatMap f).filter (fun v => decide (owner v = i)) =
      (s.filter fun a => decide (id a = i)).flatMap f := by
  induction s with
  | nil => rfl
  | cons a s ih =>
    rw [List.flatMap_cons, List.filter_append, ih]
    by_cases hi : id a = i
    · subst hi
      rw [filter_block_eq_self h, List.filter_cons_of_pos (by simp), List.flatMap_cons]
    · rw [filter_block_eq_nil h hi, List.filter_cons_of_neg (by simpa using hi), List.nil_append]

theorem filter_flatMap_owner (h : Owned f owner id) (hs : (s.map id).Nodup) {a : α} (ha : a ∈ s) :
    (s.flatMap f).filter (fun v => decide (owner v = id a)) = f a := by
  induction s with
  | nil => cases ha
  | cons b s ih =>
    obtain ⟨hb, hs⟩ := List.nodup_cons.mp hs
    rw [List.flatMap_cons, List.filter_append]
    rcases List.mem_cons.mp ha with rfl | ha
    · rw [filter_block_eq_self h, filter_flatMap_eq_nil h hb, List.append_nil]
    · have hne : id b ≠ id a := fun hc => hb (List.mem_map.mpr ⟨a, ha, hc.symm⟩)
      rw [filter_block_eq_nil h hne, List.nil_append, ih hs ha]

/-- The order of the owners has no bearing on what belongs to one of them. -/
theorem filter_flatMap_congr (h : Owned f owner id) {t : List α} (hs : (s.map id).Nodup)
    (ht : (t.map id).Nodup) (hst : ∀ a, a ∈ s ↔ a ∈ t) (i : ι) :
    (s.flatMap f).filter (fun v => decide (owner v = i)) =
      (t.flatMap f).filter (fun v => decide (owner v = i)) := by
  by_cases hi : i ∈ s.map id
  · obtain ⟨a, ha, rfl⟩ := List.mem_map.mp hi
    rw [filter_flatMap_owner h hs ha, filter_flatMap_owner h ht ((hst a).mp ha)]
  · have hi' : i ∉ t.map id := by
      intro hc
      obtain ⟨a, ha, rfl⟩ := List.mem_map.mp hc
      exact hi (List.mem_map_of_mem ((hst a).mpr ha))
    rw [filter_flatMap_eq_nil h hi, filter_flatMap_eq_nil h hi']

theorem mem_distinctBy_flatMap {key : β → κ} (hkey : ∀ v w, key v = key w → owner v = owner w)
    (h : Owned f owner id) (hs : (s.map id).Nodup) (v : β) :
    v ∈ distinctBy key (s.flatMap f) ↔ ∃ a ∈ s, v ∈ distinctBy key (f a) := by
  have test : ∀ i : ι, ∀ v w, key v = key w →
      decide (owner v = i) = decide (owner w = i) := fun i v w hk => by rw [hkey v w hk]
  have pick : ∀ a ∈ s, (v ∈ distinctBy key (s.flatMap f) ∧ owner v = id a ↔
      v ∈ distinctBy key (f a)) := by
    intro a ha
    have : v ∈ distinctBy key (s.flatMap f) ∧ owner v = id a ↔
        v ∈ (distinctBy key (s.flatMap f)).filter (fun v => decide (owner v = id a)) := by
      simp [List.mem_filter]
    rw [this, filter_distinctBy (test (id a)), filter_flatMap_owner h hs ha]
  constructor
  · intro hv
    obtain ⟨a, ha, hva⟩ := List.mem_flatMap.mp ((distinctBy_sublist key _).subset hv)
    exact ⟨a, ha, (pick a ha).mp ⟨hv, h a v hva⟩⟩
  · rintro ⟨a, ha, hv⟩
    exact ((pick a ha).mpr hv).1

/-- The order of the owners has no bearing on the first occurrences. -/
theorem mem_distinctBy_flatMap_congr {key : β → κ}
    (hkey : ∀ v w, key v = key w → owner v = owner w) (h : Owned f owner id) {t : List α}
    (hs : (s.map id).Nodup) (ht : (t.map id).Nodup) (hst : ∀ a, a ∈ s ↔ a ∈ t) (v : β) :
    v ∈ distinctBy key (s.flatMap f) ↔ v ∈ distinctBy key (t.flatMap f) := by
  rw [mem_distinctBy_flatMap hkey h hs, mem_distinctBy_flatMap hkey h ht]
  simp only [hst]

theorem distinctBy_eq_self {key : β → κ} {l : List β} (h : (l.map key).Nodup) :
    distinctBy key l = l := by
  induction l with
  | nil => rfl
  | cons v l ih =>
    obtain ⟨hv, hl⟩ := List.nodup_cons.mp h
    rw [distinctBy, ih hl, List.filter_eq_self.mpr fun w hw => ?_]
    exact decide_eq_true fun hc => hv (List.mem_map.mpr ⟨w, hw, hc⟩)

end Misuse
