import Misuse.Proofs.Yaml.Trees
import Misuse.Yaml.Reader

/-!
# Reading trees from their tokens

The tokens of a tidy tree are read as the tree (`Reads.of_tidy`), and a text that is written for a
record of names is read as that record (`read?_write`).
-/

namespace Misuse.Yaml

/-- What is left to read, with everything else as it is. -/
def Reading.facing (r : Reading) (ts : List Token) : Reading := { r with tokens := ts }

namespace Read

variable {α β : Type} {r r' : Reading} {t : Token} {ts rest : List Token} {fuel : Nat}

/-! ## Single tokens -/

theorem bind_eq {x : Read α} {f : α → Read β} {a : α} (h : x r = some (a, r')) :
    (x >>= f) r = f a r' := by
  simp [bind, StateT.bind, h]

theorem pure_eq (a : α) : (pure a : Read α) r = some (a, r) := rfl

theorem peek_eq : peek (r.facing ts) = some (ts.head?, r.facing ts) := rfl

theorem drop_eq : drop (r.facing (t :: ts)) = some ((), r.facing ts) := rfl

theorem take_same : take t (r.facing (t :: ts)) = some (true, r.facing ts) := by
  rw [take, bind_eq peek_eq]
  simp [bind_eq drop_eq, pure_eq]

theorem take_other (h : ts.head? ≠ some t) : take t (r.facing ts) = some (false, r.facing ts) := by
  rw [take, bind_eq peek_eq]
  simp [h, pure_eq]

theorem expect_same : expect t (r.facing (t :: ts)) = some ((), r.facing ts) := by
  rw [expect, bind_eq take_same]
  rfl

theorem orVoid_eq {us : List Token} {read : Read Yaml} (h : t ∉ us) :
    orVoid us read (r.facing (t :: ts)) = read (r.facing (t :: ts)) := by
  have written : meets us (r.facing (t :: ts)) = some (false, r.facing (t :: ts)) := by
    rw [meets, bind_eq peek_eq]
    simp [h, pure_eq]
  rw [orVoid, bind_eq written]
  rfl

/-! ## Nodes -/

/-- A node begins with this token, without properties. -/
def Starts (t : Token) : Prop :=
  t = .flowList ∨ t = .blockEntry ∨ t = .blockRecord ∨ ∃ style text, t = .scalar style text

theorem properties_eq (starts : Starts t) :
    properties (r.facing (t :: ts)) = some (⟨none, none⟩, r.facing (t :: ts)) := by
  have noAnchor : anchor? (r.facing (t :: ts)) = some (none, r.facing (t :: ts)) := by
    rw [anchor?, bind_eq peek_eq]
    rcases starts with rfl | rfl | rfl | ⟨style, text, rfl⟩ <;> rfl
  have noTag : tag? (r.facing (t :: ts)) = some (none, r.facing (t :: ts)) := by
    rw [tag?, bind_eq peek_eq]
    rcases starts with rfl | rfl | rfl | ⟨style, text, rfl⟩ <;> rfl
  rw [properties, bind_eq noAnchor]
  simp only [bind_eq noTag]
  rfl

theorem node_eq {inBlock listHere : Bool} (starts : Starts t) :
    node (fuel + 1) inBlock listHere (r.facing (t :: ts)) =
      content fuel inBlock listHere ⟨none, none⟩ (r.facing (t :: ts)) := by
  have bare : (do
      let p ← properties
      let place ← reserve p.anchor
      fill place (← content fuel inBlock listHere p) : Read Yaml) (r.facing (t :: ts)) =
        content fuel inBlock listHere ⟨none, none⟩ (r.facing (t :: ts)) := by
    have noPlace : reserve none (r.facing (t :: ts)) = some (none, r.facing (t :: ts)) := rfl
    rw [bind_eq (properties_eq starts)]
    dsimp only
    rw [bind_eq noPlace]
    simp only [bind, StateT.bind]
    cases content fuel inBlock listHere ⟨none, none⟩ (r.facing (t :: ts)) <;> rfl
  rw [node, bind_eq peek_eq]
  rcases starts with rfl | rfl | rfl | ⟨style, text, rfl⟩ <;> exact bare

/-- A scalar stands for itself. -/
theorem node_scalar {inBlock listHere : Bool} (style : Style) (text : String) :
    node (fuel + 2) inBlock listHere (r.facing (.scalar style text :: ts)) =
      some (.scalar ⟨text, style, none⟩, r.facing ts) := by
  rw [node_eq (.inr (.inr (.inr ⟨style, text, rfl⟩))), content, bind_eq peek_eq]
  rfl

/-- Brackets with nothing between them stand for the empty list. -/
theorem node_emptyList {inBlock listHere : Bool} :
    node (fuel + 3) inBlock listHere (r.facing (.flowList :: .flowListEnd :: ts)) =
      some (.list [], r.facing ts) := by
  have items : flowItems (fuel + 1) true (r.facing (.flowListEnd :: ts)) =
      some ([], r.facing ts) := by
    rw [flowItems, bind_eq take_same]
    rfl
  rw [node_eq (.inl rfl), content, bind_eq peek_eq]
  simp only [List.head?_cons, bind_eq drop_eq, bind_eq items]
  rfl

theorem node_list {items : List Yaml} {inBlock : Bool}
    (entries : entries fuel (r.facing (.blockEntry :: ts)) = some (items, r.facing rest)) :
    node (fuel + 2) inBlock true (r.facing (.blockEntry :: ts)) =
      some (.list items, r.facing rest) := by
  rw [node_eq (.inr (.inl rfl)), content, bind_eq peek_eq]
  simp only [List.head?_cons, ↓reduceIte, bind_eq entries]
  rfl

theorem node_record {fields : List (Yaml × Yaml)} {listHere : Bool}
    (fields_eq : blockFields fuel (r.facing ts) = some (fields, r.facing rest)) :
    node (fuel + 2) true listHere (r.facing (.blockRecord :: ts)) =
      some (.record fields, r.facing rest) := by
  rw [node_eq (.inr (.inr (.inl rfl))), content, bind_eq peek_eq]
  simp only [List.head?_cons, ↓reduceIte, bind_eq drop_eq, bind_eq fields_eq]
  rfl

/-! ## Lists -/

theorem entries_nil (noEntry : ts.head? ≠ some .blockEntry) :
    entries (fuel + 1) (r.facing ts) = some ([], r.facing ts) := by
  rw [entries, bind_eq (take_other noEntry)]
  rfl

theorem length_entryTokens (items : List Scalar) :
    (entryTokens (items.map .scalar)).length = 2 * items.length := by
  induction items with
  | nil => rfl
  | cons s items ih =>
    rw [List.map_cons, entryTokens, List.length_append, ih]
    simp only [tokens, List.length_cons, List.length_nil]
    omega

/-- Entries that are scalars. -/
theorem entries_eq {items : List Scalar} (fits : ∀ s ∈ items, s.Fits)
    (noEntry : rest.head? ≠ some .blockEntry) (enough : items.length + 2 < fuel) :
    entries fuel (r.facing (entryTokens (items.map .scalar) ++ rest)) =
      some (items.map .scalar, r.facing rest) := by
  induction items generalizing fuel with
  | nil =>
    obtain ⟨fuel, rfl⟩ := Nat.exists_eq_add_one.mpr (Nat.zero_lt_of_lt enough)
    exact entries_nil noEntry
  | cons s items ih =>
    obtain ⟨fuel, rfl⟩ : ∃ k, fuel = k + 3 := ⟨fuel - 3, by omega⟩
    obtain ⟨first, fits⟩ := List.forall_mem_cons.mp fits
    have scalar : node (fuel + 2) true false
        (r.facing (.scalar s.style s.text :: (entryTokens (items.map .scalar) ++ rest))) =
          some (.scalar s, r.facing (entryTokens (items.map .scalar) ++ rest)) := by
      rw [node_scalar, first.untagged]
    have others : entries (fuel + 2) (r.facing (entryTokens (items.map .scalar) ++ rest)) =
        some (items.map .scalar, r.facing rest) :=
      ih fits (by simp only [List.length_cons] at enough; omega)
    rw [List.map_cons, entryTokens, tokens, entries]
    simp only [List.cons_append, List.nil_append]
    rw [bind_eq take_same]
    simp only [↓reduceIte]
    rw [bind_eq ((orVoid_eq (by simp)).trans scalar), bind_eq others]
    rfl

/-! ## Records -/

theorem blockFields_nil :
    blockFields (fuel + 1) (r.facing (.blockEnd :: ts)) = some ([], r.facing ts) := by
  rw [blockFields, bind_eq take_same]
  rfl

theorem Starts.not_mem (starts : Starts t) : t ∉ [Token.key, .value, .blockEnd] := by
  rcases starts with rfl | rfl | rfl | ⟨style, text, rfl⟩ <;> simp

/-- One field. -/
theorem blockFields_cons {name : String} {y : Yaml} {us : List Token} (starts : Starts t)
    (value : node (fuel + 2) true true (r.facing (t :: us)) = some (y, r.facing rest)) :
    blockFields (fuel + 3) (r.facing (.key :: .scalar .plain name :: .value :: t :: us)) =
      (blockFields (fuel + 2) (r.facing rest)).map fun read =>
        ((plain name, y) :: read.1, read.2) := by
  have noEnd : (Token.key :: .scalar .plain name :: .value :: t :: us).head? ≠ some .blockEnd := by
    simp
  have key : orVoid [.key, .value, .blockEnd] (node (fuel + 2) true true)
      (r.facing (.scalar .plain name :: .value :: t :: us)) =
        some (plain name, r.facing (.value :: t :: us)) :=
    (orVoid_eq (by simp)).trans (node_scalar .plain name)
  rw [blockFields, bind_eq (take_other noEnd)]
  simp only [Bool.false_eq_true, ↓reduceIte]
  rw [bind_eq expect_same, bind_eq key, bind_eq take_same]
  simp only [↓reduceIte]
  rw [bind_eq ((orVoid_eq starts.not_mem).trans value)]
  simp only [bind, StateT.bind]
  cases blockFields (fuel + 2) (r.facing rest) <;> rfl

/-- The tokens are read as the tree, where a field goes on or ends behind it. -/
def Reads (y : Yaml) : Prop :=
  ∀ (fuel : Nat) (r : Reading) (rest : List Token), rest.head? ≠ some .blockEntry →
    3 * (tokens y).length ≤ fuel →
    node fuel true true (r.facing (tokens y ++ rest)) = some (y, r.facing rest)

theorem exists_starts {y : Yaml} (tidy : Tidy y) : ∃ t ts, tokens y = t :: ts ∧ Starts t := by
  cases tidy with
  | scalar s fits => exact ⟨_, [], by rw [tokens], .inr (.inr (.inr ⟨_, _, rfl⟩))⟩
  | list items fits =>
    cases items with
    | nil => exact ⟨_, _, by rw [List.map_nil, tokens], .inl rfl⟩
    | cons s items => exact ⟨_, _, by rw [List.map_cons, tokens, List.cons_append], .inr (.inl rfl)⟩
  | record fields nonempty names values =>
    exact ⟨_, _, by rw [named_eq, tokens, List.cons_append], .inr (.inr (.inl rfl))⟩

/-- The fields of a record, up to its end. -/
theorem blockFields_eq {fields : List (String × Yaml)} (tidy : ∀ f ∈ fields, Tidy f.2)
    (reads : ∀ f ∈ fields, Reads f.2)
    (enough : 3 * (fieldTokens (plainly fields)).length + 1 ≤ fuel) :
    blockFields fuel (r.facing (fieldTokens (plainly fields) ++ .blockEnd :: rest)) =
      some (plainly fields, r.facing rest) := by
  induction fields generalizing fuel with
  | nil =>
    obtain ⟨fuel, rfl⟩ := Nat.exists_eq_add_one.mpr (Nat.zero_lt_of_lt enough)
    exact blockFields_nil
  | cons f fields ih =>
    obtain ⟨first, tidy⟩ := List.forall_mem_cons.mp tidy
    obtain ⟨readsFirst, reads⟩ := List.forall_mem_cons.mp reads
    obtain ⟨t, us, ht, starts⟩ := exists_starts first
    have shown : fieldTokens (plainly (f :: fields)) =
        .key :: .scalar .plain f.1 :: .value :: t :: us ++ fieldTokens (plainly fields) := by
      simp [plainly, fieldTokens, fieldTokensOf, ht, tokens, plain]
    rw [shown] at enough ⊢
    simp only [List.length_append, List.length_cons] at enough
    obtain ⟨fuel, rfl⟩ : ∃ k, fuel = k + 3 := ⟨fuel - 3, by omega⟩
    have noEntry :
        (fieldTokens (plainly fields) ++ .blockEnd :: rest).head? ≠ some .blockEntry := by
      cases fields <;> simp [plainly, fieldTokens, fieldTokensOf]
    have value : node (fuel + 2) true true
        (r.facing (t :: (us ++ (fieldTokens (plainly fields) ++ .blockEnd :: rest)))) =
          some (f.2, r.facing (fieldTokens (plainly fields) ++ .blockEnd :: rest)) := by
      have read := readsFirst (fuel + 2) r _ noEntry (by rw [ht, List.length_cons]; omega)
      rwa [ht] at read
    have others :
        blockFields (fuel + 2) (r.facing (fieldTokens (plainly fields) ++ .blockEnd :: rest)) =
        some (plainly fields, r.facing rest) := ih tidy reads (by omega)
    simp only [List.cons_append, List.append_assoc]
    rw [blockFields_cons starts value, others]
    rfl

/-! ## Trees -/

theorem node_named {fields : List (String × Yaml)} {listHere : Bool} (tidy : ∀ f ∈ fields, Tidy f.2)
    (reads : ∀ f ∈ fields, Reads f.2) (enough : 3 * (tokens (named fields)).length ≤ fuel) :
    node fuel true listHere (r.facing (tokens (named fields) ++ rest)) =
      some (named fields, r.facing rest) := by
  have shown : tokens (named fields) ++ rest =
      .blockRecord :: (fieldTokens (plainly fields) ++ .blockEnd :: rest) := by
    simp [named_eq, tokens]
  have length : (tokens (named fields)).length = (fieldTokens (plainly fields)).length + 2 := by
    simp [named_eq, tokens]
  obtain ⟨fuel, rfl⟩ : ∃ k, fuel = k + 2 := ⟨fuel - 2, by omega⟩
  rw [shown]
  exact node_record (blockFields_eq tidy reads (by omega))

/-- A tidy tree is read from its tokens. -/
theorem Reads.of_tidy {y : Yaml} (tidy : Tidy y) : Reads y := by
  induction tidy with
  | scalar s fits =>
    intro fuel r rest noEntry enough
    rw [tokens] at enough ⊢
    obtain ⟨fuel, rfl⟩ : ∃ k, fuel = k + 2 := ⟨fuel - 2, by simp at enough; omega⟩
    have read : node (fuel + 2) true true (r.facing (.scalar s.style s.text :: rest)) =
        some (.scalar s, r.facing rest) := by rw [node_scalar, fits.untagged]
    exact read
  | list items fits =>
    intro fuel r rest noEntry enough
    cases items with
    | nil =>
      rw [List.map_nil, tokens] at enough ⊢
      obtain ⟨fuel, rfl⟩ : ∃ k, fuel = k + 3 := ⟨fuel - 3, by simp at enough; omega⟩
      exact node_emptyList
    | cons s items =>
      have shown : tokens (.list ((s :: items).map .scalar)) =
          entryTokens ((s :: items).map .scalar) := by
        simp [tokens, entryTokens]
      rw [shown, length_entryTokens] at enough
      obtain ⟨fuel, rfl⟩ : ∃ k, fuel = k + 2 := ⟨fuel - 2, by simp at enough; omega⟩
      rw [shown]
      exact node_list (entries_eq fits noEntry (by simp only [List.length_cons] at enough ⊢; omega))
  | record fields nonempty names values ih =>
    intro fuel r rest noEntry enough
    exact node_named values ih enough

/-- A document that is one record. -/
theorem document_eq {y : Yaml} (record : t = .blockRecord)
    (read : node (fuel + 1) true false (r.facing (t :: ts)) = some (y, r.facing [])) :
    document (fuel + 1) (r.facing (t :: ts)) = some (y, r.facing []) := by
  subst record
  have undirected : directives (fuel + 1) false [] (r.facing (.blockRecord :: ts)) =
      some (false, r.facing (.blockRecord :: ts)) := by
    rw [directives, bind_eq peek_eq]
    rfl
  have noStart : (Token.blockRecord :: ts).head? ≠ some .documentStart := by simp
  have noEnd : ([] : List Token).head? ≠ some .documentEnd := by simp
  have ends : documentEnds (fuel + 1) (r.facing []) = some ((), r.facing []) := by
    rw [documentEnds, bind_eq (take_other noEnd)]
    rfl
  rw [document, bind_eq undirected, bind_eq (take_other noStart)]
  simp only [Bool.false_eq_true, ↓reduceIte]
  rw [bind_eq peek_eq]
  simp only [List.head?_cons, Option.isNone_some, Bool.false_eq_true, ↓reduceIte]
  rw [bind_eq read, bind_eq ends, bind_eq peek_eq]
  rfl

end Read

/-! ## Documents -/

/-- A record that is written is read as it is, and has no anchors. -/
theorem read?_write {fields : List (String × Yaml)} (nonempty : fields ≠ [])
    (names : ∀ f ∈ fields, IsName f.1) (tidy : ∀ f ∈ fields, Tidy f.2) :
    read? (write (named fields)) = some (named fields).toDocument := by
  have lexed : tokens? (write (named fields)).toList = some (tokens (named fields)) := by
    rw [write, String.toList_ofList, tokens?_block nonempty names tidy]
  have shown : tokens (named fields) =
      .blockRecord :: (fieldTokens (plainly fields) ++ [.blockEnd]) := by
    simp [named_eq, tokens]
  have node : Read.node (3 * (tokens (named fields)).length + 3 + 1) true false
      ((⟨[], [], 0, [], standardHandles⟩ : Reading).facing (tokens (named fields) ++ [])) =
        some (named fields, (⟨[], [], 0, [], standardHandles⟩ : Reading).facing []) :=
    Read.node_named tidy (fun f hf => Read.Reads.of_tidy (tidy f hf)) (by omega)
  rw [List.append_nil, shown] at node
  have read := Read.document_eq rfl node
  rw [← shown] at read
  have run : (Read.document (3 * (tokens (named fields)).length + 4)).run
      ⟨tokens (named fields), [], 0, [], standardHandles⟩ =
        some (named fields, ⟨[], [], 0, [], standardHandles⟩) := read
  simp only [read?, lexed, run, Option.bind_eq_bind, Option.bind_some]
  rfl

end Misuse.Yaml
