import Misuse.Json.Reader

/-!
# The tokens of a tree

From the tokens of a text the reader gets the one tree whose tokens they begin with, if the tree
fits into the room (`valueFrom?_eq_some_iff`). So the room decides whether a text is read, and not
what is read from it (`first?_of_parse?`).
-/

namespace Misuse.Json

mutual

/-- The tokens of a tree, a scalar being one token. -/
def tokens : Json → List Token
  | .list items => .openList :: (itemTokens items ++ [.closeList])
  | .record fields => .openRecord :: (fieldTokens fields ++ [.closeRecord])
  | j => [.scalar j]

def itemTokens : List Json → List Token
  | [] => []
  | [j] => tokens j
  | j :: k :: js => tokens j ++ .comma :: itemTokens (k :: js)

def fieldTokens : List (String × Json) → List Token
  | [] => []
  | [(name, j)] => .scalar (.text name) :: .colon :: tokens j
  | (name, j) :: f :: fs =>
    .scalar (.text name) :: .colon :: (tokens j ++ .comma :: fieldTokens (f :: fs))

end

theorem itemTokens_cons {js : List Json} (nonempty : js ≠ []) (j : Json) :
    itemTokens (j :: js) = j.tokens ++ .comma :: itemTokens js := by
  cases js with
  | nil => exact absurd rfl nonempty
  | cons k js => rfl

theorem fieldTokens_cons {fs : List (String × Json)} (nonempty : fs ≠ []) (name : String)
    (j : Json) : fieldTokens ((name, j) :: fs) =
      .scalar (.text name) :: .colon :: (j.tokens ++ .comma :: fieldTokens fs) := by
  cases fs with
  | nil => exact absurd rfl nonempty
  | cons f fs => rfl

theorem length_tokens_pos (j : Json) : 0 < j.tokens.length := by
  cases j <;> simp [tokens]

theorem itemTokens_append_ne (j : Json) (js : List Json) (ts rest : List Token) :
    itemTokens (j :: js) ++ ts ≠ .closeList :: rest := by
  have first (us : List Token) : j.tokens ++ us ≠ .closeList :: rest := by
    cases j <;> exact nofun
  cases js with
  | nil => exact first ts
  | cons k js =>
    rw [itemTokens_cons (List.cons_ne_nil _ _), List.append_assoc]
    exact first _

theorem fieldTokens_append_ne (f : String × Json) (fs : List (String × Json))
    (ts rest : List Token) : fieldTokens (f :: fs) ++ ts ≠ .closeRecord :: rest := by
  cases fs <;> simp [fieldTokens]

/-! ## Flat tokens -/

/-- The value of a scalar token is no list and no record. -/
def Token.Flat : Token → Prop
  | .scalar j => j.depth = 0
  | _ => True

theorem tokens_of_depth_eq_zero {j : Json} (h : j.depth = 0) : j.tokens = [.scalar j] := by
  cases j <;> first | rfl | simp [depth] at h

theorem flat_of_unsigned? {negative : Bool} {s r : List Char} {j : Json}
    (h : unsigned? negative s = some (j, r)) : j.depth = 0 := by
  simp only [unsigned?, Option.bind_eq_bind] at h
  split at h
  · cases h
  · simp only [Option.bind_eq_some_iff] at h
    obtain ⟨fraction, -, exponent, -, h⟩ := h
    repeat' split at h
    all_goals cases h
    all_goals rfl

theorem flat_of_number? {s r : List Char} {j : Json} (h : number? s = some (j, r)) :
    j.depth = 0 := by
  unfold number? at h
  split at h <;> exact flat_of_unsigned? h

theorem flat_of_token? {s r : List Char} {t : Token} (h : token? s = some (some t, r)) :
    t.Flat := by
  unfold token? at h
  split at h
  case h_12 =>
    obtain ⟨⟨value, rest⟩, -, same⟩ := Option.map_eq_some_iff.mp h
    cases same
    rfl
  case h_16 =>
    obtain ⟨⟨value, rest⟩, number, same⟩ := Option.map_eq_some_iff.mp h
    cases same
    exact flat_of_number? number
  all_goals cases h
  all_goals trivial

theorem flat_of_lexFrom (fuel : Nat) {read : List Token} {s : List Char}
    (h : ∀ t ∈ read, t.Flat) : ∀ t ∈ lexFrom fuel read s, t.Flat := by
  fun_induction lexFrom with
  | case1 read => exact fun t ht => h t (List.mem_reverse.mp ht)
  | case2 read =>
    exact fun t ht => List.forall_mem_cons.mpr ⟨trivial, h⟩ t (List.mem_reverse.mp ht)
  | case3 fuel read s _ =>
    exact fun t ht => List.forall_mem_cons.mpr ⟨trivial, h⟩ t (List.mem_reverse.mp ht)
  | case4 fuel read s _ r _ ih => exact ih h
  | case5 fuel read s _ t r step ih =>
    exact ih (List.forall_mem_cons.mpr ⟨flat_of_token? step, h⟩)

/-! ## Reading tokens -/

section Reading

variable {fuel room : Nat}

theorem valueFrom?_openList {ts : List Token} (h : ∀ rest, ts ≠ .closeList :: rest) :
    valueFrom? (fuel + 1) (room + 1) (.openList :: ts) =
      (itemsFrom? fuel room ts).map fun (items, rest) => (.list items, rest) := by
  cases ts with
  | nil => simp [valueFrom?]
  | cons t ts =>
    cases t with
    | closeList => exact absurd rfl (h ts)
    | _ => simp [valueFrom?]

theorem valueFrom?_openRecord {ts : List Token} (h : ∀ rest, ts ≠ .closeRecord :: rest) :
    valueFrom? (fuel + 1) (room + 1) (.openRecord :: ts) =
      (fieldsFrom? fuel room ts).map fun (fields, rest) => (.record fields, rest) := by
  cases ts with
  | nil => simp [valueFrom?]
  | cons t ts =>
    cases t with
    | closeRecord => exact absurd rfl (h ts)
    | _ => simp [valueFrom?]

mutual

-- By recursion on the tree. Each step of the reader uses up a token, so that their number is fuel
-- enough.

/-- A tree is read from its tokens. -/
theorem valueFrom?_tokens (j : Json) (fuel room : Nat) (rest : List Token)
    (hfuel : j.tokens.length ≤ fuel) (hroom : j.depth ≤ room) :
    valueFrom? fuel room (j.tokens ++ rest) = some (j, rest) := by
  match fuel, room, j with
  | 0, _, j => exact absurd hfuel (Nat.not_le.mpr j.length_tokens_pos)
  | fuel + 1, room + 1, .list [] => simp [tokens, itemTokens, valueFrom?]
  | fuel + 1, room + 1, .list (j :: js) =>
    simp only [tokens, List.length_cons, List.length_append, List.length_nil, depth,
      Nat.add_le_add_iff_right] at hfuel hroom
    have items := itemsFrom?_itemTokens j js fuel room rest (by omega) hroom
    simp only [tokens, List.cons_append, List.append_assoc, List.nil_append]
    rw [valueFrom?_openList (itemTokens_append_ne j js _), items]
    rfl
  | fuel + 1, room + 1, .record [] => simp [tokens, fieldTokens, valueFrom?]
  | fuel + 1, room + 1, .record ((name, j) :: fs) =>
    simp only [tokens, List.length_cons, List.length_append, List.length_nil, depth,
      Nat.add_le_add_iff_right] at hfuel hroom
    have fields := fieldsFrom?_fieldTokens name j fs fuel room rest (by omega) hroom
    simp only [tokens, List.cons_append, List.append_assoc, List.nil_append]
    rw [valueFrom?_openRecord (fieldTokens_append_ne _ fs _), fields]
    rfl
  | fuel + 1, _, .null | fuel + 1, _, .bool _ | fuel + 1, _, .int _
  | fuel + 1, _, .decimal _ | fuel + 1, _, .text _ => simp [tokens, valueFrom?]

theorem itemsFrom?_itemTokens (j : Json) (js : List Json) (fuel room : Nat) (rest : List Token)
    (hfuel : (itemTokens (j :: js)).length < fuel) (hroom : depthOfItems (j :: js) ≤ room) :
    itemsFrom? fuel room (itemTokens (j :: js) ++ .closeList :: rest) = some (j :: js, rest) := by
  rw [depthOfItems, Nat.max_le] at hroom
  match fuel, js with
  | fuel + 1, [] =>
    rw [itemTokens] at hfuel ⊢
    rw [itemsFrom?, valueFrom?_tokens j fuel room _ (by omega) hroom.1]
  | fuel + 1, k :: js =>
    rw [itemTokens_cons (List.cons_ne_nil _ _)] at hfuel ⊢
    simp only [List.length_append, List.length_cons] at hfuel
    rw [List.append_assoc, List.cons_append, itemsFrom?,
      valueFrom?_tokens j fuel room _ (by omega) hroom.1]
    simp only
    rw [itemsFrom?_itemTokens k js fuel room rest (by omega) hroom.2]
    rfl

theorem fieldsFrom?_fieldTokens (name : String) (j : Json) (fs : List (String × Json))
    (fuel room : Nat) (rest : List Token)
    (hfuel : (fieldTokens ((name, j) :: fs)).length < fuel)
    (hroom : depthOfFields ((name, j) :: fs) ≤ room) :
    fieldsFrom? fuel room (fieldTokens ((name, j) :: fs) ++ .closeRecord :: rest) =
      some ((name, j) :: fs, rest) := by
  rw [depthOfFields, Nat.max_le] at hroom
  match fuel, fs with
  | fuel + 1, [] =>
    simp only [fieldTokens, List.length_cons] at hfuel
    rw [fieldTokens, List.cons_append, List.cons_append, fieldsFrom?,
      valueFrom?_tokens j fuel room _ (by omega) hroom.1]
  | fuel + 1, (name', k) :: fs =>
    rw [fieldTokens_cons (List.cons_ne_nil _ _)] at hfuel ⊢
    simp only [List.length_append, List.length_cons] at hfuel
    rw [List.cons_append, List.cons_append, List.append_assoc, List.cons_append, fieldsFrom?,
      valueFrom?_tokens j fuel room _ (by omega) hroom.1]
    simp only
    rw [fieldsFrom?_fieldTokens name' k fs fuel room rest (by omega) hroom.2]
    rfl

end

theorem itemsFrom?_eq_some {ts rest : List Token} {items : List Json}
    (h : itemsFrom? (fuel + 1) room ts = some (items, rest)) :
    ∃ j after, valueFrom? fuel room ts = some (j, after) ∧
      ((after = .closeList :: rest ∧ items = [j]) ∨
        ∃ more js, after = .comma :: more ∧ itemsFrom? fuel room more = some (js, rest) ∧
          items = j :: js) := by
  rw [itemsFrom?] at h
  split at h
  · rename_i j more read
    obtain ⟨⟨js, rest'⟩, tail, same⟩ := Option.map_eq_some_iff.mp h
    cases same
    exact ⟨j, _, read, .inr ⟨more, js, rfl, tail, rfl⟩⟩
  · rename_i j rest' read
    cases h
    exact ⟨j, _, read, .inl ⟨rfl, rfl⟩⟩
  · cases h

theorem fieldsFrom?_eq_some {ts rest : List Token} {fields : List (String × Json)}
    (h : fieldsFrom? (fuel + 1) room ts = some (fields, rest)) :
    ∃ name r j after, ts = .scalar (.text name) :: .colon :: r ∧
      valueFrom? fuel room r = some (j, after) ∧
      ((after = .closeRecord :: rest ∧ fields = [(name, j)]) ∨
        ∃ more fs, after = .comma :: more ∧ fieldsFrom? fuel room more = some (fs, rest) ∧
          fields = (name, j) :: fs) := by
  unfold fieldsFrom? at h
  split at h
  · rename_i name r same
    cases same
    split at h
    · rename_i j more read
      obtain ⟨⟨fs, rest'⟩, tail, same⟩ := Option.map_eq_some_iff.mp h
      cases same
      exact ⟨name, r, j, _, rfl, read, .inr ⟨more, fs, rfl, tail, rfl⟩⟩
    · rename_i j rest' read
      cases h
      exact ⟨name, r, j, _, rfl, read, .inl ⟨rfl, rfl⟩⟩
    · cases h
  · cases h

mutual

-- By recursion on the fuel.

/-- What is read from flat tokens is a tree whose tokens they are, within the room. -/
theorem tokens_of_valueFrom? {fuel room : Nat} {ts rest : List Token} {j : Json}
    (flat : ∀ t ∈ ts, t.Flat) (h : valueFrom? fuel room ts = some (j, rest)) :
    ts = j.tokens ++ rest ∧ j.depth ≤ room := by
  unfold valueFrom? at h
  split at h
  · -- a scalar
    rename_i j' r
    cases h
    have depth : j.depth = 0 := flat _ (List.mem_cons_self ..)
    exact ⟨by rw [tokens_of_depth_eq_zero depth]; rfl, by omega⟩
  · -- an empty list
    cases h
    exact ⟨rfl, by simp [depth, depthOfItems]⟩
  · rename_i fuel room r _
    obtain ⟨⟨items, rest'⟩, read, same⟩ := Option.map_eq_some_iff.mp h
    cases same
    obtain ⟨same, deep, -⟩ := itemTokens_of_itemsFrom? (List.forall_mem_cons.mp flat).2 read
    exact ⟨by simp [tokens, same], Nat.succ_le_succ deep⟩
  · -- an empty record
    cases h
    exact ⟨rfl, by simp [depth, depthOfFields]⟩
  · rename_i fuel room r _
    obtain ⟨⟨fields, rest'⟩, read, same⟩ := Option.map_eq_some_iff.mp h
    cases same
    obtain ⟨same, deep, -⟩ := fieldTokens_of_fieldsFrom? (List.forall_mem_cons.mp flat).2 read
    exact ⟨by simp [tokens, same], Nat.succ_le_succ deep⟩
  · cases h

theorem itemTokens_of_itemsFrom? {fuel room : Nat} {ts rest : List Token} {items : List Json}
    (flat : ∀ t ∈ ts, t.Flat) (h : itemsFrom? fuel room ts = some (items, rest)) :
    ts = itemTokens items ++ .closeList :: rest ∧ depthOfItems items ≤ room ∧ items ≠ [] := by
  match fuel with
  | 0 => simp [itemsFrom?] at h
  | fuel + 1 =>
    obtain ⟨j, after, read, more⟩ := itemsFrom?_eq_some h
    obtain ⟨rfl, deep⟩ := tokens_of_valueFrom? flat read
    obtain ⟨rfl, rfl⟩ | ⟨more, js, rfl, tail, rfl⟩ := more
    · exact ⟨rfl, by simpa [depthOfItems] using deep, by simp⟩
    · have flat' := (List.forall_mem_cons.mp (List.forall_mem_append.mp flat).2).2
      obtain ⟨rfl, deep', nonempty⟩ := itemTokens_of_itemsFrom? flat' tail
      exact ⟨by simp [itemTokens_cons nonempty], Nat.max_le.mpr ⟨deep, deep'⟩, by simp⟩

theorem fieldTokens_of_fieldsFrom? {fuel room : Nat} {ts rest : List Token}
    {fields : List (String × Json)}
    (flat : ∀ t ∈ ts, t.Flat) (h : fieldsFrom? fuel room ts = some (fields, rest)) :
    ts = fieldTokens fields ++ .closeRecord :: rest ∧ depthOfFields fields ≤ room ∧
      fields ≠ [] := by
  match fuel with
  | 0 => simp [fieldsFrom?] at h
  | fuel + 1 =>
    obtain ⟨name, r, j, after, rfl, read, more⟩ := fieldsFrom?_eq_some h
    have flat' := (List.forall_mem_cons.mp (List.forall_mem_cons.mp flat).2).2
    obtain ⟨rfl, deep⟩ := tokens_of_valueFrom? flat' read
    obtain ⟨rfl, rfl⟩ | ⟨more, fs, rfl, tail, rfl⟩ := more
    · exact ⟨rfl, by simpa [depthOfFields] using deep, by simp⟩
    · have flat'' := (List.forall_mem_cons.mp (List.forall_mem_append.mp flat').2).2
      obtain ⟨rfl, deep', nonempty⟩ := fieldTokens_of_fieldsFrom? flat'' tail
      exact ⟨by simp [fieldTokens_cons nonempty], Nat.max_le.mpr ⟨deep, deep'⟩, by simp⟩

end

/-- **Trees and their tokens.** With fuel for all tokens, a tree is read from flat tokens exactly
if they begin with its own and it fits into the room. -/
theorem valueFrom?_eq_some_iff {ts rest : List Token} {j : Json} (flat : ∀ t ∈ ts, t.Flat)
    (enough : ts.length ≤ fuel) :
    valueFrom? fuel room ts = some (j, rest) ↔ ts = j.tokens ++ rest ∧ j.depth ≤ room := by
  refine ⟨tokens_of_valueFrom? flat, ?_⟩
  rintro ⟨rfl, deep⟩
  rw [List.length_append] at enough
  exact valueFrom?_tokens j fuel room rest (by omega) deep

/-- No tree's tokens begin those of another. -/
theorem tokens_append_inj {j k : Json} {rest rest' : List Token}
    (h : j.tokens ++ rest = k.tokens ++ rest') : j = k ∧ rest = rest' := by
  have hj := valueFrom?_tokens j (max j.tokens.length k.tokens.length) (max j.depth k.depth) rest
    (Nat.le_max_left ..) (Nat.le_max_left ..)
  have hk := valueFrom?_tokens k (max j.tokens.length k.tokens.length) (max j.depth k.depth) rest'
    (Nat.le_max_right ..) (Nat.le_max_right ..)
  rw [h, hk] at hj
  cases hj
  exact ⟨rfl, rfl⟩

end Reading

/-! ## Reading texts -/

theorem first?_eq_some_iff {room : Nat} {s : String} {j : Json} {alone : Bool} :
    first? room s = some (j, alone) ↔
      j.depth ≤ room ∧ ∃ rest, lex s.toList = j.tokens ++ rest ∧ alone = rest.isEmpty := by
  have flat : ∀ t ∈ lex s.toList, t.Flat := flat_of_lexFrom _ nofun
  simp only [first?, Option.map_eq_some_iff, Prod.exists, Prod.mk.injEq,
    valueFrom?_eq_some_iff flat (Nat.le_succ _)]
  constructor
  · rintro ⟨j, rest, ⟨tokens, deep⟩, rfl, rfl⟩
    exact ⟨deep, rest, tokens, rfl⟩
  · rintro ⟨deep, rest, tokens, rfl⟩
    exact ⟨j, rest, ⟨tokens, deep⟩, rfl, rfl⟩

theorem parse?_eq_some_iff {room : Nat} {s : String} {j : Json} :
    parse? room s = some j ↔ lex s.toList = j.tokens ∧ j.depth ≤ room := by
  rw [first?_alone_iff, first?_eq_some_iff]
  constructor
  · rintro ⟨deep, rest, tokens, empty⟩
    rw [List.isEmpty_iff.mp empty.symm, List.append_nil] at tokens
    exact ⟨tokens, deep⟩
  · rintro ⟨tokens, deep⟩
    exact ⟨deep, [], by rw [tokens, List.append_nil], rfl⟩

/-- **The room decides whether a text is read, and not what is read**: a text that is a tree for
some room is read in any other room exactly if the tree fits into it. -/
theorem first?_of_parse? {room : Nat} {s : String} {j : Json} (h : parse? room s = some j)
    (room' : Nat) : first? room' s = if j.depth ≤ room' then some (j, true) else none := by
  obtain ⟨tokens, -⟩ := parse?_eq_some_iff.mp h
  split
  · rename_i fits
    exact first?_eq_some_iff.mpr ⟨fits, [], by rw [tokens, List.append_nil], rfl⟩
  · rename_i deep
    cases read : first? room' s with
    | none => rfl
    | some found =>
      obtain ⟨k, alone⟩ := found
      obtain ⟨fits, rest, same, -⟩ := first?_eq_some_iff.mp read
      rw [tokens] at same
      rw [← List.append_nil j.tokens] at same
      obtain ⟨rfl, -⟩ := tokens_append_inj same
      exact absurd fits deep

end Misuse.Json
