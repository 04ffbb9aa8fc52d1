import BoundedEquations.Variable

/-!
# `BoundedEquations.Table`: finite maps from variables, in name order

A table lists its entries by ascending name, each name once. A look-up goes by name, so it does
not matter which width the asked variable carries. The key that is stored when a name first
arrives stays: later changes of the entry keep it, and only erasing the entry removes it.

All changes are instances of `alter`, and `find?_alter` is its law. `find?_insert` and
`find?_erase` follow from it.

A `VariableSet` is a table that records nothing but its keys.
-/

set_option autoImplicit false

namespace BoundedEquations

/-- A map from variables that lists its entries in strictly ascending name order. -/
structure Table (α : Type) where
  entries : List (Variable × α)
  ascending : entries.Pairwise fun p q => p.1 < q.1

namespace Table

variable {α : Type}

/-- The table without entries. -/
def empty : Table α := ⟨[], List.Pairwise.nil⟩

/-- The table without entries. -/
instance : EmptyCollection (Table α) := ⟨empty⟩

/-- The table has no entries. -/
def isEmpty (t : Table α) : Bool := t.entries.isEmpty

/-- The number of entries. -/
def size (t : Table α) : Nat := t.entries.length

/-- The stored variables in name order. -/
def keys (t : Table α) : List Variable := t.entries.map Prod.fst

/-- The recorded values in the name order of their keys. -/
def values (t : Table α) : List α := t.entries.map Prod.snd

/-- The value recorded under the name of `x`. -/
def find? (t : Table α) (x : Variable) : Option α :=
  (t.entries.find? fun e => e.1 == x).map Prod.snd

/-- The name of `x` has an entry. -/
def contains (t : Table α) (x : Variable) : Bool := (t.find? x).isSome

/-- Changes the entry at the name of `x` in an ascending list, as `alter` does. -/
def alterEntries (x : Variable) (f : Option α → Option α) :
    List (Variable × α) → List (Variable × α)
  | [] => ((f none).map (x, ·)).toList
  | (y, b) :: rest =>
    if x < y then ((f none).map (x, ·)).toList ++ (y, b) :: rest
    else if y < x then (y, b) :: alterEntries x f rest
    else ((f (some b)).map (y, ·)).toList ++ rest

/-- A changed list holds the old entries and perhaps one at the name of `x`. -/
theorem mem_alterEntries {x : Variable} {f : Option α → Option α} {e : Variable × α}
    {es : List (Variable × α)} (h : e ∈ alterEntries x f es) : e.1.name = x.name ∨ e ∈ es := by
  induction es with
  | nil =>
    simp only [alterEntries, Option.mem_toList, Option.map_eq_some_iff] at h
    obtain ⟨a, _, rfl⟩ := h
    exact Or.inl rfl
  | cons d rest ih =>
    obtain ⟨y, b⟩ := d
    simp only [alterEntries] at h
    split at h
    · rcases List.mem_append.mp h with h | h
      · simp only [Option.mem_toList, Option.map_eq_some_iff] at h
        obtain ⟨a, _, rfl⟩ := h
        exact Or.inl rfl
      · exact Or.inr h
    · rename_i hxy
      split at h
      · rcases List.mem_cons.mp h with rfl | h
        · exact Or.inr List.mem_cons_self
        · exact (ih h).imp_right (List.mem_cons_of_mem _)
      · rename_i hyx
        rcases List.mem_append.mp h with h | h
        · simp only [Option.mem_toList, Option.map_eq_some_iff] at h
          obtain ⟨a, _, rfl⟩ := h
          exact Or.inl (String.le_antisymm (String.not_lt.mp hxy) (String.not_lt.mp hyx))
        · exact Or.inr (List.mem_cons_of_mem _ h)

/-- A change keeps the entries ascending. -/
theorem ascending_alterEntries {x : Variable} {f : Option α → Option α}
    {es : List (Variable × α)} (h : es.Pairwise fun p q => p.1 < q.1) :
    (alterEntries x f es).Pairwise fun p q => p.1 < q.1 := by
  induction es with
  | nil => cases hf : f none <;> simp [alterEntries, hf]
  | cons d rest ih =>
    obtain ⟨y, b⟩ := d
    obtain ⟨hy, hrest⟩ := List.pairwise_cons.mp h
    simp only [alterEntries]
    split
    · rename_i hxy
      cases f none with
      | none => exact h
      | some a =>
        refine List.pairwise_cons.mpr ⟨fun e he => ?_, h⟩
        rcases List.mem_cons.mp he with rfl | he
        · exact hxy
        · exact String.lt_trans hxy (hy e he)
    · split
      · rename_i hyx
        refine List.pairwise_cons.mpr ⟨fun e he => ?_, ih hrest⟩
        rcases mem_alterEntries he with hname | he
        · exact Variable.lt_iff.mpr (hname ▸ hyx)
        · exact hy e he
      · cases f (some b) with
        | none => exact hrest
        | some a => exact List.pairwise_cons.mpr ⟨hy, hrest⟩

/-- Changes what is recorded under the name of `x`. The function is given the present value, if
there is one, and answers with the new one, if there is to be one. A stored key stays as it is. -/
def alter (t : Table α) (x : Variable) (f : Option α → Option α) : Table α :=
  ⟨alterEntries x f t.entries, ascending_alterEntries t.ascending⟩

/-- Records a value, in place of an earlier one of that name. -/
def insert (t : Table α) (x : Variable) (a : α) : Table α := t.alter x fun _ => some a

/-- Removes the entry of that name. -/
def erase (t : Table α) (x : Variable) : Table α := t.alter x fun _ => none

/-! ### Look-ups after a change

A look-up is the first match in the list of entries. After a match no later entry has the same
name, because names ascend strictly. -/

/-- A name below all entries is not found. -/
private theorem lookup_eq_none {x : Variable} {es : List (Variable × α)}
    (h : ∀ e ∈ es, x < e.1) : (es.find? fun e => e.1 == x) = none := by
  refine List.find?_eq_none.mpr fun e he heq => ?_
  have hlt := Variable.lt_iff.mp (h e he)
  rw [Variable.beq_iff.mp heq] at hlt
  exact String.lt_irrefl _ hlt

/-- After a change the new value is found under its name, and the others are as they were. -/
private theorem lookup_alterEntries {x y : Variable} {f : Option α → Option α}
    {es : List (Variable × α)} (h : es.Pairwise fun p q => p.1 < q.1) :
    ((alterEntries x f es).find? fun e => e.1 == y).map Prod.snd =
      if y.name = x.name then f ((es.find? fun e => e.1 == x).map Prod.snd)
      else (es.find? fun e => e.1 == y).map Prod.snd := by
  -- A single entry at the key `k` answers to the name of `k` alone.
  have single : ∀ (k : Variable) (o : Option α) (rest : List (Variable × α)),
      (((o.map (k, ·)).toList ++ rest).find? fun e => e.1 == y).map Prod.snd =
        if k.name = y.name then o.or ((rest.find? fun e => e.1 == y).map Prod.snd)
        else (rest.find? fun e => e.1 == y).map Prod.snd := by
    intro k o rest
    cases o with
    | none => simp
    | some a => by_cases hk : k.name = y.name <;> simp [Variable.beq_iff, hk]
  induction es with
  | nil =>
    have := single x (f none) []
    simp only [List.append_nil, List.find?_nil, Option.map_none, Option.or_none] at this
    simp only [alterEntries, this, List.find?_nil, Option.map_none, eq_comm]
  | cons d rest ih =>
    obtain ⟨k, b⟩ := d
    obtain ⟨hk, hrest⟩ := List.pairwise_cons.mp h
    simp only [alterEntries]
    split
    · rename_i hxk
      -- The name of `x` lies below all entries, so it was absent.
      have habsent : (((k, b) :: rest).find? fun e => e.1 == x) = none := by
        refine lookup_eq_none fun e he => ?_
        rcases List.mem_cons.mp he with rfl | he
        · exact hxk
        · exact String.lt_trans hxk (hk e he)
      rw [single, habsent]
      by_cases hxy : x.name = y.name
      · have hy : (((k, b) :: rest).find? fun e => e.1 == y) = none := by
          rw [← habsent]
          congr 1
          funext e
          exact Bool.eq_iff_iff.mpr (by rw [Variable.beq_iff, Variable.beq_iff, hxy])
        rw [if_pos hxy, if_pos hxy.symm, hy]
        simp
      · rw [if_neg hxy, if_neg (Ne.symm hxy)]
    · rename_i hxk
      split
      · rename_i hkx
        have hne : k.name ≠ x.name := fun heq => String.lt_irrefl _ (heq ▸ Variable.lt_iff.mp hkx)
        have hkx' : (k == x) = false :=
          Bool.eq_false_iff.mpr fun heq => hne (Variable.beq_iff.mp heq)
        by_cases hky : k.name = y.name
        · have hyx : y.name ≠ x.name := fun heq => hne (hky.trans heq)
          have hky' : (k == y) = true := Variable.beq_iff.mpr hky
          simp [hky', hyx]
        · have hky' : (k == y) = false :=
            Bool.eq_false_iff.mpr fun heq => hky (Variable.beq_iff.mp heq)
          simpa [List.find?_cons, hky', hkx'] using ih hrest
      · rename_i hkx
        -- Neither name is less than the other, so this is the entry of `x`.
        have heq : k.name = x.name :=
          String.le_antisymm (String.not_lt.mp hxk) (String.not_lt.mp hkx)
        have hkx' : (k == x) = true := Variable.beq_iff.mpr heq
        rw [single]
        by_cases hky : k.name = y.name
        · have hafter : (rest.find? fun e => e.1 == y) = none :=
            lookup_eq_none fun e he => Variable.lt_iff.mpr (hky ▸ Variable.lt_iff.mp (hk e he))
          rw [if_pos hky, if_pos (hky.symm.trans heq), hafter]
          simp [hkx']
        · have hky' : (k == y) = false :=
            Bool.eq_false_iff.mpr fun heq => hky (Variable.beq_iff.mp heq)
          rw [if_neg hky, if_neg fun hyx => hky (heq.trans hyx.symm)]
          simp [hky']

/-- Nothing is found in a table without entries. -/
@[simp] theorem find?_empty (x : Variable) : (empty : Table α).find? x = none := rfl

/-- The law of `alter`: one name is changed and all others are left alone. -/
theorem find?_alter (t : Table α) (x y : Variable) (f : Option α → Option α) :
    (t.alter x f).find? y = if y.name = x.name then f (t.find? x) else t.find? y :=
  lookup_alterEntries t.ascending

/-- A recorded value is found under its name, and the others are as they were. -/
theorem find?_insert (t : Table α) (x y : Variable) (a : α) :
    (t.insert x a).find? y = if y.name = x.name then some a else t.find? y :=
  t.find?_alter x y _

/-- Nothing is found under a name that was struck, and the others are as they were. -/
theorem find?_erase (t : Table α) (x y : Variable) :
    (t.erase x).find? y = if y.name = x.name then none else t.find? y :=
  t.find?_alter x y _

/-- A look-up goes by name. -/
theorem find?_congr (t : Table α) {x y : Variable} (h : x.name = y.name) :
    t.find? x = t.find? y := by
  have hbeq : (fun e : Variable × α => e.1 == x) = fun e => e.1 == y :=
    funext fun e => Bool.eq_iff_iff.mpr (by rw [Variable.beq_iff, Variable.beq_iff, h])
  rw [find?, find?, hbeq]

/-- The stored variables are those with an entry. -/
theorem contains_iff_mem_names {t : Table α} {x : Variable} :
    t.contains x = true ↔ x.name ∈ t.keys.map Variable.name := by
  simp only [contains, find?, Option.isSome_map, List.find?_isSome, keys, List.map_map,
    List.mem_map, Function.comp_apply, Variable.beq_iff]

end Table

/-- A set of variables, each name once. -/
abbrev VariableSet := Table Unit

/-- The set of the variables of a list. Of several with one name the first is kept. -/
def VariableSet.ofList (xs : List Variable) : VariableSet :=
  xs.foldl (fun set x => set.insert x ()) Table.empty

end BoundedEquations
