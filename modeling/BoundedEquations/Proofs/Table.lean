import BoundedEquations.Table
import Mathlib.Data.List.Basic

/-!
# `BoundedEquations.Proofs.Table`: look-ups, entries and names

A table can be read in three ways: by look-up, as its list of entries, and as its list of names.
The theorems move between them:

* `find?_eq_some_iff` and `mem_values_iff`: an entry is found under its name, and only there.
* `mem_names_iff_contains`: the names are those that are found.
* `names_eq_iff`: names ascend strictly, so tables that find the same names list the same names.
* `names_insert_of_contains`: recording a new value under a name that is there changes no name.
* `erase_of_contains_eq_false`: removing a name that is not there changes nothing.
* `eq_of_find?_eq`: a table is known by its keys and what is found under them.
* `insert_congr`: under a name that is there, the width of the asked variable makes no difference.
-/

set_option autoImplicit false

namespace BoundedEquations.Table

variable {α β : Type}

/-- The names of the stored variables, in ascending order. -/
def names (t : Table α) : List String := t.keys.map Variable.name

/-- The names ascend. -/
theorem pairwise_names (t : Table α) : t.names.Pairwise (· < ·) := by
  rw [names, keys, List.map_map]
  exact List.pairwise_map.mpr t.ascending

/-- No name is listed twice. -/
theorem nodup_names (t : Table α) : t.names.Nodup := by
  refine List.nodup_iff_pairwise_ne.mpr (t.pairwise_names.imp ?_)
  intro m n hlt heq
  rw [heq] at hlt
  exact String.lt_irrefl n hlt

/-- There are as many names as keys. -/
theorem length_names (t : Table α) : t.names.length = t.keys.length := List.length_map _

/-- Of two entries with one name there is only one, because names ascend strictly. -/
theorem eq_of_name_eq {t : Table α} {d e : Variable × α} (hd : d ∈ t.entries)
    (he : e ∈ t.entries) (h : d.1.name = e.1.name) : d = e := by
  obtain ⟨es, hes⟩ := t
  induction es with
  | nil => exact absurd hd List.not_mem_nil
  | cons c rest ih =>
    obtain ⟨hc, hrest⟩ := List.pairwise_cons.mp hes
    -- The first name lies below all others, so it does not come again.
    have hne : ∀ f ∈ rest, c.1.name ≠ f.1.name := by
      intro f hf heq
      have hlt := Variable.lt_iff.mp (hc f hf)
      rw [heq] at hlt
      exact String.lt_irrefl _ hlt
    rcases List.mem_cons.mp hd with hdc | hd'
    · rcases List.mem_cons.mp he with hec | he'
      · rw [hdc, hec]
      · rw [hdc] at h
        exact absurd h (hne e he')
    · rcases List.mem_cons.mp he with hec | he'
      · rw [hec] at h
        exact absurd h.symm (hne d hd')
      · exact ih hrest hd' he'

/-- What is found is recorded under a key of that name. -/
theorem find?_eq_some_iff {t : Table α} {x : Variable} {a : α} :
    t.find? x = some a ↔ ∃ k, (k, a) ∈ t.entries ∧ k.name = x.name := by
  constructor
  · intro h
    obtain ⟨⟨k, b⟩, hfound, rfl⟩ := Option.map_eq_some_iff.mp h
    have hbeq := List.find?_some hfound
    have hname := Variable.beq_iff.mp hbeq
    exact ⟨k, List.mem_of_find?_eq_some hfound, hname⟩
  · rintro ⟨k, hk, hname⟩
    have hsome : (t.entries.find? fun e => e.1 == x).isSome = true :=
      List.find?_isSome.mpr ⟨(k, a), hk, Variable.beq_iff.mpr hname⟩
    obtain ⟨e, he⟩ := Option.isSome_iff_exists.mp hsome
    have hbeq := List.find?_some he
    have hename := Variable.beq_iff.mp hbeq
    obtain rfl := eq_of_name_eq (List.mem_of_find?_eq_some he) hk (hename.trans hname.symm)
    rw [find?, he]
    rfl

/-- What is recorded under a key is found. -/
theorem find?_of_mem_entries {t : Table α} {k : Variable} {a : α} (h : (k, a) ∈ t.entries) :
    t.find? k = some a :=
  find?_eq_some_iff.mpr ⟨k, h, rfl⟩

/-- The values are those that can be found. -/
theorem mem_values_iff {t : Table α} {a : α} : a ∈ t.values ↔ ∃ x, t.find? x = some a := by
  constructor
  · intro h
    obtain ⟨⟨k, b⟩, hk, rfl⟩ := List.mem_map.mp h
    exact ⟨k, find?_of_mem_entries hk⟩
  · rintro ⟨x, hx⟩
    obtain ⟨k, hk, _⟩ := find?_eq_some_iff.mp hx
    exact List.mem_map.mpr ⟨(k, a), hk, rfl⟩

/-- A name is there just when something is found under it. -/
theorem contains_iff_exists {t : Table α} {x : Variable} :
    t.contains x = true ↔ ∃ a, t.find? x = some a :=
  Option.isSome_iff_exists

/-- Whether a variable is there depends on its name alone. -/
theorem contains_congr (t : Table α) {x y : Variable} (h : x.name = y.name) :
    t.contains x = t.contains y := by
  rw [contains, contains, t.find?_congr h]

/-- The listed names are those that are there. -/
theorem mem_names_iff_contains {t : Table α} {x : Variable} :
    x.name ∈ t.names ↔ t.contains x = true :=
  contains_iff_mem_names.symm

/-- A table is empty just when nothing can be found in it. -/
theorem isEmpty_iff {t : Table α} : t.isEmpty = true ↔ ∀ x, t.find? x = none := by
  rw [isEmpty, List.isEmpty_iff]
  constructor
  · intro h x
    rw [find?, h]
    rfl
  · intro h
    refine List.eq_nil_iff_forall_not_mem.mpr fun e he => ?_
    have hfind : t.find? e.1 = some e.2 := find?_of_mem_entries he
    exact absurd (hfind.symm.trans (h e.1)) (Option.some_ne_none _)

/-- After an entry is recorded its name is there, with those from before. -/
theorem contains_insert {t : Table α} {x y : Variable} {a : α} :
    (t.insert x a).contains y = true ↔ y.name = x.name ∨ t.contains y = true := by
  rw [contains, find?_insert]
  by_cases h : y.name = x.name
  · simp [h]
  · simp [h, contains]

/-- The same value can be recorded under all names of a list. -/
theorem find?_foldl_insert (t : Table α) (xs : List Variable) (a : α) (y : Variable) :
    (xs.foldl (fun t x => t.insert x a) t).find? y
      = if ∃ x ∈ xs, x.name = y.name then some a else t.find? y := by
  induction xs generalizing t with
  | nil => simp
  | cons x rest ih =>
    rw [List.foldl_cons, ih, find?_insert]
    by_cases hrest : ∃ x ∈ rest, x.name = y.name
    · simp [hrest]
    · by_cases hx : x.name = y.name
      · simp [hrest, hx]
      · simp [hrest, hx, Ne.symm hx]

/-- Two strictly ascending lists of names with the same members are the same list. -/
theorem names_eq_iff {t : Table α} {u : Table β} :
    t.names = u.names ↔ ∀ x, t.contains x = true ↔ u.contains x = true := by
  constructor
  · intro h x
    rw [← mem_names_iff_contains, ← mem_names_iff_contains, h]
  · intro h
    have hmem : ∀ n, n ∈ t.names ↔ n ∈ u.names := by
      intro n
      obtain ⟨x, rfl⟩ := Variable.exists_name_eq n
      rw [mem_names_iff_contains, mem_names_iff_contains]
      exact h x
    have hperm : t.names.Perm u.names :=
      (List.perm_ext_iff_of_nodup t.nodup_names u.nodup_names).mpr hmem
    refine hperm.eq_of_pairwise (fun m n _ _ hmn hnm => ?_) t.pairwise_names u.pairwise_names
    exact absurd (String.lt_trans hmn hnm) (String.lt_irrefl m)

/-- A new value under a name that is there adds no name. -/
theorem names_insert_of_contains {t : Table α} {x : Variable} (h : t.contains x = true) (a : α) :
    (t.insert x a).names = t.names := by
  refine names_eq_iff.mpr fun y => contains_insert.trans ⟨fun hy => ?_, Or.inr⟩
  rcases hy with hname | hy
  · rw [t.contains_congr hname]
    exact h
  · exact hy

/-- There is nothing to remove at a name that no entry has. -/
theorem alterEntries_none {x : Variable} {es : List (Variable × α)}
    (h : ∀ e ∈ es, e.1.name ≠ x.name) : alterEntries x (fun _ => none) es = es := by
  induction es with
  | nil => rfl
  | cons d rest ih =>
    obtain ⟨k, b⟩ := d
    have hk : k.name ≠ x.name := h (k, b) List.mem_cons_self
    rw [alterEntries]
    split
    · rfl
    · rename_i hxk
      split
      · rw [ih fun e he => h e (List.mem_cons_of_mem _ he)]
      · rename_i hkx
        exact absurd (String.le_antisymm (String.not_lt.mp hxk) (String.not_lt.mp hkx)) hk

/-- Striking a name that is not there changes nothing. -/
theorem erase_of_contains_eq_false {t : Table α} {x : Variable} (h : t.contains x = false) :
    t.erase x = t := by
  rw [← Bool.not_eq_true, ← mem_names_iff_contains] at h
  have hne : ∀ e ∈ t.entries, e.1.name ≠ x.name := by
    intro e he hname
    exact h (List.mem_map.mpr ⟨e.1, List.mem_map_of_mem he, hname⟩)
  simp only [erase, alter, alterEntries_none hne]

/-! ### Keys with their widths -/

/-- Recording a new value under a name that is there keeps the stored key. -/
theorem keys_insert_of_contains {t : Table α} {x : Variable} (h : t.contains x = true) (a : α) :
    (t.insert x a).keys = t.keys := by
  obtain ⟨es, hes⟩ := t
  rw [contains_iff_mem_names] at h
  show (alterEntries x (fun _ => some a) es).map Prod.fst = es.map Prod.fst
  induction es with
  | nil => exact absurd h List.not_mem_nil
  | cons d rest ih =>
    obtain ⟨k, b⟩ := d
    obtain ⟨hk, hrest⟩ := List.pairwise_cons.mp hes
    rw [alterEntries]
    by_cases hxk : x < k
    · -- The name would lie below all names of the table.
      obtain ⟨y, hy, hname⟩ := List.mem_map.mp h
      obtain ⟨e, he, rfl⟩ := List.mem_map.mp hy
      have hlt : x < e.1 := by
        rcases List.mem_cons.mp he with rfl | he
        · exact hxk
        · exact String.lt_trans hxk (hk e he)
      rw [Variable.lt_iff, hname] at hlt
      exact absurd hlt (String.lt_irrefl _)
    · rw [if_neg hxk]
      by_cases hkx : k < x
      · rw [if_pos hkx]
        have hmem : x.name ∈ (Table.mk rest hrest).keys.map Variable.name := by
          rcases List.mem_cons.mp h with heq | hmem
          · rw [Variable.lt_iff, heq] at hkx
            exact absurd hkx (String.lt_irrefl _)
          · exact hmem
        exact congrArg (k :: ·) (ih hrest hmem)
      · rw [if_neg hkx]
        rfl

/-- The entries are the keys with what is found under them. -/
theorem entries_eq_filterMap (t : Table α) :
    t.entries = t.keys.filterMap fun k => (t.find? k).map (k, ·) := by
  rw [keys, List.filterMap_map]
  have hsome : ∀ e ∈ t.entries,
      ((fun k => (t.find? k).map (k, ·)) ∘ Prod.fst) e = some e := by
    intro e he
    show (t.find? e.1).map (e.1, ·) = some e
    rw [find?_of_mem_entries he]
    rfl
  rw [List.filterMap_congr hsome, List.filterMap_some]

/-- Tables with the same keys are equal when the same is found under every name. -/
theorem eq_of_find?_eq {t u : Table α} (hkeys : t.keys = u.keys)
    (h : ∀ x, t.find? x = u.find? x) : t = u := by
  have hentries : t.entries = u.entries := by
    rw [t.entries_eq_filterMap, u.entries_eq_filterMap, hkeys]
    simp only [h]
  cases t
  cases u
  simpa using hentries

/-- Under a name that is there, it does not matter which width the asked variable carries. -/
theorem insert_congr {t : Table α} {x y : Variable} (hxy : x.name = y.name)
    (h : t.contains x = true) (a : α) : t.insert x a = t.insert y a := by
  have hy : t.contains y = true := (t.contains_congr hxy).symm.trans h
  refine eq_of_find?_eq ?_ fun z => ?_
  · rw [keys_insert_of_contains h, keys_insert_of_contains hy]
  · rw [find?_insert, find?_insert, hxy]

end BoundedEquations.Table
