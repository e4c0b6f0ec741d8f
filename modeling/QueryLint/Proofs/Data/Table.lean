import QueryLint.Data.Table
import Mathlib.Data.List.Nodup
import Mathlib.Tactic.SplitIfs

/-!
# Looking up in a table

An entry that is put into a table is what its name looks up from then on; every
other name looks up what it did before. A table is determined by what it answers
(`Table.ext_get?`), so what holds of answers holds of tables: laying tables over one
another is associative.
-/
namespace QueryLint
namespace Data

variable {α : Type}

theorem lookup_cons_eq_ite (query name : String) (value : α) (entries : List (String × α)) :
    ((name, value) :: entries).lookup query =
      if query = name then some value else entries.lookup query := by
  rw [List.lookup_cons]
  by_cases hquery : query = name
  · rw [if_pos hquery, beq_iff_eq.mpr hquery]
  · rw [if_neg hquery, beq_false_of_ne hquery]

theorem lookup_insertEntry (query name : String) (value : α) (entries : List (String × α)) :
    (insertEntry name value entries).lookup query =
      if query = name then some value else entries.lookup query := by
  induction entries with
  | nil => exact lookup_cons_eq_ite query name value []
  | cons head entries ih =>
    obtain ⟨other, old⟩ := head
    rw [insertEntry]
    by_cases hbefore : name < other
    · rw [if_pos hbefore, lookup_cons_eq_ite]
    · rw [if_neg hbefore]
      by_cases hname : name = other
      · rw [if_pos hname, lookup_cons_eq_ite, lookup_cons_eq_ite, ← hname]
        split_ifs <;> rfl
      · rw [if_neg hname, lookup_cons_eq_ite, lookup_cons_eq_ite, ih]
        by_cases hquery : query = other
        · have hne : query ≠ name := fun h => hname (h.symm.trans hquery)
          rw [if_pos hquery, if_neg hne, if_pos hquery]
        · rw [if_neg hquery, if_neg hquery]

theorem lookup_map {β : Type} (g : α → β) (entries : List (String × α)) (name : String) :
    (entries.map fun e => (e.1, g e.2)).lookup name = (entries.lookup name).map g := by
  induction entries with
  | nil => rfl
  | cons e entries ih =>
    obtain ⟨other, value⟩ := e
    simp only [List.map_cons, lookup_cons_eq_ite, ih]
    split_ifs <;> rfl

theorem lookup_filter (p : String → Bool) (entries : List (String × α)) (name : String) :
    (entries.filter fun e => p e.1).lookup name =
      if p name then entries.lookup name else none := by
  induction entries with
  | nil => simp
  | cons e entries ih =>
    obtain ⟨other, value⟩ := e
    by_cases hname : name = other
    · subst hname
      by_cases hp : p name = true
      · simp [hp]
      · simp [hp, ih]
    · by_cases hp : p other = true
      · simp [hp, lookup_cons_eq_ite, hname, ih]
      · simp [hp, lookup_cons_eq_ite, hname, ih]

/-- Of entries that are put in one after the other, the last one answers, and each of
them before what was there. -/
theorem lookup_foldl_insertEntry (query : String) (entries sorted : List (String × α)) :
    (entries.foldl (fun sorted e => insertEntry e.1 e.2 sorted) sorted).lookup query =
      (entries.reverse.lookup query).or (sorted.lookup query) := by
  induction entries generalizing sorted with
  | nil => rfl
  | cons e entries ih =>
    obtain ⟨name, value⟩ := e
    simp only [List.foldl_cons, ih, List.reverse_cons, List.lookup_append, lookup_insertEntry,
      lookup_cons_eq_ite, List.lookup_nil, Option.or_assoc]
    split_ifs <;> simp

theorem Ascending.nodup {entries : List (String × α)} (h : Ascending entries) :
    (entries.map Prod.fst).Nodup := by
  apply List.pairwise_map.mpr
  apply h.imp
  intro a b hlt heq
  rw [heq] at hlt
  exact String.lt_irrefl _ hlt

theorem lookup_eq_some_iff_mem {entries : List (String × α)}
    (h : (entries.map Prod.fst).Nodup) {name : String} {value : α} :
    entries.lookup name = some value ↔ (name, value) ∈ entries := by
  induction entries with
  | nil => simp
  | cons e entries ih =>
    obtain ⟨other, old⟩ := e
    obtain ⟨hother, hnodup⟩ := List.nodup_cons.mp h
    rw [lookup_cons_eq_ite, List.mem_cons, Prod.mk.injEq]
    by_cases hname : name = other
    · subst hname
      have hnone : (name, value) ∉ entries := by
        intro hmem
        exact hother (List.mem_map.mpr ⟨_, hmem, rfl⟩)
      simp [hnone, eq_comm]
    · simp [hname, ih hnodup]

theorem lookup_reverse {entries : List (String × α)} (h : (entries.map Prod.fst).Nodup)
    (name : String) : entries.reverse.lookup name = entries.lookup name := by
  have hreverse : (entries.reverse.map Prod.fst).Nodup := by simpa using h
  ext value
  simp [lookup_eq_some_iff_mem h, lookup_eq_some_iff_mem hreverse]

namespace Table

theorem get?_insert (t : Table α) (name : String) (value : α) (query : String) :
    (t.insert name value).get? query = if query = name then some value else t.get? query :=
  lookup_insertEntry query name value t.entries

theorem ext_get? {t u : Table α} (h : ∀ name, t.get? name = u.get? name) : t = u := by
  have hperm : t.entries.Perm u.entries := by
    have ht := t.ascending.nodup
    have hu := u.ascending.nodup
    apply (List.perm_ext_iff_of_nodup ht.of_map hu.of_map).mpr
    rintro ⟨name, value⟩
    rw [← lookup_eq_some_iff_mem ht, ← lookup_eq_some_iff_mem hu]
    exact Eq.congr_left (h name)
  have hentries : t.entries = u.entries := by
    apply hperm.eq_of_pairwise ?_ t.ascending u.ascending
    intro a b _ _ hab hba
    exact absurd (String.lt_trans hab hba) (String.lt_irrefl _)
  obtain ⟨entries, hsorted⟩ := t
  subst hentries
  rfl

@[simp]
theorem get?_empty (name : String) : (empty : Table α).get? name = none := rfl

theorem entries_insertAll (t : Table α) (entries : List (String × α)) :
    (t.insertAll entries).entries =
      entries.foldl (fun sorted e => insertEntry e.1 e.2 sorted) t.entries := by
  induction entries generalizing t with
  | nil => rfl
  | cons e entries ih => exact ih (t.insert e.1 e.2)

@[simp]
theorem get?_extend (t u : Table α) (name : String) :
    (t.extend u).get? name = (u.get? name).or (t.get? name) := by
  unfold get? extend
  rw [entries_insertAll, lookup_foldl_insertEntry, lookup_reverse u.ascending.nodup]

theorem isEmpty_iff {t : Table α} : t.isEmpty = true ↔ t = empty := by
  constructor
  · intro h
    apply ext_get?
    intro name
    rw [get?, List.isEmpty_iff.mp h]
    rfl
  · rintro rfl
    rfl

theorem empty_extend (t : Table α) : empty.extend t = t :=
  ext_get? (by simp)

theorem extend_self (t : Table α) : t.extend t = t :=
  ext_get? (by simp)

theorem extend_assoc (t u v : Table α) : (t.extend u).extend v = t.extend (u.extend v) :=
  ext_get? (by simp [Option.or_assoc])

theorem eq_empty_of_extend {t u : Table α} (h : t.extend u = empty) : u = empty := by
  apply ext_get?
  intro name
  have hnone := congrArg (·.get? name) h
  simp only [get?_extend, get?_empty, Option.or_eq_none_iff] at hnone
  exact hnone.1

theorem pairwise_names (t : Table α) : t.names.Pairwise (· < ·) :=
  List.pairwise_map.mpr t.ascending

theorem mem_names_iff {t : Table α} {name : String} :
    name ∈ t.names ↔ (t.get? name).isSome = true := by
  rw [names, List.mem_map, Option.isSome_iff_exists]
  constructor
  · rintro ⟨⟨_, value⟩, hmem, rfl⟩
    exact ⟨value, (lookup_eq_some_iff_mem t.ascending.nodup).mpr hmem⟩
  · rintro ⟨value, hvalue⟩
    exact ⟨_, (lookup_eq_some_iff_mem t.ascending.nodup).mp hvalue, rfl⟩

theorem mem_names_insert {t : Table α} {name other : String} {value : α} :
    other ∈ (t.insert name value).names ↔ other = name ∨ other ∈ t.names := by
  rw [mem_names_iff, mem_names_iff, get?_insert]
  split_ifs with h <;> simp [h]

theorem mem_names_extend {t u : Table α} {name : String} :
    name ∈ (t.extend u).names ↔ name ∈ t.names ∨ name ∈ u.names := by
  simp only [mem_names_iff, get?_extend, Option.isSome_or, Bool.or_eq_true]
  exact or_comm

/-- It makes no difference in which order a table is filled with its entries. -/
theorem ofList_eq_of_perm {t : Table α} {entries : List (String × α)}
    (h : entries.Perm t.entries) : ofList entries = t := by
  have hnames : (entries.map Prod.fst).Nodup :=
    (h.map Prod.fst).nodup_iff.mpr t.ascending.nodup
  apply ext_get?
  intro name
  unfold ofList get?
  rw [entries_insertAll, lookup_foldl_insertEntry, lookup_reverse hnames]
  ext value
  simp [empty, lookup_eq_some_iff_mem hnames, lookup_eq_some_iff_mem t.ascending.nodup, h.mem_iff]

end Table

end Data
end QueryLint
