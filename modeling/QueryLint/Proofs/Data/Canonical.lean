import QueryLint.Data.Value

/-!
# Canonical values

Entries come out of sorting with ascending names, and entries whose names ascend stay
as they are. So a value that has been made canonical stays the same when it is made
canonical again, and an object is canonical exactly when its names ascend and its
fields are canonical.
-/
namespace QueryLint
namespace Data

variable {α : Type}

theorem insertEntry_of_lt {name : String} {value : α} {entries : List (String × α)}
    (h : ∀ e ∈ entries, e.1 < name) :
    insertEntry name value entries = entries ++ [(name, value)] := by
  induction entries with
  | nil => rfl
  | cons head entries ih =>
    have hhead : head.1 < name := h head List.mem_cons_self
    have hle : ¬name < head.1 := fun hlt => String.lt_irrefl _ (String.lt_trans hhead hlt)
    have hne : name ≠ head.1 := fun heq => String.lt_irrefl _ (heq ▸ hhead)
    rw [insertEntry, if_neg hle, if_neg hne, ih fun e he => h e (List.mem_cons_of_mem _ he)]
    rfl

theorem foldl_insertEntry_of_ascending {sorted entries : List (String × α)}
    (h : Ascending (sorted ++ entries)) :
    entries.foldl (fun sorted e => insertEntry e.1 e.2 sorted) sorted = sorted ++ entries := by
  induction entries generalizing sorted with
  | nil => rw [List.foldl_nil, List.append_nil]
  | cons e entries ih =>
    have hlt : ∀ s ∈ sorted, s.1 < e.1 := by
      intro s hs
      exact (List.pairwise_append.mp h).2.2 s hs e List.mem_cons_self
    rw [List.append_cons] at h
    rw [List.foldl_cons, insertEntry_of_lt hlt, ih h, List.append_assoc, List.singleton_append]

theorem sortEntries_of_ascending {entries : List (String × α)} (h : Ascending entries) :
    sortEntries entries = entries := by
  have happend : Ascending ([] ++ entries) := h
  exact foldl_insertEntry_of_ascending happend

theorem ascending_foldl_insertEntry {sorted : List (String × α)} (h : Ascending sorted)
    (entries : List (String × α)) :
    Ascending (entries.foldl (fun sorted e => insertEntry e.1 e.2 sorted) sorted) := by
  induction entries generalizing sorted with
  | nil => exact h
  | cons e entries ih => exact ih (h.insertEntry e.1 e.2)

theorem ascending_sortEntries (entries : List (String × α)) : Ascending (sortEntries entries) :=
  ascending_foldl_insertEntry List.Pairwise.nil entries

theorem mem_of_mem_foldl_insertEntry {sorted entries : List (String × α)} {e : String × α}
    (h : e ∈ entries.foldl (fun sorted e => insertEntry e.1 e.2 sorted) sorted) :
    e ∈ sorted ∨ e ∈ entries := by
  induction entries generalizing sorted with
  | nil => exact Or.inl h
  | cons head entries ih =>
    rcases ih h with h | h
    · rcases mem_insertEntry h with rfl | h
      · exact Or.inr List.mem_cons_self
      · exact Or.inl h
    · exact Or.inr (List.mem_cons_of_mem _ h)

theorem mem_of_mem_sortEntries {entries : List (String × α)} {e : String × α}
    (h : e ∈ sortEntries entries) : e ∈ entries :=
  (mem_of_mem_foldl_insertEntry h).resolve_left List.not_mem_nil

namespace Value

theorem canonicalItems_eq_map (items : List Value) :
    canonicalItems items = items.map canonical := by
  induction items with
  | nil => rfl
  | cons v items ih => rw [canonicalItems, ih, List.map_cons]

theorem canonicalFields_eq_map (fields : List (String × Value)) :
    canonicalFields fields = fields.map fun f => (f.1, f.2.canonical) := by
  induction fields with
  | nil => rfl
  | cons f fields ih => rw [canonicalFields, ih, List.map_cons]

/-- Whether making a value canonical leaves it as it is. -/
def IsCanonical (v : Value) : Prop := v.canonical = v

theorem isCanonical_array_iff {items : List Value} :
    (array items).IsCanonical ↔ ∀ v ∈ items, v.IsCanonical := by
  have hmap := List.map_inj_left (l := items) (f := canonical) (g := id)
  rw [List.map_id] at hmap
  rw [IsCanonical, canonical, array.injEq, canonicalItems_eq_map]
  exact hmap

theorem canonicalFields_eq_self {fields : List (String × Value)}
    (h : ∀ f ∈ fields, f.2.IsCanonical) : canonicalFields fields = fields := by
  induction fields with
  | nil => rfl
  | cons f fields ih =>
    have hhead : f.2.canonical = f.2 := h f List.mem_cons_self
    rw [canonicalFields, hhead, ih fun g hg => h g (List.mem_cons_of_mem _ hg)]

theorem isCanonical_object {fields : List (String × Value)} (hascending : Ascending fields)
    (h : ∀ f ∈ fields, f.2.IsCanonical) : (object fields).IsCanonical := by
  rw [IsCanonical, canonical, canonicalFields_eq_self h, sortEntries_of_ascending hascending]

mutual

theorem isCanonical_canonical : ∀ v : Value, v.canonical.IsCanonical
  | .null => rfl
  | .bool _ => rfl
  | .number (.int _) => rfl
  | .number (.float _) => rfl
  | .number .nonFinite => rfl
  | .string _ => rfl
  | .array items => isCanonical_array_iff.mpr (isCanonical_of_mem_canonicalItems items)
  | .object fields => by
    apply isCanonical_object (ascending_sortEntries _)
    intro f hf
    exact isCanonical_of_mem_canonicalFields fields f (mem_of_mem_sortEntries hf)

theorem isCanonical_of_mem_canonicalItems :
    ∀ items : List Value, ∀ v ∈ canonicalItems items, v.IsCanonical
  | [], _, h => absurd h List.not_mem_nil
  | v :: vs, _, h => by
    rcases List.mem_cons.mp h with rfl | h
    · exact isCanonical_canonical v
    · exact isCanonical_of_mem_canonicalItems vs _ h

theorem isCanonical_of_mem_canonicalFields :
    ∀ fields : List (String × Value), ∀ f ∈ canonicalFields fields, f.2.IsCanonical
  | [], _, h => absurd h List.not_mem_nil
  | (_, v) :: fields, _, h => by
    rcases List.mem_cons.mp h with rfl | h
    · exact isCanonical_canonical v
    · exact isCanonical_of_mem_canonicalFields fields _ h

end

theorem isCanonical_object_iff {fields : List (String × Value)} :
    (object fields).IsCanonical ↔ Ascending fields ∧ ∀ f ∈ fields, f.2.IsCanonical := by
  constructor
  · intro h
    have hsorted : sortEntries (canonicalFields fields) = fields := by
      rw [IsCanonical, canonical, object.injEq] at h
      exact h
    rw [← hsorted]
    refine ⟨ascending_sortEntries _, ?_⟩
    intro f hf
    exact isCanonical_of_mem_canonicalFields fields f (mem_of_mem_sortEntries hf)
  · rintro ⟨hascending, hfields⟩
    exact isCanonical_object hascending hfields

end Value
end Data
end QueryLint
