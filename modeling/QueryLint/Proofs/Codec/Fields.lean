import QueryLint.Config.Lint
import QueryLint.Proofs.Codec.RuleEntry
import QueryLint.Proofs.Data.Table

/-!
# The fields of an object and the options of a rule

Of the fields of an object that writes a rule entry, three say how the rule is set up,
and the others are options of their own. `RuleEntry.OptionsOf` says what becomes of
them, name by name. Whatever is read has at least one instance in every list, and lists
do not nest, so the level of a rule is the level of its first instance.
-/
namespace QueryLint

namespace Data

namespace Value

/-- The value of a field of an object; the last one of a name counts. -/
def field? (name : String) : Value → Option Value
  | object fields => fields.reverse.lookup name
  | _ => none

theorem field?_append (name : String) (fields fields' : List (String × Value)) :
    (object (fields ++ fields')).field? name =
      ((object fields').field? name).or ((object fields).field? name) := by
  simp [field?, List.lookup_append]

theorem field?_sortEntries (name : String) (fields : List (String × Value)) :
    (object (sortEntries fields)).field? name = (object fields).field? name := by
  simp only [field?, lookup_reverse (ascending_sortEntries fields).nodup]
  simp [sortEntries, lookup_foldl_insertEntry]

theorem field?_canonicalFields (name : String) (fields : List (String × Value)) :
    (object (canonicalFields fields)).field? name =
      ((object fields).field? name).map canonical := by
  simp [field?, canonicalFields_eq_map, ← List.map_reverse, lookup_map]

theorem field?_canonical (name : String) (v : Value) :
    v.canonical.field? name = (v.field? name).map canonical := by
  cases v with
  | object fields => rw [canonical, field?_sortEntries, field?_canonicalFields]
  | number n => cases n <;> rfl
  | _ => rfl

theorem canonical_canonical (v : Value) : v.canonical.canonical = v.canonical :=
  isCanonical_canonical v

theorem exists_fields_of_canonical {v : Value} {fields : List (String × Value)}
    (h : v.canonical = .object fields) : ∃ given, v = .object given := by
  cases v with
  | object given => exact ⟨given, rfl⟩
  | number n => cases n <;> cases h
  | _ => cases h

theorem field?_eq_none_of_isNull {v : Value} (h : v.canonical.isNull = true) (name : String) :
    v.field? name = none := by
  cases v with
  | object fields => cases h
  | _ => rfl

end Value
end Data

open Data (Value)

namespace RuleEntry

/-- What the options of an entry have to do with the fields of the value that writes it.
Options that are given and are no object are taken whole. Otherwise each name stands for
the value that it has in the given options, or else, unless it is one of the three names
with a meaning of their own, for its value beside them. -/
structure OptionsOf (v : Value) (e : RuleEntry) : Prop where
  whole : ∀ o, v.field? "options" = some o → o.canonical.isNull = false →
    (∀ fields, o ≠ .object fields) → e.options? = some o.canonical
  byName : (∀ o, v.field? "options" = some o →
      o.canonical.isNull = true ∨ ∃ fields, o = .object fields) →
    ∀ name, e.options?.bind (·.field? name) =
      (((v.field? "options").bind (·.field? name)).or
        (if name = "severity" ∨ name = "enabled" ∨ name = "options" then none
          else v.field? name)).map Value.canonical

theorem soleField_eq_ok {name : String} {fields : List (String × Value)} {given : Option Value}
    (h : soleField name fields = .ok given) : (Value.object fields).field? name = given := by
  have hfilter : (Value.object fields).field? name =
      (Value.object (fields.filter fun f => f.1 == name)).field? name := by
    simp [Value.field?, ← List.filter_reverse, Data.lookup_filter (· == name)]
  rw [hfilter]
  unfold soleField at h
  split at h
  · rename_i hnone
    obtain rfl := Except.ok.inj h
    rw [hnone]
    rfl
  · rename_i f hone
    obtain rfl := Except.ok.inj h
    have hname : f.1 = name := by
      have hmem : f ∈ fields.filter fun f => f.1 == name := by simp [hone]
      simpa using (List.mem_filter.mp hmem).2
    rw [hone, ← hname]
    simp only [Value.field?, List.reverse_singleton]
    exact (Data.lookup_cons_eq_ite f.1 f.1 f.2 []).trans (if_pos rfl)
  · cases h

theorem field?_inlineFields (fields : List (String × Value)) (name : String) :
    (Value.object (inlineFields fields)).field? name =
      if name = "severity" ∨ name = "enabled" ∨ name = "options" then none
      else ((Value.object fields).field? name).map Value.canonical := by
  rw [inlineFields, Value.field?_sortEntries, Value.field?_canonicalFields]
  simp only [Value.field?, ← List.filter_reverse,
    Data.lookup_filter fun name => !ownFields.contains name]
  have hiff : name ∈ ownFields ↔ name = "severity" ∨ name = "enabled" ∨ name = "options" := by
    simp [ownFields]
  simp only [← hiff]
  by_cases hown : name ∈ ownFields
  · simp [hown]
  · simp [hown]

/-- Given options count before those beside them. -/
theorem field?_withInline {options : Option Value} (inline : List (String × Value))
    (h : ∀ o, options = some o → ∃ fields, o = .object fields) (name : String) :
    (withInline options inline).bind (·.field? name) =
      (options.bind (·.field? name)).or ((Value.object inline).field? name) := by
  unfold withInline
  split_ifs with hempty
  · simp [List.isEmpty_iff.mp hempty, Value.field?]
  · cases options with
    | none => rfl
    | some o =>
      obtain ⟨explicit, rfl⟩ := h o rfl
      simp only [Option.bind_some, Value.field?_sortEntries, Value.field?_append]

theorem optionsOf_ofFields {fields : List (String × Value)} {e : RuleEntry}
    (h : ofFields fields = .ok e) : OptionsOf (.object fields) e := by
  rw [ofFields_eq] at h
  simp only [bind_eq_ok] at h
  obtain ⟨_, -, _, -, _, -, _, -, given, hgiven, level, -, he⟩ := h
  obtain rfl := Except.ok.inj he
  obtain rfl := soleField_eq_ok hgiven
  constructor
  · intro o ho hnull hfields
    rw [options?, ho, Option.bind_some, present?, hnull, if_neg Bool.false_ne_true]
    unfold withInline
    split_ifs
    · rfl
    · split
      · rename_i hnone
        cases hnone
      · rename_i explicit hexplicit
        obtain ⟨given, rfl⟩ := Value.exists_fields_of_canonical (Option.some.inj hexplicit)
        exact absurd rfl (hfields given)
      · rename_i other _ hother
        exact hother.symm
  · intro hroom name
    rw [options?, field?_withInline, field?_inlineFields, Option.map_or]
    · congr 1
      · cases hgiven : (Value.object fields).field? "options" with
        | none => rfl
        | some o =>
          simp only [Option.bind_some, present?]
          split_ifs with hnull
          · rw [Value.field?_eq_none_of_isNull hnull]
            rfl
          · exact Value.field?_canonical name o
      · split_ifs <;> rfl
    · intro o ho
      obtain ⟨given, hgiven, ho⟩ := Option.bind_eq_some_iff.mp ho
      unfold present? at ho
      split_ifs at ho with hnull
      obtain rfl := Option.some.inj ho
      rcases hroom given hgiven with hnull' | ⟨explicit, rfl⟩
      · exact absurd hnull' hnull
      · exact ⟨_, rfl⟩

theorem OptionsOf.of_canonical {v : Value} {e : RuleEntry} (h : OptionsOf v.canonical e) :
    OptionsOf v e := by
  have hoptions := Value.field?_canonical "options" v
  constructor
  · intro o ho hnull hfields
    rw [ho, Option.map_some] at hoptions
    rw [← Value.canonical_canonical o] at hnull
    rw [h.whole _ hoptions hnull, Value.canonical_canonical]
    intro fields hobject
    obtain ⟨given, rfl⟩ := Value.exists_fields_of_canonical hobject
    exact hfields given rfl
  · intro hroom name
    have hmap : ∀ o : Option Value, (o.map Value.canonical).map Value.canonical =
        o.map Value.canonical := by
      intro o
      simp [Function.comp_def, Value.canonical_canonical]
    have hgiven : ((v.field? "options").map Value.canonical).bind (·.field? name) =
        ((v.field? "options").bind (·.field? name)).map Value.canonical := by
      cases v.field? "options" with
      | none => rfl
      | some o => exact Value.field?_canonical name o
    rw [h.byName, hoptions, hgiven, Value.field?_canonical, Option.map_or, Option.map_or, hmap]
    · congr 1
      split_ifs
      · rfl
      · exact hmap _
    · intro o ho
      rw [hoptions] at ho
      obtain ⟨given, hgiven, rfl⟩ := Option.map_eq_some_iff.mp ho
      rw [Value.canonical_canonical]
      rcases hroom given hgiven with hnull | ⟨fields, rfl⟩
      · exact Or.inl hnull
      · exact Or.inr ⟨_, rfl⟩

theorem optionsOf_decodeItems {items : List Value} {es : List RuleEntry}
    (h : decodeItems (Value.canonicalItems items) = .ok es) :
    List.Forall₂ (fun item e => (∃ fields, item = .object fields) → OptionsOf item e) items es := by
  induction items generalizing es with
  | nil =>
    obtain rfl := Except.ok.inj h
    exact .nil
  | cons item items ih =>
    obtain ⟨e, rest, he, -, hrest, rfl⟩ := decodeItems_cons_eq_ok.mp h
    refine .cons ?_ (ih hrest)
    rintro ⟨fields, rfl⟩
    have hcanonical : OptionsOf (Value.object fields).canonical e := optionsOf_ofFields he
    exact hcanonical.of_canonical

/-- Whether an entry stands within another one, at any depth. -/
inductive Within (part : RuleEntry) : RuleEntry → Prop
  | self : Within part part
  | item {e : RuleEntry} {es : List RuleEntry} (hmem : e ∈ es) (h : Within part e) :
      Within part (.instances es)

theorem Single.eq_of_within {part e : RuleEntry} (h : Single e) (hpart : Within part e) :
    part = e := by
  cases h with
  | plain l =>
    cases hpart
    rfl
  | detailed l enabled hoptions =>
    cases hpart
    rfl

/-- What stands within an entry in normal form is that entry or one of its instances. -/
theorem Normal.of_within {part e : RuleEntry} (h : Normal e) (hpart : Within part e) :
    part = e ∨ Single part := by
  cases hpart with
  | self => exact Or.inl rfl
  | @item e' es hmem hpart =>
    cases h with
    | single h => cases h
    | instances hne hsingle =>
      have he := hsingle e' hmem
      exact Or.inr (he.eq_of_within hpart ▸ he)

theorem Normal.instances_within {e : RuleEntry} {es : List RuleEntry} (h : Normal e)
    (hpart : Within (.instances es) e) : es ≠ [] ∧ ∀ e' ∈ es, e'.isInstances = false := by
  rcases h.of_within hpart with rfl | hsingle
  · cases h with
    | single h => cases h
    | instances hne hsingle => exact ⟨hne, fun e' he' => (hsingle e' he').not_isInstances⟩
  · cases hsingle

theorem Normal.options_within {e : RuleEntry} {l : Option Level} {enabled : Option Bool}
    {options : Option Value} (h : Normal e) (hpart : Within (.detailed l enabled options) e) :
    options ≠ some .null := by
  have hsingle : Single (.detailed l enabled options) := by
    rcases h.of_within hpart with rfl | hsingle
    · cases h with
      | single h => exact h
    · exact hsingle
  cases hsingle with
  | detailed _ _ hoptions =>
    rintro rfl
    exact absurd (hoptions .null rfl).2 (by decide)

theorem Normal.effective_eq {e : RuleEntry} (h : Normal e) :
    e.settings ≠ [] ∧ e.settings.head?.map RuleSetting.level = some e.effective := by
  cases h with
  | single h => cases h <;> exact ⟨List.cons_ne_nil _ _, rfl⟩
  | @instances es hne hsingle =>
    obtain ⟨first, rest, rfl⟩ := List.exists_cons_of_ne_nil hne
    have hfirst : (RuleEntry.instances (first :: rest)).effective = first.effective := by
      rw [effective]
    rw [hfirst]
    exact ⟨List.cons_ne_nil _ _, rfl⟩

end RuleEntry

/-- Whatever value an entry is read from, no list of instances stands within a list of
instances or is empty, and nowhere are options null. If the value is an object, the
options are its fields, name by name, those that are given as options first, and the
same holds of each object in a list. So a rule that has the entry in a configuration has
an instance, and its level is that of its first instance. -/
theorem entry_normal_of_ofValue {v : Value} {e : RuleEntry} (h : RuleEntry.ofValue v = .ok e) :
    (∀ es, RuleEntry.Within (.instances es) e → es ≠ [] ∧ ∀ e' ∈ es, e'.isInstances = false) ∧
    (∀ l enabled options, RuleEntry.Within (.detailed l enabled options) e →
      options ≠ some .null) ∧
    (∀ fields, v = .object fields → RuleEntry.OptionsOf v e) ∧
    (∀ items es, v = .array items → e = .instances es →
      List.Forall₂ (fun item e => (∃ fields, item = .object fields) → RuleEntry.OptionsOf item e)
        items es) ∧
    ∀ (c : LintConfig) (name : String), c.table.get? name = some e →
      c.settings name ≠ [] ∧
        c.level? name = (c.settings name).head?.map RuleSetting.level := by
  have hnormal := RuleEntry.normal_of_ofValue h
  refine ⟨fun es => hnormal.instances_within, fun l enabled options => hnormal.options_within,
    ?_, ?_, ?_⟩
  · rintro fields rfl
    exact RuleEntry.optionsOf_ofFields h
  · rintro items es rfl rfl
    have hitems : ∀ ws, Value.array (Value.canonicalItems items) = .array ws →
        ∀ w ∈ ws, w.IsCanonical := by
      rintro ws ⟨⟩
      exact Value.isCanonical_of_mem_canonicalItems items
    rcases RuleEntry.single_or_instances_of_decode hitems h with hsingle | ⟨_, _, ⟨⟩, -, hes, ⟨⟩⟩
    · cases hsingle
    · exact RuleEntry.optionsOf_decodeItems hes
  · intro c name hentry
    obtain ⟨hne, hhead⟩ := hnormal.effective_eq
    have hsettings : c.settings name = e.settings := by simp [LintConfig.settings, hentry]
    rw [hsettings, hhead]
    exact ⟨hne, by simp [LintConfig.level?, hentry]⟩

/-- Three forms of an entry in one list: an object with a field of the same name as one of
the options that it gives, a level with options that are null, and a flag. -/
theorem entry_normal_of_ofValue_list :
    let item : Value := .object
      [("severity", .string "Warn"), ("position", .string "leading"), ("width", .bool true),
        ("options", .object [("position", .string "trailing")])]
    let v : Value := .array [item, .array [.string "error", .null], .bool false]
    let first : RuleEntry := .detailed (some .warn) none
      (some (.object [("position", .string "trailing"), ("width", .bool true)]))
    let e : RuleEntry := .instances [first, .plain .error, .plain .off]
    let c := LintConfig.empty.withRule "leading-comma" e
    RuleEntry.ofValue v = .ok e ∧ RuleEntry.OptionsOf item first ∧
      c.level? "leading-comma" = some .warn ∧ (c.settings "leading-comma").length = 3 ∧
      c.level? "leading-comma" =
        (c.settings "leading-comma").head?.map RuleSetting.level := by
  intro item v first e c
  have hread : RuleEntry.ofValue v = .ok e := rfl
  obtain ⟨-, -, -, hitems, hconfig⟩ := entry_normal_of_ofValue hread
  have hitem : RuleEntry.OptionsOf item first := by
    cases hitems _ _ rfl rfl with
    | cons hfirst _ => exact hfirst ⟨_, rfl⟩
  exact ⟨hread, hitem, rfl, rfl, (hconfig c "leading-comma" rfl).2⟩

end QueryLint
