import QueryLint.Codec.RuleEntry
import QueryLint.Proofs.Data.Canonical
import Mathlib.Tactic.SplitIfs

/-!
# Writing an entry and reading it again

Whatever form a rule entry is written in, what is read is in normal form: instances
do not nest and there is at least one, and options are canonical and not null. In
normal form an entry is read again as it was written, with one exception. A list of
instances that starts with a level alone is written as an array that starts with a
string, and such an array is read as a level with options.
-/
namespace QueryLint

open Data (Value)

theorem bind_eq_ok {ε α β : Type} {x : Except ε α} {f : α → Except ε β} {b : β} :
    (x >>= f) = .ok b ↔ ∃ a, x = .ok a ∧ f a = .ok b := by
  cases x with
  | error fault => simp [bind, Except.bind]
  | ok a => simp [bind, Except.bind]

theorem map_eq_ok {ε α β : Type} {x : Except ε α} {f : α → β} {b : β} :
    f <$> x = .ok b ↔ ∃ a, x = .ok a ∧ f a = b := by
  cases x with
  | error fault => simp [Functor.map, Except.map]
  | ok a => simp [Functor.map, Except.map]

namespace RuleEntry

variable {v : Value} {e : RuleEntry} {es : List RuleEntry}

/-- Options in normal form: canonical, and none in place of null. -/
def NormalOptions (options : Option Value) : Prop :=
  ∀ v, options = some v → v.IsCanonical ∧ v.isNull = false

/-- An entry of one instance, in normal form. -/
inductive Single : RuleEntry → Prop
  | plain (l : Level) : Single (.plain l)
  | detailed (l : Option Level) (enabled : Option Bool) {options : Option Value}
      (h : NormalOptions options) : Single (.detailed l enabled options)

/-- An entry in normal form. -/
inductive Normal : RuleEntry → Prop
  | single {e : RuleEntry} (h : Single e) : Normal e
  | instances {es : List RuleEntry} (hne : es ≠ []) (h : ∀ e ∈ es, Single e) :
      Normal (.instances es)

theorem Single.not_isInstances (h : Single e) : e.isInstances = false := by
  cases h <;> rfl

/-- The name of a level that a field gives. -/
def severityName : Option Value → Except EntryFault (Option String)
  | none | some .null => .ok none
  | some (.string name) => .ok (some name)
  | some _ => .error .malformed

def enabledFlag : Option Value → Except EntryFault (Option Bool)
  | none | some .null => .ok none
  | some (.bool b) => .ok (some b)
  | some _ => .error .malformed

/-- The level of a name, if there is a name. -/
def statedLevel : Option String → Except EntryFault (Option Level)
  | some name => some <$> parseLevel name
  | none => .ok none

def inlineFields (fields : List (String × Value)) : List (String × Value) :=
  Data.sortEntries (Value.canonicalFields (fields.filter fun f => !ownFields.contains f.1))

theorem ofFields_eq (fields : List (String × Value)) :
    ofFields fields = (do
      let severity ← severityName (← soleField "severity" fields)
      let enabled ← enabledFlag (← soleField "enabled" fields)
      let given ← soleField "options" fields
      let level ← statedLevel severity
      return .detailed level enabled
        (withInline (given.bind fun v => present? v.canonical) (inlineFields fields))) := by
  unfold ofFields
  cases soleField "severity" fields with
  | error fault => rfl
  | ok severity =>
    cases soleField "enabled" fields with
    | error fault => rcases severity with _ | (_ | _ | _ | _ | _ | _) <;> rfl
    | ok enabled =>
      rcases severity with _ | (_ | _ | _ | _ | _ | _) <;>
        rcases enabled with _ | (_ | _ | _ | _ | _ | _) <;> rfl

theorem isCanonical_inlineFields (fields : List (String × Value)) :
    (Value.object (inlineFields fields)).IsCanonical :=
  Value.isCanonical_canonical (.object (fields.filter fun f => !ownFields.contains f.1))

theorem normalOptions_present? (h : v.IsCanonical) : NormalOptions (present? v) := by
  intro w hw
  unfold present? at hw
  split_ifs at hw with hnull
  obtain rfl := Option.some.inj hw
  exact ⟨h, by simpa using hnull⟩

theorem normalOptions_bind_present? (given : Option Value) :
    NormalOptions (given.bind fun v => present? v.canonical) := by
  cases given with
  | none => simp [NormalOptions]
  | some v => exact normalOptions_present? (Value.isCanonical_canonical v)

theorem normalOptions_withInline {options : Option Value} {inline : List (String × Value)}
    (h : NormalOptions options) (hinline : (Value.object inline).IsCanonical) :
    NormalOptions (withInline options inline) := by
  intro v hv
  unfold withInline at hv
  split_ifs at hv
  · exact h v hv
  · split at hv
    · obtain rfl := Option.some.inj hv
      exact ⟨hinline, rfl⟩
    · rename_i explicit
      obtain rfl := Option.some.inj hv
      obtain ⟨-, hfields⟩ := Value.isCanonical_object_iff.mp hinline
      obtain ⟨-, hfields'⟩ := Value.isCanonical_object_iff.mp (h _ rfl).1
      refine ⟨Value.isCanonical_object (Data.ascending_sortEntries _) ?_, rfl⟩
      intro f hf
      rcases List.mem_append.mp (Data.mem_of_mem_sortEntries hf) with hf | hf
      · exact hfields f hf
      · exact hfields' f hf
    · exact h v hv

theorem single_of_ofFields {fields : List (String × Value)} (h : ofFields fields = .ok e) :
    Single e := by
  rw [ofFields_eq] at h
  simp only [bind_eq_ok] at h
  obtain ⟨_, -, _, -, _, -, _, -, _, -, level, -, he⟩ := h
  obtain rfl := Except.ok.inj he
  apply Single.detailed
  exact normalOptions_withInline (normalOptions_bind_present? _) (isCanonical_inlineFields fields)

theorem single_of_ofPair {name : String} {rest : List Value} (hrest : ∀ v ∈ rest, v.IsCanonical)
    (h : ofPair name rest = .ok e) : Single e := by
  unfold ofPair at h
  split_ifs at h
  obtain ⟨level, -, h⟩ := bind_eq_ok.mp h
  cases hoptions : rest.head?.bind present? with
  | none =>
    rw [hoptions] at h
    obtain rfl := Except.ok.inj h
    exact .plain level
  | some options =>
    rw [hoptions] at h
    obtain rfl := Except.ok.inj h
    obtain ⟨v, hv, hpresent⟩ := Option.bind_eq_some_iff.mp hoptions
    apply Single.detailed
    rw [← hpresent]
    exact normalOptions_present? (hrest v (List.mem_of_head? hv))

/-- What a value is read as: one instance in normal form, or the entries of its items. -/
theorem single_or_instances_of_decode
    (hitems : ∀ items, v = .array items → ∀ w ∈ items, w.IsCanonical) (h : decode v = .ok e) :
    Single e ∨ ∃ items es, v = .array items ∧ items ≠ [] ∧ decodeItems items = .ok es ∧
      e = .instances es := by
  fun_cases decode v with
  | case1 name =>
    obtain ⟨level, -, rfl⟩ := map_eq_ok.mp h
    exact Or.inl (.plain level)
  | case2 b =>
    obtain rfl := Except.ok.inj h
    exact Or.inl (.plain _)
  | case3 => cases h
  | case4 name rest =>
    refine Or.inl (single_of_ofPair ?_ h)
    intro w hw
    exact hitems _ rfl w (List.mem_cons_of_mem _ hw)
  | case5 items hne =>
    rw [decode] at h
    · obtain ⟨es, hes, rfl⟩ := map_eq_ok.mp h
      exact Or.inr ⟨items, es, rfl, hne, hes, rfl⟩
    all_goals assumption
  | case6 fields => exact Or.inl (single_of_ofFields h)
  | case7 v =>
    rw [decode] at h
    · cases h
    all_goals assumption

theorem decodeItems_cons_eq_ok {vs : List Value} :
    decodeItems (v :: vs) = .ok es ↔ ∃ e rest, decode v = .ok e ∧ e.isInstances = false ∧
      decodeItems vs = .ok rest ∧ es = e :: rest := by
  rw [decodeItems, bind_eq_ok]
  apply exists_congr
  intro e
  cases hinstances : e.isInstances with
  | true => simp [throw, throwThe, MonadExceptOf.throw, bind, Except.bind]
  | false =>
    simp only [Bool.false_eq_true, if_false, bind_eq_ok, true_and, exists_and_left]
    apply and_congr_right
    intro _
    apply exists_congr
    intro rest
    apply and_congr_right
    intro _
    exact ⟨fun h => (Except.ok.inj h).symm, fun h => h ▸ rfl⟩

theorem single_of_decodeItems {items : List Value} (hitems : ∀ v ∈ items, v.IsCanonical)
    (h : decodeItems items = .ok es) : es.length = items.length ∧ ∀ e ∈ es, Single e := by
  induction items generalizing es with
  | nil =>
    obtain rfl := Except.ok.inj h
    simp
  | cons v items ih =>
    obtain ⟨e, rest, he, hsingle, hrest, rfl⟩ := decodeItems_cons_eq_ok.mp h
    obtain ⟨hlength, hmem⟩ := ih (fun w hw => hitems w (List.mem_cons_of_mem _ hw)) hrest
    have hv : ∀ items, v = .array items → ∀ w ∈ items, w.IsCanonical := by
      rintro items rfl
      exact Value.isCanonical_array_iff.mp (hitems _ List.mem_cons_self)
    refine ⟨by rw [List.length_cons, List.length_cons, hlength], ?_⟩
    rintro e' (_ | ⟨_, he'⟩)
    · rcases single_or_instances_of_decode hv he with h | ⟨_, _, -, -, -, rfl⟩
      · exact h
      · cases hsingle
    · exact hmem e' he'

/-- Whatever is read is in normal form. -/
theorem normal_of_ofValue (h : ofValue v = .ok e) : Normal e := by
  fun_cases ofValue v with
  | case1 items =>
    have hcanonical := Value.isCanonical_of_mem_canonicalItems items
    have hitems : ∀ ws, Value.array (Value.canonicalItems items) = .array ws →
        ∀ w ∈ ws, w.IsCanonical := by
      rintro ws ⟨⟩
      exact hcanonical
    rcases single_or_instances_of_decode hitems h with h | ⟨_, es, ⟨⟩, hne, hes, rfl⟩
    · exact .single h
    · obtain ⟨hlength, hsingle⟩ := single_of_decodeItems hcanonical hes
      refine .instances ?_ hsingle
      rintro rfl
      exact hne (List.length_eq_zero_iff.mp hlength.symm)
  | case2 v hv =>
    rw [ofValue] at h
    · rcases single_or_instances_of_decode (fun ws hws => absurd hws (hv ws)) h with
        h | ⟨ws, _, rfl, -⟩
      · exact .single h
      · exact absurd rfl (hv ws)
    · exact hv

theorem parseLevel_name (l : Level) : parseLevel l.name = .ok l := by
  cases l <;> rfl

/-- The fields of an entry with details, as they are written. -/
def writtenFields (l : Option Level) (enabled : Option Bool) (options : Option Value) :
    List (String × Value) :=
  (l.map fun l => ("severity", .string l.name)).toList ++
    (enabled.map fun b => ("enabled", .bool b)).toList ++
    (options.map fun v => ("options", v)).toList

def sortedFields (l : Option Level) (enabled : Option Bool) (options : Option Value) :
    List (String × Value) :=
  (enabled.map fun b => ("enabled", .bool b)).toList ++
    (options.map fun v => ("options", v)).toList ++
    (l.map fun l => ("severity", .string l.name)).toList

theorem sortEntries_writtenFields (l : Option Level) (enabled : Option Bool)
    (options : Option Value) :
    Data.sortEntries (writtenFields l enabled options) = sortedFields l enabled options := by
  have henabled : "enabled" < "severity" := by decide
  have hoptions : "options" < "severity" := by decide
  have hbetween : ¬"options" < "enabled" := by decide
  have hne : "options" ≠ "enabled" := by decide
  cases l <;> cases enabled <;> cases options <;>
    simp only [writtenFields, sortedFields, Data.sortEntries, Option.map_some, Option.map_none,
      Option.toList_some, Option.toList_none, List.nil_append, List.append_nil, List.cons_append,
      List.foldl_cons, List.foldl_nil, Data.insertEntry, henabled, hoptions, hbetween, hne, if_true,
      if_false]

theorem severityName_map_name (l : Option Level) :
    severityName (l.map fun l => .string l.name) = .ok (l.map Level.name) := by
  cases l <;> rfl

theorem enabledFlag_map_bool (enabled : Option Bool) :
    enabledFlag (enabled.map .bool) = .ok enabled := by
  cases enabled <;> rfl

theorem statedLevel_map_name (l : Option Level) : statedLevel (l.map Level.name) = .ok l := by
  cases l with
  | none => rfl
  | some l => rw [Option.map_some, statedLevel, parseLevel_name]; rfl

theorem bind_present?_of_normal {options : Option Value} (h : NormalOptions options) :
    (options.bind fun v => present? v.canonical) = options := by
  cases options with
  | none => rfl
  | some v =>
    obtain ⟨hcanonical, hnull⟩ := h v rfl
    rw [Option.bind_some, hcanonical, present?, hnull]
    rfl

theorem ofFields_eq_ok {fields : List (String × Value)} {l : Option Level}
    {enabled : Option Bool} {options : Option Value} (h : NormalOptions options)
    (hseverity : soleField "severity" fields = .ok (l.map fun l => .string l.name))
    (henabled : soleField "enabled" fields = .ok (enabled.map .bool))
    (hoptions : soleField "options" fields = .ok options)
    (hinline : inlineFields fields = []) :
    ofFields fields = .ok (.detailed l enabled options) := by
  rw [ofFields_eq, hinline]
  simp only [bind_eq_ok]
  refine ⟨_, hseverity, _, severityName_map_name l, _, henabled, _, enabledFlag_map_bool enabled,
    _, hoptions, l, statedLevel_map_name l, ?_⟩
  rw [bind_present?_of_normal h]
  rfl

theorem ofFields_writtenFields {l : Option Level} {enabled : Option Bool} {options : Option Value}
    (h : NormalOptions options) :
    ofFields (writtenFields l enabled options) = .ok (.detailed l enabled options) := by
  apply ofFields_eq_ok h <;> cases l <;> cases enabled <;> cases options <;> rfl

theorem ofFields_sortedFields {l : Option Level} {enabled : Option Bool} {options : Option Value}
    (h : NormalOptions options) :
    ofFields (sortedFields l enabled options) = .ok (.detailed l enabled options) := by
  apply ofFields_eq_ok h <;> cases l <;> cases enabled <;> cases options <;> rfl

theorem toValue_detailed (l : Option Level) (enabled : Option Bool) (options : Option Value) :
    toValue (.detailed l enabled options) = .object (writtenFields l enabled options) := by
  rw [toValue, writtenFields]

theorem decode_toValue (h : Single e) : decode e.toValue = .ok e := by
  cases h with
  | plain l => rw [toValue, decode, parseLevel_name]; rfl
  | detailed l enabled hoptions => rw [toValue_detailed, decode, ofFields_writtenFields hoptions]

theorem canonical_toValue_detailed (l : Option Level) (enabled : Option Bool)
    {options : Option Value} (h : NormalOptions options) :
    (toValue (.detailed l enabled options)).canonical =
      .object (sortedFields l enabled options) := by
  have hfields : ∀ f ∈ writtenFields l enabled options, f.2.IsCanonical := by
    intro f hf
    simp only [writtenFields, List.mem_append, Option.mem_toList, Option.map_eq_some_iff] at hf
    rcases hf with (⟨l, -, rfl⟩ | ⟨b, -, rfl⟩) | ⟨v, hv, rfl⟩
    · rfl
    · rfl
    · exact (h v hv).1
  rw [toValue_detailed, Value.canonical, Value.canonicalFields_eq_self hfields,
    sortEntries_writtenFields]

theorem decode_canonical_toValue (h : Single e) : decode e.toValue.canonical = .ok e := by
  cases h with
  | plain l => exact decode_toValue (.plain l)
  | detailed l enabled hoptions =>
    rw [canonical_toValue_detailed l enabled hoptions, decode, ofFields_sortedFields hoptions]

theorem decodeItems_toValues (h : ∀ e ∈ es, Single e) :
    decodeItems (Value.canonicalItems (toValues es)) = .ok es := by
  induction es with
  | nil => rfl
  | cons e es ih =>
    have he := h e List.mem_cons_self
    rw [toValues, Value.canonicalItems, decodeItems_cons_eq_ok]
    exact ⟨e, es, decode_canonical_toValue he, he.not_isInstances,
      ih fun e' he' => h e' (List.mem_cons_of_mem _ he'), rfl⟩

/-- What the written form of an entry in normal form is read as. -/
def reread : RuleEntry → Except EntryFault RuleEntry
  | instances [plain l] => .ok (.plain l)
  | instances [plain l, e] => .ok (.detailed (some l) none (some e.toValue.canonical))
  | instances (plain _ :: rest) => .error (.longArray (rest.length + 1))
  | e => .ok e

theorem reread_eq_ok_iff (e : RuleEntry) :
    e.reread = .ok e ↔ ∀ l rest, e ≠ .instances (.plain l :: rest) := by
  fun_cases reread e with
  | case1 l => simp
  | case2 l e => simp
  | case3 l rest => simp
  | case4 e _ _ hplain => exact iff_of_true rfl hplain

theorem length_canonicalItems_toValues (es : List RuleEntry) :
    (Value.canonicalItems (toValues es)).length = es.length := by
  induction es with
  | nil => rfl
  | cons e es ih => rw [toValues, Value.canonicalItems, List.length_cons, List.length_cons, ih]

theorem present?_canonical_toValue (h : Single e) :
    present? e.toValue.canonical = some e.toValue.canonical := by
  cases h with
  | plain l => rfl
  | detailed l enabled hoptions => rfl

/-- A list of instances that starts with a level is read as a level with options. -/
theorem ofPair_toValues (l : Level) (h : ∀ e ∈ es, Single e) :
    ofPair l.name (Value.canonicalItems (toValues es)) = (instances (.plain l :: es)).reread := by
  unfold ofPair
  rw [length_canonicalItems_toValues, parseLevel_name]
  rcases es with _ | ⟨e, _ | ⟨e', es⟩⟩
  · rfl
  · have hpresent := present?_canonical_toValue (h e List.mem_cons_self)
    rw [toValues, Value.canonicalItems, List.head?_cons, Option.bind_some, hpresent]
    rfl
  · have hlong : 1 < (e :: e' :: es).length := by simp
    rw [if_pos hlong]
    rfl

theorem ofValue_toValue_of_normal (h : Normal e) : ofValue e.toValue = e.reread := by
  cases h with
  | single h =>
    cases h with
    | plain l => exact decode_toValue (.plain l)
    | detailed l enabled h => exact decode_toValue (.detailed l enabled h)
  | @instances es hne h =>
    -- the first instance tells which of the two arrays it is read as
    obtain ⟨first, rest, rfl⟩ := List.exists_cons_of_ne_nil hne
    cases h first List.mem_cons_self with
    | plain l => exact ofPair_toValues l fun e he => h e (List.mem_cons_of_mem _ he)
    | detailed l enabled hoptions =>
      have hitems := decodeItems_toValues h
      exact congrArg (RuleEntry.instances <$> ·) hitems

/-- The written form of an entry that was read is read as that entry again, unless the
entry is a list of instances that starts with a level alone: the written form of a list
of one is read as the level, of two as the level with options, and of more not at all. -/
theorem ofValue_toValue_eq_reread (h : ofValue v = .ok e) :
    ofValue e.toValue = e.reread ∧
      (ofValue e.toValue = .ok e ↔ ∀ l rest, e ≠ .instances (.plain l :: rest)) := by
  have hreread := ofValue_toValue_of_normal (normal_of_ofValue h)
  refine ⟨hreread, ?_⟩
  rw [hreread]
  exact reread_eq_ok_iff e

/-- A list of an object with an inline option and of a flag. -/
theorem ofValue_toValue_eq_reread_inline :
    let v : Value := .array
      [.object [("position", .string "leading"), ("severity", .string "Warn"), ("options", .null)],
        .bool false]
    let e : RuleEntry := .instances
      [.detailed (some .warn) none (some (.object [("position", .string "leading")])), .plain .off]
    ofValue v = .ok e ∧ ofValue e.toValue = .ok e := by
  intro v e
  have hread : ofValue v = .ok e := rfl
  exact ⟨hread, (ofValue_toValue_eq_reread hread).1⟩

/-- Three flags are read as three instances, whose written form is not read at all. -/
theorem ofValue_toValue_three_flags :
    let v : Value := .array [.bool true, .bool true, .bool true]
    let e : RuleEntry := .instances [.plain .on, .plain .on, .plain .on]
    ofValue v = .ok e ∧ ofValue e.toValue = .error (.longArray 3) ∧
      ¬∀ v e, ofValue v = .ok e → ofValue e.toValue = .ok e := by
  intro v e
  have hread : ofValue v = .ok e := rfl
  refine ⟨hread, rfl, ?_⟩
  intro h
  cases h v e hread

end RuleEntry
end QueryLint
