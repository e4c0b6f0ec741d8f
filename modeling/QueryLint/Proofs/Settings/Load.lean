import QueryLint.Proofs.Config.Validate
import QueryLint.Settings.Text
import Mathlib.Data.List.TakeWhile

/-!
# Loaded settings are valid

Settings come out of `Readers.load` in two ways, as the defaults of a blank file or
as what a reader gave and the check let pass, and both are valid, whatever the
readers are. Which reader is asked depends on the path alone, except for the file
without an extension: it is loaded as a YAML file if it reads as YAML, and as a JSON
file only otherwise.
-/
namespace QueryLint
namespace Settings

/-- Settings that allow a diagnostic and name known presets and known rules only. -/
structure Valid (s : Settings) : Prop where
  one_le : 1 ≤ s.maxProblems
  lint : s.lint.Valid

theorem validate_eq_ok_iff {s : Settings} : s.validate = .ok () ↔ s.Valid := by
  unfold validate
  split_ifs with hzero
  · constructor
    · intro h
      simp at h
    · intro h
      have hpos := h.one_le
      omega
  · have hpos : 1 ≤ s.maxProblems := Nat.one_le_iff_ne_zero.mpr hzero
    cases hlint : s.lint.validate with
    | ok _ => exact ⟨fun _ => ⟨hpos, LintConfig.validate_eq_ok_iff.mp hlint⟩, fun _ => rfl⟩
    | error fault =>
      constructor
      · intro h
        simp at h
      · intro h
        rw [LintConfig.validate_eq_ok_iff.mpr h.lint] at hlint
        simp at hlint

theorem valid_default : Valid {} :=
  ⟨by decide, LintConfig.valid_recommended⟩

namespace Format

variable {path : List Char}

theorem ofPath?_of_yaml
    (h : Path.extension? path = some "yml".toList ∨ Path.extension? path = some "yaml".toList) :
    ofPath? path = some .yaml := by
  rcases h with h | h <;> simp [ofPath?, h]

theorem ofPath?_of_json (h : Path.extension? path = some "json".toList) :
    ofPath? path = some .json := by
  simp [ofPath?, h]

theorem extension?_of_bareFile (h : Path.fileName? path = some bareFile.toList) :
    Path.extension? path = none := by
  rw [Path.extension?, h]
  decide

theorem ofPath?_of_bareFile (h : Path.fileName? path = some bareFile.toList) :
    ofPath? path = some .either := by
  simp [ofPath?, extension?_of_bareFile h, h]

theorem getD_extension?_ne {extension : List Char} (hne : extension ≠ [])
    (h : Path.extension? path ≠ some extension) :
    (Path.extension? path).getD [] ≠ extension := by
  cases hextension : Path.extension? path with
  | none => exact hne.symm
  | some e =>
    rintro rfl
    exact h hextension

theorem ofPath?_eq_none_iff :
    ofPath? path = none ↔
      Path.extension? path ∉ [some "yml".toList, some "yaml".toList, some "json".toList] ∧
        Path.fileName? path ≠ some bareFile.toList := by
  simp only [List.mem_cons, List.not_mem_nil, or_false, not_or]
  constructor
  · intro h
    refine ⟨⟨?_, ?_, ?_⟩, ?_⟩
    · intro hyml
      simp [ofPath?_of_yaml (Or.inl hyml)] at h
    · intro hyaml
      simp [ofPath?_of_yaml (Or.inr hyaml)] at h
    · intro hjson
      simp [ofPath?_of_json hjson] at h
    · intro hbare
      simp [ofPath?_of_bareFile hbare] at h
  · rintro ⟨⟨hyml, hyaml, hjson⟩, hbare⟩
    have hyml' := getD_extension?_ne (by decide) hyml
    have hyaml' := getD_extension?_ne (by decide) hyaml
    have hjson' := getD_extension?_ne (by decide) hjson
    simp only [ofPath?, hyml', hyaml', hjson', hbare, or_self, if_false]

end Format

namespace Readers

variable {readers other : Readers} {contents path path' : List Char} {format format' : Format}

theorem read_either_of_yaml {s : Settings} (h : readers.yaml? contents = some s) :
    readers.read contents .either = readers.read contents .yaml := by
  simp only [read, h]

theorem read_either_of_no_yaml (h : readers.yaml? contents = none) :
    readers.read contents .either = readers.read contents .json := by
  simp only [read, h]

theorem trimBlank_isEmpty_iff :
    (Text.trimBlank contents).isEmpty = true ↔ ∀ c ∈ contents, Text.isBlank c = true := by
  rw [List.isEmpty_iff, Text.trimBlank, List.reverse_eq_nil_iff, List.dropWhile_eq_nil_iff]
  simp only [List.mem_reverse]
  constructor
  · intro h c hc
    rw [← List.takeWhile_append_dropWhile (p := Text.isBlank) (l := contents)] at hc
    rcases List.mem_append.mp hc with hc | hc
    · exact List.mem_takeWhile_imp hc
    · exact h c hc
  · intro h c hc
    exact h c ((List.dropWhile_suffix _).mem hc)

theorem load_of_blank (hformat : Format.ofPath? path = some format)
    (hblank : ∀ c ∈ contents, Text.isBlank c = true) : readers.load contents path = .ok {} := by
  simp only [load, hformat, trimBlank_isEmpty_iff.mpr hblank, if_true]

/-- A file that is not blank is read and what was read is checked. -/
theorem load_of_not_blank (hformat : Format.ofPath? path = some format)
    (hblank : ¬∀ c ∈ contents, Text.isBlank c = true) :
    readers.load contents path =
      match readers.read contents format with
      | .error fault => .error fault
      | .ok s =>
        match s.validate with
        | .ok () => .ok s
        | .error fault => .error (.invalid fault) := by
  rw [← trimBlank_isEmpty_iff] at hblank
  simp only [load, hformat, hblank]
  rfl

theorem load_eq_ok_iff (hformat : Format.ofPath? path = some format)
    (hblank : ¬∀ c ∈ contents, Text.isBlank c = true) {s : Settings} :
    readers.load contents path = .ok s ↔ readers.read contents format = .ok s ∧ s.Valid := by
  rw [load_of_not_blank hformat hblank]
  cases hread : readers.read contents format with
  | error fault => simp
  | ok t =>
    dsimp only
    rw [Except.ok.injEq]
    cases hvalidate : t.validate with
    | ok _ =>
      rw [Except.ok.injEq]
      constructor
      · rintro rfl
        exact ⟨rfl, validate_eq_ok_iff.mp hvalidate⟩
      · exact fun h => h.1
    | error fault =>
      constructor
      · intro h
        simp at h
      · rintro ⟨rfl, hvalid⟩
        rw [validate_eq_ok_iff.mpr hvalid] at hvalidate
        simp at hvalidate

theorem exists_fault_of_not_valid (hformat : Format.ofPath? path = some format)
    (hblank : ¬∀ c ∈ contents, Text.isBlank c = true) {s : Settings}
    (hread : readers.read contents format = .ok s) (h : ¬s.Valid) :
    ∃ fault, readers.load contents path = .error (.invalid fault) := by
  rw [load_of_not_blank hformat hblank, hread]
  cases hvalidate : s.validate with
  | ok _ => exact absurd (validate_eq_ok_iff.mp hvalidate) h
  | error fault => exact ⟨fault, by simp only [hvalidate]⟩

theorem load_congr (hformat : Format.ofPath? path = some format)
    (hformat' : Format.ofPath? path' = some format')
    (h : readers.read contents format = other.read contents format') :
    readers.load contents path = other.load contents path' := by
  by_cases hblank : ∀ c ∈ contents, Text.isBlank c = true
  · rw [load_of_blank hformat hblank, load_of_blank hformat' hblank]
  · rw [load_of_not_blank hformat hblank, load_of_not_blank hformat' hblank, h]

theorem valid_of_load {s : Settings} (h : readers.load contents path = .ok s) : s.Valid := by
  cases hformat : Format.ofPath? path with
  | none => simp [load, hformat] at h
  | some format =>
    by_cases hblank : ∀ c ∈ contents, Text.isBlank c = true
    · rw [load_of_blank hformat hblank] at h
      obtain rfl := Except.ok.inj h
      exact valid_default
    · exact ((load_eq_ok_iff hformat hblank).mp h).2

theorem read_ne_unsupported : readers.read contents format ≠ .error .unsupported := by
  cases format with
  | yaml => cases hyaml : readers.yaml? contents <;> simp [read, hyaml]
  | json => cases hjson : readers.json? contents <;> simp [read, hjson]
  | either =>
    cases hyaml : readers.yaml? contents <;> cases hjson : readers.json? contents <;>
      simp [read, hyaml, hjson]

theorem load_eq_unsupported_iff :
    readers.load contents path = .error .unsupported ↔ Format.ofPath? path = none := by
  cases hformat : Format.ofPath? path with
  | none => simp [load, hformat]
  | some format =>
    simp only [reduceCtorEq, iff_false]
    by_cases hblank : ∀ c ∈ contents, Text.isBlank c = true
    · rw [load_of_blank hformat hblank]
      simp
    · rw [load_of_not_blank hformat hblank]
      have hread : readers.read contents format ≠ .error .unsupported := read_ne_unsupported
      cases hresult : readers.read contents format with
      | error fault =>
        rw [hresult] at hread
        exact hread
      | ok s => cases hvalidate : s.validate <;> simp [hvalidate]

/-- Loading is safe, whatever the readers give. What is loaded is valid: a blank file
gives the defaults, any other file what its format reads as, if that is valid. A file
is not supported exactly if neither its extension nor its name is known. For the file
without an extension JSON makes a difference only if the file cannot be read as YAML,
and then the file is loaded like a JSON file; settings that read as YAML and are not
valid are refused. -/
theorem load_valid_settings (readers : Readers) (contents path : List Char) :
    (∀ s, readers.load contents path = .ok s → s.Valid) ∧
    (∀ format, Format.ofPath? path = some format →
      ((∀ c ∈ contents, Text.isBlank c = true) → readers.load contents path = .ok {}) ∧
      (¬(∀ c ∈ contents, Text.isBlank c = true) → ∀ s, readers.load contents path = .ok s ↔
        readers.read contents format = .ok s ∧ s.Valid)) ∧
    (readers.load contents path = .error .unsupported ↔
      Path.extension? path ∉ [some "yml".toList, some "yaml".toList, some "json".toList] ∧
        Path.fileName? path ≠ some bareFile.toList) ∧
    (Path.fileName? path = some bareFile.toList →
      (∀ s, readers.yaml? contents = some s →
        (∀ json?, load ⟨readers.yaml?, json?⟩ contents path = readers.load contents path) ∧
        (¬(∀ c ∈ contents, Text.isBlank c = true) → ¬s.Valid →
          ∃ fault, readers.load contents path = .error (.invalid fault))) ∧
      (readers.yaml? contents = none →
        ∀ jsonPath, Path.extension? jsonPath = some "json".toList →
          readers.load contents path = readers.load contents jsonPath)) := by
  refine ⟨?_, ?_, ?_, ?_⟩
  · intro s h
    exact valid_of_load h
  · intro format hformat
    constructor
    · intro hblank
      exact load_of_blank hformat hblank
    · intro hblank s
      exact load_eq_ok_iff hformat hblank
  · rw [load_eq_unsupported_iff, Format.ofPath?_eq_none_iff]
  · intro hbare
    have hformat := Format.ofPath?_of_bareFile hbare
    constructor
    · intro s hyaml
      constructor
      · intro json?
        have hother : read ⟨readers.yaml?, json?⟩ contents .either =
            readers.read contents .yaml := read_either_of_yaml hyaml
        apply load_congr hformat hformat
        rw [hother, read_either_of_yaml hyaml]
      · intro hblank hinvalid
        have hread : readers.read contents .either = .ok s := by
          rw [read_either_of_yaml hyaml]
          simp only [read, hyaml]
        exact exists_fault_of_not_valid hformat hblank hread hinvalid
    · intro hyaml jsonPath hjson
      exact load_congr hformat (Format.ofPath?_of_json hjson) (read_either_of_no_yaml hyaml)

/-- A limit of zero in YAML, an unknown preset in YAML, a text that is JSON and not YAML,
and a file that is neither. -/
theorem load_valid_settings_bareFile :
    let bare := "a/.sqlintrc".toList
    let zero := "maxNumberOfProblems: 0".toList
    let strict := "lint: strict".toList
    let escaped := "\x7b\"x\": \"\\uD83D\\uDE00\"\x7d".toList
    (∃ fault, standard.load zero bare = .error (.invalid fault)) ∧
      (∃ fault, standard.load strict bare = .error (.invalid fault)) ∧
      standard.load escaped bare = standard.load escaped "b.json".toList ∧
      standard.load zero "a/.sqlintrc.toml".toList = .error .unsupported := by
  intro bare zero strict escaped
  have hbare : Path.fileName? bare = some bareFile.toList := by decide
  have hrefused : ∀ (contents : List Char) (s : Settings), standard.yaml? contents = some s →
      (∃ c ∈ contents, Text.isBlank c = false) → ¬s.Valid →
      ∃ fault, standard.load contents bare = .error (.invalid fault) := by
    rintro contents s hs ⟨c, hc, hblank⟩ hinvalid
    apply (((load_valid_settings standard contents bare).2.2.2 hbare).1 s hs).2 ?_ hinvalid
    intro hall
    rw [hall c hc] at hblank
    cases hblank
  refine ⟨?_, ?_, ?_, ?_⟩
  · have hyaml : (standard.yaml? zero).map (·.maxProblems) = some 0 := by decide +kernel
    obtain ⟨s, hs, hzero⟩ := Option.map_eq_some_iff.mp hyaml
    apply hrefused zero s hs ⟨'m', List.mem_cons_self, by decide⟩
    intro hvalid
    have hpos := hvalid.one_le
    omega
  · have hyaml : (standard.yaml? strict).map (·.lint.base?) = some (some (.single "strict")) := by
      decide +kernel
    obtain ⟨s, hs, hpreset⟩ := Option.map_eq_some_iff.mp hyaml
    apply hrefused strict s hs ⟨'l', List.mem_cons_self, by decide⟩
    intro hvalid
    have hknown := hvalid.lint.presets _ hpreset "strict" List.mem_cons_self
    exact absurd hknown (by decide)
  · have hyaml : (standard.yaml? escaped).isNone = true := by decide +kernel
    exact ((load_valid_settings standard escaped bare).2.2.2 hbare).2
      (Option.isNone_iff_eq_none.mp hyaml) _ (by decide)
  · exact (load_valid_settings standard zero _).2.2.1.mpr (by decide)

end Readers
end Settings
end QueryLint
