import CodeQuality.Proofs.Json.Grammar
import CodeQuality.Proofs.Json.Rewriting
import CodeQuality.Proofs.Json.RoundTrips

/-!
Ways to write a bundle.

A bundle, its files and the records in them may be written in any order, with strays among their
members, with or without defaults, and as objects or as arrays: the files that are read are the
same. Sets of coefficients take no strays, and no record takes a field twice.
-/

namespace CodeQuality

open Json

/-! ## The forms of the records -/

namespace Severity

def issueForm : List FieldForm := [.plain "severity"]

theorem ofIssueJson?_eq (j : Json) :
    ofIssueJson? j = readFields issueForm (readNext (requiredField ofJson?) readDone) j := by
  show Option.bind _ _ = Option.bind _ _
  apply Option.bind_congr
  rintro (_ | ⟨severity, _ | _⟩) _ <;> simp [readNext, readDone]

theorem readsRecord_issue : ReadsRecord issueForm ofIssueJson? :=
  (Follows.next (FieldForm.respected_plain _ _) fun _ => .done _).readsRecord (by decide)
    ofIssueJson?_eq

end Severity

namespace Metrics

def form : List FieldForm :=
  [.plain "complexity", .plain "lines_of_code", .plain "duplication_ratio",
   (FieldForm.plain "function_count").withDefault (.nat 0)]

def ofEntries? : List (Option Json) → Option Metrics :=
  readNext (requiredField word?) fun complexity =>
  readNext (requiredField word?) fun lines =>
  readNext (requiredField float?) fun duplication =>
  readNext (defaultedField 0 word?) fun functions =>
  readDone ⟨complexity, lines, duplication, functions⟩

theorem ofJson?_eq (j : Json) : ofJson? j = readFields form ofEntries? j := by
  show Option.bind _ _ = Option.bind _ _
  apply Option.bind_congr
  rintro (_ | ⟨complexity, _ | ⟨lines, _ | ⟨duplication, _ | ⟨functions, _ | _⟩⟩⟩⟩) _ <;>
    simp [ofEntries?, readNext, readDone]

theorem follows : Follows form ofEntries? :=
  .next (FieldForm.respected_plain _ _) fun _ =>
  .next (FieldForm.respected_plain _ _) fun _ =>
  .next (FieldForm.respected_plain _ _) fun _ =>
  .next (FieldForm.respected_plain_withDefault _ rfl) fun _ =>
  .done _

theorem readsRecord : ReadsRecord form ofJson? := follows.readsRecord (by decide) ofJson?_eq

end Metrics

namespace Coupling

def form : List FieldForm :=
  [(FieldForm.plain "incoming").withDefault (.nat 0),
   (FieldForm.plain "outgoing").withDefault (.nat 0),
   (FieldForm.plain "in_cycle").withDefault (.bool false)]

def ofEntries? : List (Option Json) → Option Coupling :=
  readNext (defaultedField 0 word?) fun incoming =>
  readNext (defaultedField 0 word?) fun outgoing =>
  readNext (defaultedField false bool?) fun inCycle =>
  readDone ⟨incoming, outgoing, inCycle⟩

theorem ofJson?_eq (j : Json) : ofJson? j = readFields form ofEntries? j := by
  show Option.bind _ _ = Option.bind _ _
  apply Option.bind_congr
  rintro (_ | ⟨incoming, _ | ⟨outgoing, _ | ⟨inCycle, _ | _⟩⟩⟩) _ <;>
    simp [ofEntries?, readNext, readDone]

theorem follows : Follows form ofEntries? :=
  .next (FieldForm.respected_plain_withDefault _ rfl) fun _ =>
  .next (FieldForm.respected_plain_withDefault _ rfl) fun _ =>
  .next (FieldForm.respected_plain_withDefault _ rfl) fun _ =>
  .done _

theorem readsRecord : ReadsRecord form ofJson? := follows.readsRecord (by decide) ofJson?_eq

end Coupling

namespace SourceFile

def form : List FieldForm :=
  [.plain "path", .nested "metrics" Metrics.form,
   (FieldForm.listed "issues" Severity.issueForm).withDefault (.array []),
   (FieldForm.nested "dependencies" Coupling.form).withDefault (default : Coupling).toJson]

def ofEntries? : List (Option Json) → Option SourceFile :=
  readNext (requiredField string?) fun path =>
  readNext (requiredField Metrics.ofJson?) fun metrics =>
  readNext (defaultedField [] (list? Severity.ofIssueJson?)) fun issues =>
  readNext (defaultedField default Coupling.ofJson?) fun coupling =>
  readDone ⟨path, metrics, issues, coupling⟩

theorem ofJson?_eq (j : Json) : ofJson? j = readFields form ofEntries? j := by
  show Option.bind _ _ = Option.bind _ _
  apply Option.bind_congr
  rintro (_ | ⟨path, _ | ⟨metrics, _ | ⟨issues, _ | ⟨coupling, _ | _⟩⟩⟩⟩) _ <;>
    simp [ofEntries?, readNext, readDone]

theorem follows : Follows form ofEntries? :=
  .next (FieldForm.respected_plain _ _) fun _ =>
  .next (FieldForm.respected_nested _ Metrics.readsRecord) fun _ =>
  .next (FieldForm.respected_listed_withDefault _ Severity.readsRecord_issue rfl) fun _ =>
  .next (FieldForm.respected_nested_withDefault _ Coupling.readsRecord
    (Coupling.ofJson?_toJson default)) fun _ =>
  .done _

theorem readsRecord : ReadsRecord form ofJson? := follows.readsRecord (by decide) ofJson?_eq

end SourceFile

namespace Bundle

def form : List FieldForm := [.listed "files" SourceFile.form]

theorem ofJson?_eq (j : Json) : ofJson? j =
    readFields form (readNext (requiredField (list? SourceFile.ofJson?)) readDone) j := by
  show Option.bind _ _ = Option.bind _ _
  apply Option.bind_congr
  rintro (_ | ⟨files, _ | _⟩) _ <;> simp [readNext, readDone]

theorem readsRecord : ReadsRecord form ofJson? :=
  (Follows.next (FieldForm.respected_listed _ SourceFile.readsRecord) fun _ => .done _).readsRecord
    (by decide) ofJson?_eq

end Bundle

/-! ## The records with a text of their own -/

namespace RecordKind

def form : RecordKind → List FieldForm
  | metrics => Metrics.form
  | issue => Severity.issueForm
  | coupling => Coupling.form
  | sourceFile => SourceFile.form
  | fileScore => FileScore.fieldNames.map .plain
  | projectScore => ProjectScore.fieldNames.map .plain
  | curve => Curve.fieldNames.map .plain
  | escalation => Escalation.fieldNames.map .plain
  | severityWeights => Severity.Weights.fieldNames.map .plain
  | criticismWeights => Criticism.Weights.fieldNames.map .plain

/-- Sets of coefficients take no member that is no field. -/
def strays : RecordKind → Strays
  | curve | escalation | severityWeights | criticismWeights => .refused
  | _ => .ignored

theorem read?_eq_none (k : RecordKind) {j : Json}
    (h : j.fields? k.strays (k.form.map FieldForm.name) = none) : k.codec.read? j = none := by
  cases k <;> exact congrArg (Option.bind · _) h

theorem read?_eq_none_of_repeats (k : RecordKind) {j : Json} (h : Repeats k.form j) :
    k.codec.read? j = none := by
  cases k with
  | metrics => exact Metrics.readsRecord.repeats h
  | issue => exact Severity.readsRecord_issue.repeats h
  | coupling => exact Coupling.readsRecord.repeats h
  | sourceFile => exact SourceFile.readsRecord.repeats h
  | fileScore => exact read?_eq_none .fileScore (fields?_eq_none_of_repeats_plain _ h)
  | projectScore => exact read?_eq_none .projectScore (fields?_eq_none_of_repeats_plain _ h)
  | curve => exact read?_eq_none .curve (fields?_eq_none_of_repeats_plain _ h)
  | escalation => exact read?_eq_none .escalation (fields?_eq_none_of_repeats_plain _ h)
  | severityWeights => exact read?_eq_none .severityWeights (fields?_eq_none_of_repeats_plain _ h)
  | criticismWeights => exact read?_eq_none .criticismWeights (fields?_eq_none_of_repeats_plain _ h)

/-- An object with a member that is no field is not read where strays are refused. -/
theorem read?_eq_none_of_stray {k : RecordKind} (hk : k.strays = .refused)
    {members : List (JsonText × Json)} {m : JsonText × Json} (hm : m ∈ members)
    (hstray : m.1 ∉ (k.form.map FieldForm.name).map some) :
    k.codec.read? (.object members) = none := by
  apply k.read?_eq_none
  rw [hk]
  exact fields?_refused_eq_none hm hstray

end RecordKind

/-! ## Texts -/

theorem Codec.decode?_of_spells {α : Type} (c : Codec α) {text : String} {j : Json}
    (h : Spells text j) : c.decode? text = c.read? j := by
  rw [decode?, parse?_eq_some_iff.mpr h, Option.bind_some]

namespace Bundle

theorem ofText_of_spells {text : String} {j : Json} (h : Spells text j) :
    ofText text = (ofJson? j).elim (.error .bundle) .ok := by
  rw [ofText, parse?_eq_some_iff.mpr h, Option.bind_some]
  cases ofJson? j <;> rfl

theorem exists_spells_of_ofText {text : String} {files : List SourceFile}
    (h : ofText text = .ok files) : ∃ j, Spells text j := by
  unfold ofText at h
  cases hparse : parse? text with
  | none =>
    rw [hparse] at h
    cases h
  | some j => exact ⟨j, parse?_eq_some_iff.mp hparse⟩

/-- Every text of a bundle spells a value, and each text that spells a way to write this value has
the same files. A set of coefficients with a stray among its members is not read, and nothing is
read in which a record gives a field twice. -/
theorem ofText_rewrites :
    (∀ text files, ofText text = .ok files → (∃ j, Spells text j) ∧
      ∀ text' j j', Spells text j → Rewrites form j j' → Spells text' j' →
        ofText text' = .ok files) ∧
    (∀ k : RecordKind, k.strays = .refused → ∀ text members, Spells text (.object members) →
      (∃ m ∈ members, m.1 ∉ (k.form.map FieldForm.name).map some) →
        k.codec.decode? text = none) ∧
    (∀ (k : RecordKind) text j, Spells text j → Repeats k.form j → k.codec.decode? text = none) ∧
    ∀ text j, Spells text j → Repeats form j → ofText text = .error .bundle := by
  refine ⟨?_, ?_, ?_, ?_⟩
  · intro text files hfiles
    refine ⟨exists_spells_of_ofText hfiles, fun text' j j' hj hrewrites hj' => ?_⟩
    rw [ofText_of_spells hj', ← readsRecord.rewrites hrewrites, ← ofText_of_spells hj, hfiles]
  · rintro k hk text members hspells ⟨m, hm, hstray⟩
    rw [Codec.decode?_of_spells _ hspells, RecordKind.read?_eq_none_of_stray hk hm hstray]
  · intro k text j hspells hrepeats
    rw [Codec.decode?_of_spells _ hspells, k.read?_eq_none_of_repeats hrepeats]
  · intro text j hspells hrepeats
    rw [ofText_of_spells hspells, readsRecord.repeats hrepeats]
    rfl

def sampleMetrics : Json :=
  .record [("complexity", .nat 1), ("lines_of_code", .nat 2), ("duplication_ratio", .nat 0)]

def sampleFile : Json := .record [("path", .text "a"), ("metrics", sampleMetrics)]

theorem rewrites_sampleMetrics :
    Rewrites Metrics.form sampleMetrics (.array [.nat 1, .nat 2, .nat 0]) := by
  have harray : Rewrites Metrics.form sampleMetrics (.array [.nat 1, .nat 2, .nat 0, .nat 0]) :=
    .positional (by simp) (.cons (.inl rfl) (.cons (.inl rfl) (.cons (.inl rfl)
      (.cons (.inr ⟨rfl, rfl⟩) .nil))))
  exact harray.trans (.symm (.trailing [.nat 1, .nat 2, .nat 0] rfl rfl))

theorem rewrites_sampleFile :
    Rewrites SourceFile.form sampleFile
      (.array [.text "a", .array [.nat 1, .nat 2, .nat 0], .array []]) := by
  have harray : Rewrites SourceFile.form sampleFile
      (.array [.text "a", sampleMetrics, .array [], (default : Coupling).toJson]) :=
    .positional (by simp) (.cons (.inl rfl) (.cons (.inl rfl) (.cons (.inr ⟨rfl, rfl⟩)
      (.cons (.inr ⟨rfl, rfl⟩) .nil))))
  have hshort := harray.trans (.symm (.trailing [.text "a", sampleMetrics, .array []] rfl rfl))
  exact hshort.trans (.item [.text "a"] [.array []] rfl rewrites_sampleMetrics)

def sampleText : String :=
  "\x7b\"files\":[\x7b\"path\":\"a\",\"metrics\":" ++
    "\x7b\"complexity\":1,\"lines_of_code\":2,\"duplication_ratio\":0\x7d\x7d]\x7d"

/-- The same bundle with a stray and with its file as an array. -/
def rewrittenText : String :=
  "\x7b\"note\":[[\x7b\x7d]],\"files\":[[\"a\",[1,2,0],[]]]\x7d"

theorem ofText_rewrites_sample :
    (∃ files, ofText sampleText = .ok files ∧ ofText rewrittenText = .ok files) ∧
    Severity.Weights.codec.decode? "\x7b\"severe\":1\x7d" = none ∧
    Metrics.codec.decode? "\x7b\"complexity\":1,\"complexity\":1\x7d" = none ∧
    ofText "\x7b\"files\":[],\"files\":[]\x7d" = .error .bundle := by
  obtain ⟨hrewrites, hstray, hrepeats, htwice⟩ := ofText_rewrites
  refine ⟨?_, ?_, ?_, ?_⟩
  · have hspells : Spells sampleText (.record [("files", .array [sampleFile])]) := by rfl
    have hspells' : Spells rewrittenText (.record [("note", .array [.array [.object []]]),
        ("files", .array [.array [.text "a", .array [.nat 1, .nat 2, .nat 0], .array []]])]) := by
      rfl
    have hfiles : ofText sampleText = .ok [⟨"a", ⟨1, 2, wholeFloat 0, 0⟩, [], default⟩] :=
      ofText_of_spells hspells
    have hmember : Rewrites form (.record [("files", .array [sampleFile])]) (.record
        [("files", .array [.array [.text "a", .array [.nat 1, .nat 2, .nat 0], .array []]])]) :=
      .member [] List.mem_cons_self (.intro (.cons rewrites_sampleFile .nil))
    have hnote := hmember.trans (.stray _ (.array [.array [.object []]])
      (by decide : "note" ∉ form.map FieldForm.name))
    exact ⟨_, hfiles, (hrewrites _ _ hfiles).2 _ _ _ hspells hnote hspells'⟩
  · refine hstray .severityWeights rfl _ [(some "severe", .nat 1)] (by rfl)
      ⟨_, List.mem_cons_self, ?_⟩
    decide
  · have hfield : FieldForm.plain "complexity" ∈ Metrics.form := List.mem_cons_self
    exact hrepeats .metrics _ (.record [("complexity", .nat 1), ("complexity", .nat 1)]) (by rfl)
      (.here hfield (Nat.le_refl 2))
  · have hfield : FieldForm.listed "files" SourceFile.form ∈ form := List.mem_cons_self
    exact htwice _ (.record [("files", .array []), ("files", .array [])]) (by rfl)
      (.here hfield (Nat.le_refl 2))

/-- A member whose key has no text is not ignored. -/
theorem exists_stray_not_ignored :
    ¬ ∀ (members : List (JsonText × Json)) (key : JsonText) (v : Json) (text text' : String)
      (files : List SourceFile), key ∉ (form.map FieldForm.name).map some →
        Spells text (.object members) → Spells text' (.object ((key, v) :: members)) →
          ofText text = .ok files → ofText text' = .ok files := by
  intro h
  have hspells : Spells "\x7b\"files\":[]\x7d" (.object [(some "files", .array [])]) := by rfl
  have hspells' : Spells "\x7b\"\\ud800\":1,\"files\":[]\x7d"
      (.object [(none, .nat 1), (some "files", .array [])]) := by
    unfold Spells
    simp
    rfl
  have haccepted : ofText "\x7b\"files\":[]\x7d" = .ok [] := ofText_of_spells hspells
  have hrefused := h [(some "files", .array [])] none (.nat 1) _ _ [] (by simp) hspells hspells'
    haccepted
  rw [ofText_of_spells hspells'] at hrefused
  cases hrefused

end Bundle

end CodeQuality
