import CodeQuality.Bundle
import CodeQuality.Proofs.Json.Doubles
import CodeQuality.Proofs.Json.Records

/-!
Values that are written as a text and read back.

Whatever a finite value holds besides numbers comes back as it was, and each number comes back as
what its own text is read as. So a value comes back as itself exactly if all its numbers do, and
those of few digits do.
-/

namespace CodeQuality

open Double (Denotes)

namespace Json

/-- The double as which the text of a finite double is read. -/
def reread (x : Float) : Float := (reread? x).getD x

theorem reread?_eq_some {x : Float} (h : x.isFinite = true) : reread? x = some (reread x) := by
  rw [← isSome_reread?] at h
  obtain ⟨y, hy⟩ := Option.isSome_iff_exists.mp h
  unfold reread
  rw [hy, Option.getD_some]

theorem exists_denotes_reread {x : Float} (h : x.isFinite = true) :
    ∃ r v : ℝ, Denotes x r ∧ Denotes (reread x) v ∧
      |v - r| ≤ 2 ^ (-49 : ℤ) * |r| + 2 ^ (-1073 : ℤ) := by
  obtain ⟨y, r, v, hy, hr, hv, hnear⟩ := exists_reread? h
  have heq : y = reread x := Option.some.inj (hy.symm.trans (reread?_eq_some h))
  exact ⟨r, v, hr, heq ▸ hv, hnear⟩

end Json

open Json (reread)

/-! ## Texts of values -/

namespace Codec

variable {α : Type} {c : Codec α}

/-- The text of a value on one line, with all its fields. -/
def encode (c : Codec α) (v : α) : String := (c.write Json.float v).compact

def decode? (c : Codec α) (text : String) : Option α := (Json.parse? text).bind c.read?

theorem decode?_encode_eq (c : Codec α) (v : α) :
    c.decode? (c.encode v) = c.read? (c.write Json.float v).respelled := by
  unfold decode? encode
  rw [Json.parse?_compact, Option.bind_some]

namespace Lawful

theorem read?_respelled (h : c.Lawful) {v : α} (hfinite : ∀ x ∈ c.numbers v, x.isFinite = true) :
    c.read? (c.write Json.float v).respelled = some (c.mapNumbers reread v) := by
  rw [h.respelled_write]
  apply h.read?_write
  intro x hx
  rw [← Json.reread?_eq]
  exact Json.reread?_eq_some (hfinite x hx)

/-- What is written of a value can be read exactly if its numbers are finite. -/
theorem isSome_read?_respelled_iff (h : c.Lawful) (v : α) :
    (c.read? (c.write Json.float v).respelled).isSome ↔ ∀ x ∈ c.numbers v, x.isFinite = true := by
  constructor
  · intro hread x hx
    rw [h.respelled_write] at hread
    have hnumber := h.isSome_of_read? hread x hx
    rwa [← Json.reread?_eq, Json.isSome_reread?] at hnumber
  · intro hfinite
    rw [h.read?_respelled hfinite, Option.isSome_some]

theorem read?_respelled_eq (h : c.Lawful) (v : α) :
    c.read? (c.write Json.float v).respelled =
      if (c.numbers v).all Float.isFinite then some (c.mapNumbers reread v) else none := by
  split_ifs with hfinite
  · exact h.read?_respelled (List.all_eq_true.mp hfinite)
  · rw [List.all_eq_true, ← h.isSome_read?_respelled_iff] at hfinite
    exact Option.not_isSome_iff_eq_none.mp hfinite

theorem decode?_encode_eq_some (h : c.Lawful) {v : α}
    (hfinite : ∀ x ∈ c.numbers v, x.isFinite = true) :
    c.decode? (c.encode v) = some (c.mapNumbers reread v) := by
  rw [decode?_encode_eq, h.read?_respelled hfinite]

/-- A value comes back as itself exactly if each of its numbers does. -/
theorem decode?_encode_eq_self_iff (h : c.Lawful) (v : α) :
    c.decode? (c.encode v) = some v ↔ ∀ x ∈ c.numbers v, Json.reread? x = some x := by
  constructor
  · intro hself x hx
    have hfinite : ∀ x ∈ c.numbers v, x.isFinite = true := by
      rw [← h.isSome_read?_respelled_iff, ← decode?_encode_eq, hself, Option.isSome_some]
    rw [h.decode?_encode_eq_some hfinite, Option.some.injEq,
      h.mapNumbers_eq_self_iff reread hfinite] at hself
    rw [Json.reread?_eq_some (hfinite x hx), hself x hx]
  · intro hnumbers
    have hfinite : ∀ x ∈ c.numbers v, x.isFinite = true := by
      intro x hx
      rw [← Json.isSome_reread?, hnumbers x hx, Option.isSome_some]
    rw [h.decode?_encode_eq_some hfinite, Option.some.injEq,
      h.mapNumbers_eq_self_iff reread hfinite]
    intro x hx
    exact Option.some.inj ((Json.reread?_eq_some (hfinite x hx)).symm.trans (hnumbers x hx))

end Lawful

end Codec

/-! ## The records with a text of their own -/

inductive RecordKind where
  | metrics
  | issue
  | coupling
  | sourceFile
  | fileScore
  | projectScore
  | curve
  | escalation
  | severityWeights
  | criticismWeights
  deriving Repr, DecidableEq

namespace RecordKind

def Value : RecordKind → Type
  | metrics => Metrics
  | issue => Severity
  | coupling => Coupling
  | sourceFile => SourceFile
  | fileScore => FileScore
  | projectScore => ProjectScore
  | curve => Curve
  | escalation => Escalation
  | severityWeights => Severity.Weights
  | criticismWeights => Criticism.Weights

def codec : (k : RecordKind) → Codec k.Value
  | metrics => Metrics.codec
  | issue => Severity.issueCodec
  | coupling => Coupling.codec
  | sourceFile => SourceFile.codec
  | fileScore => FileScore.codec
  | projectScore => ProjectScore.codec
  | curve => Curve.codec
  | escalation => Escalation.codec
  | severityWeights => Severity.Weights.codec
  | criticismWeights => Criticism.Weights.codec

theorem lawful_codec : (k : RecordKind) → k.codec.Lawful
  | metrics => Metrics.lawful_codec
  | issue => Severity.lawful_issueCodec
  | coupling => Coupling.lawful_codec
  | sourceFile => SourceFile.lawful_codec
  | fileScore => FileScore.lawful_codec
  | projectScore => ProjectScore.lawful_codec
  | curve => Curve.lawful_codec
  | escalation => Escalation.lawful_codec
  | severityWeights => Severity.Weights.lawful_codec
  | criticismWeights => Criticism.Weights.lawful_codec

end RecordKind

/-! ## Bundles -/

namespace Bundle

-- A bundle is written with the list of files as its only field.
def codec : Codec (List SourceFile) where
  write number files := .record (["files"].zip [SourceFile.codec.list.write number files])
  read? := ofJson?
  numbers := SourceFile.codec.list.numbers
  mapNumbers := SourceFile.codec.list.mapNumbers

theorem ofJson?_write (number : Float → Json) (files : List SourceFile) :
    ofJson? (codec.write number files) =
      SourceFile.codec.list.read? (SourceFile.codec.list.write number files) := by
  show ofJson? (Json.record _) = _
  unfold ofJson?
  rw [Json.fields?_record_zip _ (by decide) (by rfl)]
  rfl

theorem lawful_codec : codec.Lawful where
  respelled_write number files := by
    show (Json.record _).respelled = Json.record _
    rw [Json.respelled_record_zip, List.map_singleton, SourceFile.lawful_codec.list.respelled_write]
  read?_write := by
    intro number reading files h
    show ofJson? (codec.write number files) = _
    rw [ofJson?_write]
    exact SourceFile.lawful_codec.list.read?_write h
  isSome_of_read? := by
    intro number files h
    change (ofJson? (codec.write number files)).isSome at h
    rw [ofJson?_write] at h
    exact SourceFile.lawful_codec.list.isSome_of_read? h
  mapNumbers_eq_self_iff := SourceFile.lawful_codec.list.mapNumbers_eq_self_iff

theorem forall_numbers_iff (p : Float → Prop) (files : List SourceFile) :
    (∀ x ∈ codec.numbers files, p x) ↔ ∀ f ∈ files, p f.metrics.duplication := by
  show (∀ x ∈ files.flatMap fun f => [f.metrics.duplication], p x) ↔ _
  rw [List.forall_mem_flatMap]
  exact forall₂_congr fun f _ => List.forall_mem_singleton

theorem ofText_eq (text : String) :
    ofText text = match codec.decode? text with
      | some files => .ok files
      | none => .error .bundle := rfl

theorem ofText_eq_ok_iff (text : String) (files : List SourceFile) :
    ofText text = .ok files ↔ codec.decode? text = some files := by
  rw [ofText_eq]
  cases codec.decode? text with
  | none => simp
  | some read => simp

/-- A bundle is read as its files, in their order. -/
theorem ofText_encode {files : List SourceFile}
    (h : ∀ f ∈ files, f.metrics.duplication.isFinite = true) :
    ofText (codec.encode files) = .ok (files.map (SourceFile.codec.mapNumbers reread)) := by
  rw [ofText_eq_ok_iff]
  exact lawful_codec.decode?_encode_eq_some ((forall_numbers_iff (·.isFinite = true) files).mpr h)

theorem ofText_encode_eq_self_iff (files : List SourceFile) :
    ofText (codec.encode files) = .ok files ↔
      ∀ f ∈ files, Json.reread? f.metrics.duplication = some f.metrics.duplication := by
  rw [ofText_eq_ok_iff, lawful_codec.decode?_encode_eq_self_iff]
  exact forall_numbers_iff (fun x => Json.reread? x = some x) files

end Bundle

/-! ## Round trips -/

/-- Whatever is finite comes back, the files of a bundle in their order, and only numbers may
differ. Each comes back as what its own text is read as: a double close to it, and the same one for
decimals of few digits and places. -/
theorem RecordKind.roundTrip :
    (∀ (k : RecordKind) (v : k.Value),
      ((∀ x ∈ k.codec.numbers v, x.isFinite = true) →
        k.codec.decode? (k.codec.encode v) = some (k.codec.mapNumbers reread v)) ∧
      (k.codec.decode? (k.codec.encode v) = some v ↔
        ∀ x ∈ k.codec.numbers v, Json.reread? x = some x)) ∧
    (∀ files : List SourceFile,
      ((∀ f ∈ files, f.metrics.duplication.isFinite = true) →
        Bundle.ofText (Bundle.codec.encode files) =
          .ok (files.map (SourceFile.codec.mapNumbers reread))) ∧
      (Bundle.ofText (Bundle.codec.encode files) = .ok files ↔
        ∀ f ∈ files, Json.reread? f.metrics.duplication = some f.metrics.duplication)) ∧
    (∀ x : Float, x.isFinite = true →
      Json.reread? x = some (reread x) ∧
      ∃ r v : ℝ, Denotes x r ∧ Denotes (reread x) v ∧
        |v - r| ≤ 2 ^ (-49 : ℤ) * |r| + 2 ^ (-1073 : ℤ)) ∧
    ∀ (negative : Bool) (n k : ℕ), n < 10 ^ 14 → k ≤ 22 →
      Json.reread? (Decimal.toFloat ⟨negative, n, -k⟩) =
        some (Decimal.toFloat ⟨negative, n, -k⟩) := by
  refine ⟨?_, ?_, ?_, ?_⟩
  · intro k v
    exact ⟨k.lawful_codec.decode?_encode_eq_some, k.lawful_codec.decode?_encode_eq_self_iff v⟩
  · intro files
    exact ⟨Bundle.ofText_encode, Bundle.ofText_encode_eq_self_iff files⟩
  · intro x hfinite
    exact ⟨Json.reread?_eq_some hfinite, Json.exists_denotes_reread hfinite⟩
  · intro negative n k hn hk
    exact Json.reread?_toFloat negative hn hk

/-- A file whose path needs escapes, and whose ratio is an eighth below zero. -/
def escapedPath : SourceFile :=
  ⟨"a\"\\\n\x07\u00e9", ⟨3, 4, Decimal.toFloat ⟨true, 125, -3⟩, 1⟩, [.critical, .low],
    ⟨1, 2, true⟩⟩

theorem RecordKind.roundTrip_escapedPath :
    sourceFile.codec.decode? (sourceFile.codec.encode escapedPath) = some escapedPath := by
  refine ((RecordKind.roundTrip.1 .sourceFile _).2).mpr ?_
  intro x hx
  rw [List.mem_singleton.mp hx]
  exact RecordKind.roundTrip.2.2.2 true 125 3 (by decide) (by decide)

/-- The digits of a double may be scaled to its neighbour. -/
theorem Metrics.exists_decode?_encode_ne :
    ∃ m : Metrics, (∀ x ∈ codec.numbers m, x.isFinite = true) ∧
      codec.decode? (codec.encode m) ≠ some m := by
  have hparts :
      Binary64.ofFloat? 0.09210526315789473 = some ⟨false, 6636883661388099, -56⟩ := by
    decide
  have hread : Json.reread? 0.09210526315789473 ≠ some 0.09210526315789473 := by
    rw [Json.reread?_of_ofFloat? hparts]
    decide
  refine ⟨⟨0, 0, 0.09210526315789473, 0⟩, ?_, ?_⟩
  · intro x hx
    rw [List.mem_singleton.mp hx, ← Binary64.isSome_ofFloat?, hparts, Option.isSome_some]
  · rw [ne_eq, Metrics.lawful_codec.decode?_encode_eq_self_iff]
    intro hself
    exact hread (hself _ List.mem_cons_self)

end CodeQuality
