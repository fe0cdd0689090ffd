import CodeQuality.Proofs.Json.RoundTrips
import CodeQuality.Proofs.Overflow
import CodeQuality.Report.Render

/-!
Reports whose numbers are finite.

The scores of a report are finite, and its other numbers are finite or infinite, as long as no
penalty of a file is lost. What is not finite is written as `null`, which no number is read from.
So the text of a report holds a `null` exactly if a number of the report is not finite, and a file
of it can be read back exactly if its own numbers are finite.
-/

namespace CodeQuality

open Double
open Json (reread)

/-! ## Values that hold a null -/

namespace Json

mutual

def holdsNull : Json → Bool
  | null => true
  | array items => itemsHoldNull items
  | object members => membersHoldNull members
  | _ => false

def itemsHoldNull : List Json → Bool
  | [] => false
  | v :: rest => holdsNull v || itemsHoldNull rest

def membersHoldNull : List (JsonText × Json) → Bool
  | [] => false
  | (_, v) :: rest => holdsNull v || membersHoldNull rest

end

mutual

/-- Spelling a number in another way makes no value null. -/
theorem holdsNull_respelled : (v : Json) → v.respelled.holdsNull = v.holdsNull
  | null => rfl
  | bool _ => rfl
  | number _ => rfl
  | string _ => rfl
  | array items => itemsHoldNull_respelled items
  | object members => membersHoldNull_respelled members

theorem itemsHoldNull_respelled : (items : List Json) →
    itemsHoldNull (respelledItems items) = itemsHoldNull items
  | [] => rfl
  | v :: rest => by
    rw [respelledItems, itemsHoldNull, itemsHoldNull, holdsNull_respelled v,
      itemsHoldNull_respelled rest]

theorem membersHoldNull_respelled : (members : List (JsonText × Json)) →
    membersHoldNull (respelledMembers members) = membersHoldNull members
  | [] => rfl
  | (k, v) :: rest => by
    rw [respelledMembers, membersHoldNull, membersHoldNull, holdsNull_respelled v,
      membersHoldNull_respelled rest]

end

@[simp] theorem holdsNull_text (s : String) : (text s).holdsNull = false := rfl

@[simp] theorem holdsNull_nat (n : Nat) : (nat n).holdsNull = false := rfl

@[simp] theorem holdsNull_float (x : Float) : (float x).holdsNull = !x.isFinite := by
  rw [← Binary64.isSome_ofFloat?]
  unfold float
  cases Binary64.ofFloat? x <;> rfl

@[simp] theorem holdsNull_array (items : List Json) :
    (array items).holdsNull = items.any holdsNull := by
  rw [holdsNull]
  induction items with
  | nil => rfl
  | cons v rest ih => rw [itemsHoldNull, ih, List.any_cons]

@[simp] theorem holdsNull_record (members : List (String × Json)) :
    (record members).holdsNull = members.any (·.2.holdsNull) := by
  unfold record
  rw [holdsNull]
  induction members with
  | nil => rfl
  | cons m rest ih => rw [List.map_cons, membersHoldNull, ih, List.any_cons]

end Json

/-! ## The numbers of a report -/

theorem ProjectScore.holdsNull_toJson (p : ProjectScore) :
    (p.toJson Json.float).holdsNull = (codec.numbers p).any fun x => !x.isFinite := by
  simp [toJson, codec, fieldNames, DuplicationMode.toJson, Scheme.toJson]

theorem FileScore.holdsNull_toJson (f : FileScore) :
    (f.toJson Json.float).holdsNull = (codec.numbers f).any fun x => !x.isFinite := by
  simp [toJson, codec, fieldNames]

def RankedFile.numbers (f : RankedFile) : List Float := [f.criticism.toFloat, f.health]

theorem RankedFile.holdsNull_toJson (f : RankedFile) :
    (f.toJson Json.float).holdsNull = f.numbers.any fun x => !x.isFinite := by
  simp [toJson, numbers]

namespace Report

/-- Every number of a report: of the project, of the order of review and of the files. -/
def numbers (r : Report) : List Float :=
  ProjectScore.codec.numbers r.project ++ r.ranking.flatMap RankedFile.numbers
    ++ r.files.flatMap FileScore.codec.numbers

/-- The numbers of a report that stand for scores from 0 to 100. -/
def scores (r : Report) : List Float :=
  ProjectScore.codec.numbers r.project ++ r.ranking.map RankedFile.health
    ++ r.files.flatMap fun f => [f.complexity, f.duplication, f.size, f.health]

theorem holdsNull_toJson (r : Report) :
    (r.toJson Json.float).holdsNull = r.numbers.any fun x => !x.isFinite := by
  unfold toJson numbers
  rw [Json.holdsNull_record, List.any_append, List.any_append, List.any_flatMap, List.any_flatMap]
  simp only [List.any_cons, List.any_nil, Json.holdsNull_array, List.any_map, Function.comp_def,
    ProjectScore.holdsNull_toJson, RankedFile.holdsNull_toJson, FileScore.holdsNull_toJson,
    Bool.or_false, Bool.or_assoc]

/-! ## The text of a report -/

theorem parse?_render (r : Report) (limit : Nat) :
    Json.parse? (r.render limit .json) = some (r.toJson Json.float).respelled :=
  Json.parse?_pretty _

/-- The items of the list of files in the text of a report. -/
def fileItems? (text : String) : Option (List Json) := do
  match ← (← Json.parse? text).fields? .ignored ["project", "ranking", "files"] with
  | [_, _, some (.array items)] => some items
  | _ => none

theorem fileItems?_render (r : Report) (limit : Nat) :
    fileItems? (r.render limit .json) =
      some (r.files.map fun f => (f.toJson Json.float).respelled) := by
  have hrecord : r.toJson Json.float = Json.record (["project", "ranking", "files"].zip
      [r.project.toJson Json.float, .array (r.ranking.map (·.toJson Json.float)),
       .array (r.files.map (·.toJson Json.float))]) := rfl
  unfold fileItems?
  rw [parse?_render, hrecord, Json.respelled_record_zip]
  simp only [Option.bind_eq_bind, Option.bind_some]
  rw [Json.fields?_record_zip _ (by decide) (by rfl)]
  simp [Json.respelled_array]

/-- A null stands in the text of a report exactly for a number that is not finite. -/
theorem holdsNull_render (r : Report) (limit : Nat) :
    (Json.parse? (r.render limit .json)).map Json.holdsNull =
      some (r.numbers.any fun x => !x.isFinite) := by
  rw [parse?_render, Option.map_some, Json.holdsNull_respelled, holdsNull_toJson]

/-- Of the files in the text of a report, those with finite numbers can be read. -/
theorem read_fileItems (r : Report) (limit : Nat) :
    (fileItems? (r.render limit .json)).map (·.map FileScore.ofJson?) =
      some (r.files.map fun f =>
        if (FileScore.codec.numbers f).all Float.isFinite then
          some (FileScore.codec.mapNumbers reread f)
        else none) := by
  rw [fileItems?_render, Option.map_some, List.map_map]
  congr 1
  apply List.map_congr_left
  intro f _
  exact FileScore.lawful_codec.read?_respelled_eq f

end Report

/-! ## Scores that are not lost -/

theorem IsScore.isFinite {x : Float} (h : IsScore x) : x.isFinite = true :=
  isFinite_of_le h.1 h.2 (by decide)

theorem IsWholeScore.isScore {x : Float} (h : IsWholeScore x) : IsScore x := by
  obtain ⟨n, hn, hx⟩ := isWholeScore_iff.mp h
  refine isScore_of_denotes hx (EReal.coe_nonneg.mpr (Nat.cast_nonneg n)) ?_
  rw [hundred_eq]
  exact EReal.coe_le_coe_iff.mpr (Nat.cast_le.mpr hn)

/-- A file whose scores are on the scale and whose other numbers are none below zero. -/
structure FileScore.Unlost (f : FileScore) : Prop where
  complexity : IsScore f.complexity
  duplication : IsScore f.duplication
  size : IsScore f.size
  health : IsScore f.health
  criticism : 0.0 ≤ f.criticism.toFloat
  issuePenalty : 0.0 ≤ f.issuePenalty
  escalationPenalty : 0.0 ≤ f.escalationPenalty

theorem FileScore.Unlost.numbers_nonneg {f : FileScore} (h : f.Unlost) :
    ∀ x ∈ FileScore.codec.numbers f, 0.0 ≤ x := by
  simp only [codec, List.forall_mem_cons]
  exact ⟨h.complexity.1, h.duplication.1, h.size.1, h.health.1, h.criticism, h.issuePenalty,
    h.escalationPenalty, List.forall_mem_nil _⟩

namespace Profile

variable {power : Power} {p : Profile}

theorem Accepted.unlost_measure (h : power.NonNegative) (hp : p.Accepted) {f : SourceFile}
    (hf : f.fault? = none) (hlost : p.losesHealth power f = false) :
    FileScore.IsWhole (p.measure power f) ∧ FileScore.Unlost (p.measure power f) := by
  obtain ⟨hcomplexity, hduplication, hsize, hhealth⟩ := hp.measure_spec h hf
  have hparts := hlost
  unfold losesHealth losesScore at hparts
  simp only [Bool.or_eq_false_iff] at hparts
  rcases hparts with ⟨⟨⟨h₁, h₂⟩, h₃⟩, h₄⟩
  rw [h₁] at hcomplexity
  rw [h₂] at hduplication
  rw [h₃] at hsize
  rw [hlost] at hhealth
  exact ⟨⟨hcomplexity, hsize, hduplication⟩,
    { complexity := hcomplexity.isScore
      duplication := hduplication.isScore
      size := hsize.isScore
      health := hhealth
      criticism := (toFloat_criticism_measure power p f).symm ▸
        Criticism.Weights.score_nonneg hp.criticism f.metrics f.coupling
      issuePenalty := Severity.Weights.penalty_nonneg hp.severities f.issues
      escalationPenalty := Escalation.penalty_nonneg h hp.escalation h₄ }⟩

end Profile

namespace ProjectScore

/-- Whole sub-scores have finite means and a finite overall score, none of them below zero. -/
theorem numbers_ofFiles {w : Weighting} (hw : w.fault? = none) {files : List FileScore}
    (hwhole : ∀ f ∈ files, f.IsWhole) (mode : DuplicationMode) :
    ∀ x ∈ codec.numbers (ofFiles files w mode), x.isFinite = true ∧ 0.0 ≤ x := by
  have hmeans := exists_dimensionMeans (.inr hwhole)
  have hmean : ∀ x ∈ (dimensionMeans files).toList, x.isFinite = true ∧ 0.0 ≤ x := by
    intro x hx
    obtain ⟨a, ha, ha₀⟩ := hmeans x hx
    exact ⟨ha.isFinite_iff.mpr ⟨a, rfl⟩, nonneg_of_denotes ha (EReal.coe_nonneg.mpr ha₀)⟩
  have hoverall : IsScore (ofFiles files w mode).overall := by
    obtain ⟨v, hv⟩ := Dimensions.exists_dot hw hmeans
    rw [overall_ofFiles]
    exact isScore_clampScore hv
  simp only [codec, means_ofFiles, List.forall_mem_cons]
  simp only [Dimensions.toList, List.forall_mem_cons] at hmean
  exact ⟨hmean.1, hmean.2.1, hmean.2.2.1, ⟨hoverall.isFinite, hoverall.1⟩, List.forall_mem_nil _⟩

end ProjectScore

theorem exists_of_mem_rankFiles {files : List FileScore} {r : RankedFile}
    (h : r ∈ rankFiles files) : ∃ f ∈ files, r.criticism = f.criticism ∧ r.health = f.health := by
  obtain ⟨⟨f, index⟩, hf, rfl⟩ := List.mem_map.mp h
  exact ⟨f, List.mem_mergeSort.mp (List.fst_mem_of_mem_zipIdx hf), rfl, rfl⟩

namespace Report

/-- The order of review repeats numbers of the files. -/
theorem forall_numbers_ofScores {P : Float → Prop} {p : Profile} {files : List FileScore}
    (hproject : ∀ x ∈ ProjectScore.codec.numbers (ofScores p files).project, P x)
    (hfiles : ∀ f ∈ files, ∀ x ∈ FileScore.codec.numbers f, P x) :
    ∀ x ∈ (ofScores p files).numbers, P x := by
  unfold numbers
  rw [List.forall_mem_append, List.forall_mem_append, List.forall_mem_flatMap,
    List.forall_mem_flatMap]
  refine ⟨⟨hproject, ?_⟩, hfiles⟩
  intro r hr
  obtain ⟨f, hf, hcriticism, hhealth⟩ := exists_of_mem_rankFiles hr
  have hf' := hfiles f hf
  simp only [FileScore.codec, List.forall_mem_cons] at hf'
  simp only [RankedFile.numbers, List.forall_mem_cons, hcriticism, hhealth]
  exact ⟨hf'.2.2.2.2.1, hf'.2.2.2.1, List.forall_mem_nil _⟩

theorem isFinite_scores_ofScores {p : Profile} {files : List FileScore}
    (hproject : ∀ x ∈ ProjectScore.codec.numbers (ofScores p files).project, x.isFinite = true)
    (hfiles : ∀ f ∈ files, f.Unlost) : ∀ x ∈ (ofScores p files).scores, x.isFinite = true := by
  unfold scores
  rw [List.forall_mem_append, List.forall_mem_append, List.forall_mem_map, List.forall_mem_flatMap]
  refine ⟨⟨hproject, ?_⟩, ?_⟩
  · intro r hr
    obtain ⟨f, hf, -, hhealth⟩ := exists_of_mem_rankFiles hr
    rw [hhealth]
    exact (hfiles f hf).health.isFinite
  · intro f hf
    have hf' := hfiles f hf
    simp only [List.forall_mem_cons]
    exact ⟨hf'.complexity.isFinite, hf'.duplication.isFinite, hf'.size.isFinite,
      hf'.health.isFinite, List.forall_mem_nil _⟩

end Report

/-! ## Reports on projects -/

namespace Profile

variable {power : Power} {p : Profile}

theorem Bounded.isFinite_numbers (hbounded : p.Bounded power) (h : power.NonNegative)
    (hp : p.Accepted) {f : SourceFile} (hf : f.fault? = none)
    (hunlost : FileScore.Unlost (p.measure power f)) :
    ∀ x ∈ FileScore.codec.numbers (p.measure power f), x.isFinite = true := by
  obtain ⟨hcriticism, hissues, hescalation⟩ := (hp.bounded_iff h).mp hbounded f hf
  simp only [FileScore.codec, List.forall_mem_cons]
  exact ⟨hunlost.complexity.isFinite, hunlost.duplication.isFinite, hunlost.size.isFinite,
    hunlost.health.isFinite, (isFinite_iff_of_nonneg hunlost.criticism).mpr hcriticism,
    (isFinite_iff_of_nonneg hunlost.issuePenalty).mpr hissues,
    (isFinite_iff_of_nonneg hunlost.escalationPenalty).mpr hescalation, List.forall_mem_nil _⟩

theorem scoreProject_singleton (power : Power) (hp : p.Accepted) {f : SourceFile}
    (hf : f.validate = .ok ()) :
    p.scoreProject power [f] = .ok (Report.ofScores p [p.measure power f]) := by
  rw [SourceFile.validate_eq_ok_iff] at hf
  exact scoreProject_eq_ok_iff.mpr ⟨hp, rfl, List.forall_mem_singleton.mpr hf, rfl⟩

/-- As long as no penalty of a file is lost, the scores of a report are finite and no number of it
is less than zero. Criticism and the penalties of a file may be infinite, unless the coefficients
are bounded. The text of the report holds a null exactly if a number is infinite, and each file in
it can be read back exactly if its own numbers are finite. -/
theorem scoreProject_numbers (h : power.NonNegative) {files : List SourceFile} {report : Report}
    (hreport : p.scoreProject power files = .ok report)
    (hlost : ∀ f ∈ files, p.losesHealth power f = false) :
    (∀ x ∈ report.scores, x.isFinite = true) ∧
    (∀ x ∈ report.numbers, 0.0 ≤ x) ∧
    (p.Bounded power → ∀ x ∈ report.numbers, x.isFinite = true) ∧
    (p.Bounded power ↔ ∀ f : SourceFile, f.fault? = none →
      (p.measure power f).criticism.toFloat.isInf = false ∧
        (p.measure power f).issuePenalty.isInf = false ∧
        (p.measure power f).escalationPenalty.isInf = false) ∧
    ∀ limit : Nat,
      (Json.parse? (report.render limit .json)).map Json.holdsNull =
        some (report.numbers.any fun x => !x.isFinite) ∧
      (Report.fileItems? (report.render limit .json)).map (·.map FileScore.ofJson?) =
        some (report.files.map fun f =>
          if (FileScore.codec.numbers f).all Float.isFinite then
            some (FileScore.codec.mapNumbers reread f)
          else none) := by
  obtain ⟨hp, -, hfiles, rfl⟩ := scoreProject_eq_ok_iff.mp hreport
  have hmeasured : ∀ s ∈ files.map (p.measure power), s.IsWhole ∧ s.Unlost := by
    rw [List.forall_mem_map]
    intro f hf
    exact hp.unlost_measure h (hfiles f hf) (hlost f hf)
  have hproject := ProjectScore.numbers_ofFiles hp.weighting
    (fun s hs => (hmeasured s hs).1) p.mode
  refine ⟨?_, ?_, ?_, hp.bounded_iff h, ?_⟩
  · exact Report.isFinite_scores_ofScores (fun x hx => (hproject x hx).1)
      fun s hs => (hmeasured s hs).2
  · exact Report.forall_numbers_ofScores (fun x hx => (hproject x hx).2)
      fun s hs => (hmeasured s hs).2.numbers_nonneg
  · intro hbounded
    apply Report.forall_numbers_ofScores fun x hx => (hproject x hx).1
    rw [List.forall_mem_map]
    intro f hf
    exact hbounded.isFinite_numbers h hp (hfiles f hf)
      (hp.unlost_measure h (hfiles f hf) (hlost f hf)).2
  · intro limit
    exact ⟨Report.holdsNull_render _ limit, Report.read_fileItems _ limit⟩

theorem scoreProject_numbers_standard :
    ∃ report, standard.scoreProject Power.square [beforeGrowth] = .ok report ∧
      (∀ x ∈ report.numbers, x.isFinite = true ∧ 0.0 ≤ x) ∧
      (Json.parse? (report.render 10 .json)).map Json.holdsNull = some false := by
  have hreport := scoreProject_singleton Power.square accepted_standard
    (show beforeGrowth.validate = .ok () from rfl)
  have hlost : ∀ f ∈ [beforeGrowth], standard.losesHealth Power.square f = false := by
    rw [List.forall_mem_singleton]
    decide
  obtain ⟨-, hnonneg, hfinite, -, htext⟩ :=
    scoreProject_numbers Power.monotone_square.nonNegative hreport hlost
  have hfinite := hfinite bounded_standard
  refine ⟨_, hreport, fun x hx => ⟨hfinite x hx, hnonneg x hx⟩, (htext 10).1.trans ?_⟩
  rw [Option.some_inj, List.any_eq_false]
  intro x hx
  simp [hfinite x hx]

/-- Issues that weigh so much that two of them already cost more than the doubles hold. -/
def heavyIssues : Profile :=
  { standard with severities := { Severity.Weights.standard with critical := 1e308 } }

theorem accepted_heavyIssues : heavyIssues.Accepted := by
  refine ⟨rfl, rfl, ?_, rfl, ?_, rfl, rfl⟩
  · intro mode
    cases mode <;> rfl
  · have hfaultless : heavyIssues.severities.fault?.isNone = true := by decide +kernel
    exact Option.isNone_iff_eq_none.mp hfaultless

def twiceCritical : SourceFile := ⟨"a", ⟨1, 1, 0.0, 0⟩, [.critical, .critical], default⟩

/-- Being accepted alone does not keep the numbers of a report finite. -/
theorem exists_scoreProject_infinite :
    ¬ ∀ (power : Power) (p : Profile) (files : List SourceFile) (report : Report),
      power.NonNegative → p.validate = .ok () → p.scoreProject power files = .ok report →
        ∀ x ∈ report.numbers, x.isFinite = true := by
  intro h
  have hreport := scoreProject_singleton Power.square accepted_heavyIssues
    (show twiceCritical.validate = .ok () from rfl)
  have hpenalty :
      (heavyIssues.measure Power.square twiceCritical).issuePenalty.isFinite = false := by
    decide +kernel
  have hmember : (heavyIssues.measure Power.square twiceCritical).issuePenalty ∈
      (Report.ofScores heavyIssues [heavyIssues.measure Power.square twiceCritical]).numbers := by
    simp [Report.numbers, Report.ofScores, FileScore.codec]
  have hfinite := h Power.square heavyIssues [twiceCritical] _ Power.monotone_square.nonNegative
    ((validate_eq_ok_iff _).mpr accepted_heavyIssues) hreport _ hmember
  rw [hpenalty] at hfinite
  exact Bool.noConfusion hfinite

end Profile

end CodeQuality
