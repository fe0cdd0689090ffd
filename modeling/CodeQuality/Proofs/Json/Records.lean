import CodeQuality.Json.Coefficients
import CodeQuality.Json.Files
import CodeQuality.Json.Scores
import CodeQuality.Proofs.Double.Bits
import CodeQuality.Proofs.Json.Reading
import Mathlib.Data.List.Nodup

/-!
Records that are written and read back.

A reader of a record finds the entries that were written, one for each field. Names, texts, counts
and lists come back as they are, so what a reader makes of a record depends on nothing but what
the numbers in it are read as. This is the law of a codec, and each of the records follows it.
-/

namespace CodeQuality

namespace Json

/-! ## Parts of records -/

theorem respelled_record_zip : (names : List String) → (values : List Json) →
    (record (names.zip values)).respelled = record (names.zip (values.map respelled))
  | [], _ => rfl
  | _ :: _, [] => rfl
  | name :: names, v :: values => by
    have h := respelled_record_zip names values
    simp only [record, respelled, object.injEq] at h
    simp only [record, respelled, respelledMembers, List.zip_cons_cons, List.map_cons, h]

theorem respelled_array (items : List Json) :
    (array items).respelled = array (items.map respelled) := by
  rw [respelled]
  congr 1
  induction items with
  | nil => rfl
  | cons v rest ih => rw [respelledItems, ih, List.map_cons]

theorem respelled_nat {n : Nat} (h : n < twoPow 64) : (nat n).respelled = nat n := by
  show number (JsonNumber.respelled (.whole false n)) = nat n
  rw [JsonNumber.respelled_whole false h]
  rfl

@[simp] theorem respelled_word (n : UInt32) : (nat n.toNat).respelled = nat n.toNat :=
  respelled_nat (Nat.lt_trans n.toNat_lt (by decide))

@[simp] theorem respelled_longWord (n : UInt64) : (nat n.toNat).respelled = nat n.toNat :=
  respelled_nat n.toNat_lt

@[simp] theorem respelled_text (s : String) : (text s).respelled = text s := rfl

@[simp] theorem respelled_bool (b : Bool) : (bool b).respelled = bool b := rfl

theorem word?_nat (n : UInt32) : word? (nat n.toNat) = some n := by
  show ((if n.toNat < twoPow 32 then some n.toNat else none).map Nat.toUInt32) = some n
  rw [if_pos (show n.toNat < twoPow 32 from n.toNat_lt), Option.map_some]
  exact congrArg some n.ofNat_toNat

theorem longWord?_nat (n : UInt64) : longWord? (nat n.toNat) = some n := by
  show ((if n.toNat < twoPow 64 then some n.toNat else none).map Nat.toUInt64) = some n
  rw [if_pos (show n.toNat < twoPow 64 from n.toNat_lt), Option.map_some]
  exact congrArg some n.ofNat_toNat

/-! ## The fields of a record -/

theorem member?_cons_self (name : String) (v : Json) (members : List (JsonText × Json)) :
    member? ((some name, v) :: members) name = some v := by
  unfold member?
  rw [List.find?_cons_of_pos (by simp)]
  rfl

theorem member?_cons_of_ne {key name : String} (h : key ≠ name) (v : Json)
    (members : List (JsonText × Json)) :
    member? ((some key, v) :: members) name = member? members name := by
  unfold member?
  rw [List.find?_cons_of_neg (by simpa using h)]

/-- The members under distinct names are found in the order of the names. -/
theorem map_member? {names : List String} {values : List Json} (h : names.Nodup)
    (hlength : names.length = values.length) :
    names.map (member? ((names.zip values).map fun (name, v) => (some name, v))) =
      values.map some := by
  induction names generalizing values with
  | nil =>
    rw [List.eq_nil_of_length_eq_zero hlength.symm]
    rfl
  | cons name names ih =>
    cases values with
    | nil => exact absurd hlength (by simp)
    | cons v values =>
      have hnotin := (List.nodup_cons.mp h).1
      rw [List.zip_cons_cons, List.map_cons, List.map_cons, List.map_cons, member?_cons_self,
        ← ih (List.nodup_cons.mp h).2 (Nat.succ.inj hlength)]
      congr 1
      apply List.map_congr_left
      intro other hother
      apply member?_cons_of_ne
      intro heq
      exact hnotin (heq ▸ hother)

theorem fitsRecord_zip (strays : Strays) {names : List String} {values : List Json}
    (h : names.Nodup) (hlength : names.length = values.length) :
    fitsRecord strays names ((names.zip values).map fun (name, v) => (some name, v)) = true := by
  have hkeys : ((names.zip values).map fun m => (some m.1 : JsonText)).Nodup := by
    have hmap :=
      List.map_map (g := (some : String → JsonText)) (f := Prod.fst) (l := names.zip values)
    rw [List.map_fst_zip (Nat.le_of_eq hlength)] at hmap
    exact hmap ▸ h.map fun _ _ heq => Option.some.inj heq
  unfold fitsRecord
  rw [Bool.and_eq_true, Bool.and_eq_true]
  refine ⟨⟨?_, ?_⟩, ?_⟩
  · rw [List.all_map, List.all_eq_true]
    intro m _
    rfl
  · rw [List.all_eq_true]
    intro name _
    rw [decide_eq_true_eq, ← List.countP_eq_length_filter]
    have hcount := List.nodup_iff_count_le_one.mp hkeys (some name)
    rw [List.count, List.countP_map] at hcount
    rw [List.countP_map]
    exact hcount
  · rw [Bool.or_eq_true, List.all_map, List.all_eq_true]
    right
    intro m hm
    exact List.contains_iff_mem.mpr (List.of_mem_zip hm).1

theorem fields?_record_zip (strays : Strays) {names : List String} {values : List Json}
    (h : names.Nodup) (hlength : names.length = values.length) :
    fields? strays names (record (names.zip values)) = some (values.map some) := by
  show (if fitsRecord strays names _ then _ else _) = _
  rw [if_pos (fitsRecord_zip strays h hlength), map_member? h hlength]

/-! ## Lists -/

theorem list?_array_map {α β : Type} {read : Json → Option β} {write : α → Json} {f : α → β}
    {items : List α} (h : ∀ x ∈ items, read (write x) = some (f x)) :
    list? read (array (items.map write)) = some (items.map f) := by
  show (items.map write).mapM read = some (items.map f)
  induction items with
  | nil => rfl
  | cons x rest ih =>
    have hrest := ih fun y hy => h y (List.mem_cons_of_mem x hy)
    rw [List.map_cons, List.mapM_cons, h x List.mem_cons_self, hrest]
    rfl

theorem isSome_of_list? {β : Type} {read : Json → Option β} {items : List Json}
    (h : (list? read (array items)).isSome) : ∀ j ∈ items, (read j).isSome := by
  change (items.mapM read).isSome at h
  induction items with
  | nil => exact fun _ hj => absurd hj List.not_mem_nil
  | cons j rest ih =>
    rw [List.mapM_cons] at h
    cases hj : read j with
    | none =>
      rw [hj] at h
      cases h
    | some x =>
      cases hrest : rest.mapM read with
      | none =>
        rw [hj, hrest] at h
        cases h
      | some xs =>
        refine List.forall_mem_cons.mpr ⟨?_, ih ?_⟩
        · rw [hj, Option.isSome_some]
        · rw [hrest, Option.isSome_some]

end Json

/-! ## Codecs -/

/-- How the values of a type are written, given how a number is spelled, and how they are read. -/
structure Codec (α : Type) where
  write : (Float → Json) → α → Json
  read? : Json → Option α
  /-- The doubles that a value holds. -/
  numbers : α → List Float
  /-- A value with another double in the place of each. -/
  mapNumbers : (Float → Float) → α → α

/-- Nothing but numbers changes between writing and reading, and a value is read exactly if each
of its numbers is. With finite numbers it stays as it is exactly if each of them does. -/
structure Codec.Lawful {α : Type} (c : Codec α) : Prop where
  respelled_write : ∀ number v,
    (c.write number v).respelled = c.write (fun x => (number x).respelled) v
  read?_write : ∀ {number : Float → Json} {reading : Float → Float} {v : α},
    (∀ x ∈ c.numbers v, (number x).float? = some (reading x)) →
      c.read? (c.write number v) = some (c.mapNumbers reading v)
  isSome_of_read? : ∀ {number : Float → Json} {v : α}, (c.read? (c.write number v)).isSome →
    ∀ x ∈ c.numbers v, (number x).float?.isSome
  -- What is no number may be held in many forms, of which reading gives one.
  mapNumbers_eq_self_iff : ∀ (reading : Float → Float) {v : α},
    (∀ x ∈ c.numbers v, x.isFinite = true) →
      (c.mapNumbers reading v = v ↔ ∀ x ∈ c.numbers v, reading x = x)

namespace Codec

variable {α : Type} {c : Codec α}

/-- Lists of values, one after the other. -/
def list (c : Codec α) : Codec (List α) where
  write number vs := .array (vs.map (c.write number))
  read? := Json.list? c.read?
  numbers vs := vs.flatMap c.numbers
  mapNumbers f vs := vs.map (c.mapNumbers f)

theorem Lawful.list (h : c.Lawful) : c.list.Lawful where
  respelled_write number vs := by
    show (Json.array _).respelled = Json.array _
    rw [Json.respelled_array, List.map_map]
    congr 1
    apply List.map_congr_left
    intro v _
    exact h.respelled_write number v
  read?_write hvs := by
    apply Json.list?_array_map
    intro v hv
    exact h.read?_write fun x hx => hvs x (List.mem_flatMap.mpr ⟨v, hv, hx⟩)
  isSome_of_read? := by
    intro number vs hread
    show ∀ x ∈ vs.flatMap c.numbers, (number x).float?.isSome
    rw [List.forall_mem_flatMap]
    intro v hv
    exact h.isSome_of_read? (Json.isSome_of_list? hread _ (List.mem_map_of_mem hv))
  mapNumbers_eq_self_iff := by
    intro reading vs hfinite
    have hmap : vs.map (c.mapNumbers reading) = vs.map id ↔
        ∀ v ∈ vs, c.mapNumbers reading v = v := List.map_inj_left
    rw [List.map_id] at hmap
    show vs.map (c.mapNumbers reading) = vs ↔ ∀ x ∈ vs.flatMap c.numbers, reading x = x
    rw [hmap, List.forall_mem_flatMap]
    exact forall₂_congr fun v hv =>
      h.mapNumbers_eq_self_iff reading fun x hx => hfinite x (List.mem_flatMap.mpr ⟨v, hv, hx⟩)

end Codec

@[simp] theorem requiredField_some {V α : Type} (read : V → Option α) (v : V) :
    requiredField read (some v) = read v := rfl

@[simp] theorem defaultedField_some {V α : Type} (value : α) (read : V → Option α) (v : V) :
    defaultedField value read (some v) = read v := rfl

@[simp] theorem numberSource_float? (v : Json) : NumberSource.float? v = v.float? := rfl

@[simp] theorem numberSource_word? (v : Json) : NumberSource.word? v = v.word? := rfl

attribute [simp] Json.word?_nat Json.longWord?_nat

open Json

/-! ### Sets of coefficients -/

namespace Curve

def codec : Codec Curve where
  write := toJson
  read? := ofJson?
  numbers := coefficients
  mapNumbers f c :=
    ⟨f c.excellentMax, f c.linearMax, f c.quadraticMax, f c.linearPenalty, f c.quadraticPenalty,
     f c.quadraticExponent, f c.exponentialSpan, f c.exponentialExponent, f c.exponentialScale⟩

theorem ofJson?_toJson (number : Float → Json) (c : Curve) :
    ofJson? (c.toJson number) = ofFields? (c.coefficients.map (some ∘ number)) := by
  unfold ofJson? toJson
  rw [fields?_record_zip _ (by decide) (by rfl)]
  rfl

theorem lawful_codec : codec.Lawful where
  respelled_write number c := by
    show (Json.record _).respelled = Json.record _
    rw [respelled_record_zip]
    rfl
  read?_write := by
    intro number reading c h
    simp only [codec, coefficients, List.forall_mem_cons] at h
    show ofJson? (c.toJson number) = _
    rw [ofJson?_toJson]
    simp [coefficients, ofFields?, codec, h]
  isSome_of_read? := by
    intro number c h
    change (ofJson? (c.toJson number)).isSome at h
    rw [ofJson?_toJson] at h
    simp [coefficients, ofFields?, Option.isSome_iff_exists, Option.bind_eq_some_iff] at h
    simpa [codec, coefficients, Option.isSome_iff_exists] using h
  mapNumbers_eq_self_iff reading c _ := by
    cases c
    simp [codec, coefficients]

end Curve

namespace Escalation

def codec : Codec Escalation where
  write := toJson
  read? := ofJson?
  numbers := coefficients
  mapNumbers f e := ⟨f e.threshold, f e.span, f e.exponent, f e.scale⟩

theorem ofJson?_toJson (number : Float → Json) (e : Escalation) :
    ofJson? (e.toJson number) = ofFields? (e.coefficients.map (some ∘ number)) := by
  unfold ofJson? toJson
  rw [fields?_record_zip _ (by decide) (by rfl)]
  rfl

theorem lawful_codec : codec.Lawful where
  respelled_write number e := by
    show (Json.record _).respelled = Json.record _
    rw [respelled_record_zip]
    rfl
  read?_write := by
    intro number reading e h
    simp only [codec, coefficients, List.forall_mem_cons] at h
    show ofJson? (e.toJson number) = _
    rw [ofJson?_toJson]
    simp [coefficients, ofFields?, codec, h]
  isSome_of_read? := by
    intro number e h
    change (ofJson? (e.toJson number)).isSome at h
    rw [ofJson?_toJson] at h
    simp [coefficients, ofFields?, Option.isSome_iff_exists, Option.bind_eq_some_iff] at h
    simpa [codec, coefficients, Option.isSome_iff_exists] using h
  mapNumbers_eq_self_iff reading e _ := by
    cases e
    simp [codec, coefficients]

end Escalation

namespace Severity.Weights

def codec : Codec Severity.Weights where
  write := toJson
  read? := ofJson?
  numbers w := Severity.all.map w.weight
  mapNumbers f w := ⟨f w.critical, f w.high, f w.medium, f w.low⟩

theorem toJson_eq (number : Float → Json) (w : Severity.Weights) :
    w.toJson number = .record (fieldNames.zip ((Severity.all.map w.weight).map number)) := rfl

theorem ofJson?_toJson (number : Float → Json) (w : Severity.Weights) :
    ofJson? (w.toJson number) = ofFields? ((Severity.all.map w.weight).map (some ∘ number)) := by
  rw [toJson_eq]
  unfold ofJson?
  rw [fields?_record_zip _ (by decide) (by rfl)]
  rfl

theorem lawful_codec : codec.Lawful where
  respelled_write number w := by
    show (w.toJson number).respelled = w.toJson fun x => (number x).respelled
    rw [toJson_eq, respelled_record_zip]
    rfl
  read?_write := by
    intro number reading w h
    simp only [codec, Severity.all, List.map_cons, weight, List.forall_mem_cons] at h
    show ofJson? (w.toJson number) = _
    rw [ofJson?_toJson]
    simp [Severity.all, weight, ofFields?, codec, h]
  isSome_of_read? := by
    intro number w h
    change (ofJson? (w.toJson number)).isSome at h
    rw [ofJson?_toJson] at h
    simp [Severity.all, weight, ofFields?, Option.isSome_iff_exists, Option.bind_eq_some_iff] at h
    simpa [codec, Severity.all, weight, Option.isSome_iff_exists] using h
  mapNumbers_eq_self_iff reading w _ := by
    cases w
    simp [codec, Severity.all, weight]

end Severity.Weights

namespace Criticism.Weights

def codec : Codec Criticism.Weights where
  write := toJson
  read? := ofJson?
  numbers w :=
    [w.impactWeight, w.complexityWeight, w.issueWeight, w.cycleImpact, w.base,
     w.duplicationThreshold]
  mapNumbers f w :=
    ⟨f w.impactWeight, f w.complexityWeight, f w.issueWeight, f w.cycleImpact, f w.base,
     w.complexityThreshold, f w.duplicationThreshold, w.sizeThreshold⟩

theorem ofJson?_toJson (number : Float → Json) (w : Criticism.Weights) :
    ofJson? (w.toJson number) = ofFields?
      ([number w.impactWeight, number w.complexityWeight, number w.issueWeight,
        number w.cycleImpact, number w.base, .nat w.complexityThreshold.toNat,
        number w.duplicationThreshold, .nat w.sizeThreshold.toNat].map some) := by
  unfold ofJson? toJson
  rw [fields?_record_zip _ (by decide) (by rfl)]
  rfl

theorem lawful_codec : codec.Lawful where
  respelled_write number w := by
    show (w.toJson number).respelled = w.toJson fun x => (number x).respelled
    unfold toJson
    rw [respelled_record_zip]
    simp
  read?_write := by
    intro number reading w h
    simp only [codec, List.forall_mem_cons] at h
    show ofJson? (w.toJson number) = _
    rw [ofJson?_toJson]
    simp [ofFields?, codec, h]
  isSome_of_read? := by
    intro number w h
    change (ofJson? (w.toJson number)).isSome at h
    rw [ofJson?_toJson] at h
    simp [ofFields?, Option.isSome_iff_exists, Option.bind_eq_some_iff] at h
    simpa [codec, Option.isSome_iff_exists] using h
  mapNumbers_eq_self_iff reading w _ := by
    cases w
    simp [codec]

end Criticism.Weights

/-! ### Files -/

namespace Severity

-- The codec of an issue.
def issueCodec : Codec Severity where
  write _ := toIssueJson
  read? := ofIssueJson?
  numbers _ := []
  mapNumbers _ s := s

theorem ofIssueJson?_toIssueJson (s : Severity) : ofIssueJson? s.toIssueJson = some s := by
  cases s <;> rfl

theorem lawful_issueCodec : issueCodec.Lawful where
  respelled_write _ s := by cases s <;> rfl
  read?_write _ := ofIssueJson?_toIssueJson _
  isSome_of_read? _ := nofun
  mapNumbers_eq_self_iff reading s _ := by simp [issueCodec]

end Severity

namespace Metrics

def codec : Codec Metrics where
  write := toJson
  read? := ofJson?
  numbers m := [m.duplication]
  mapNumbers f m := { m with duplication := f m.duplication }

theorem ofJson?_toJson (number : Float → Json) (m : Metrics) :
    ofJson? (m.toJson number) =
      (number m.duplication).float?.map fun x => { m with duplication := x } := by
  unfold ofJson? toJson
  rw [fields?_record_zip _ (by decide) (by rfl)]
  simp [Option.map_eq_bind]

theorem lawful_codec : codec.Lawful where
  respelled_write number m := by
    show (m.toJson number).respelled = m.toJson fun x => (number x).respelled
    unfold toJson
    rw [respelled_record_zip]
    simp
  read?_write := by
    intro number reading m h
    show ofJson? (m.toJson number) = _
    rw [ofJson?_toJson, h _ List.mem_cons_self]
    rfl
  isSome_of_read? := by
    intro number m h
    change (ofJson? (m.toJson number)).isSome at h
    rw [ofJson?_toJson, Option.isSome_map] at h
    simpa [codec] using h
  mapNumbers_eq_self_iff reading m _ := by
    cases m
    simp [codec]

end Metrics

namespace Coupling

def codec : Codec Coupling where
  write _ := toJson
  read? := ofJson?
  numbers _ := []
  mapNumbers _ c := c

theorem ofJson?_toJson (c : Coupling) : ofJson? c.toJson = some c := by
  unfold ofJson? toJson
  rw [fields?_record_zip _ (by decide) (by rfl)]
  simp [bool?]

theorem lawful_codec : codec.Lawful where
  respelled_write _ c := by
    show c.toJson.respelled = c.toJson
    unfold toJson
    rw [respelled_record_zip]
    simp
  read?_write _ := ofJson?_toJson _
  isSome_of_read? _ := nofun
  mapNumbers_eq_self_iff reading c _ := by simp [codec]

end Coupling

namespace SourceFile

def codec : Codec SourceFile where
  write := toJson
  read? := ofJson?
  numbers f := Metrics.codec.numbers f.metrics
  mapNumbers reading f := { f with metrics := Metrics.codec.mapNumbers reading f.metrics }

theorem ofJson?_toJson (number : Float → Json) (f : SourceFile) :
    ofJson? (f.toJson number) =
      (Metrics.ofJson? (f.metrics.toJson number)).map fun m => { f with metrics := m } := by
  have hissues : list? Severity.ofIssueJson? (.array (f.issues.map Severity.toIssueJson)) =
      some f.issues := by
    rw [list?_array_map (f := id) fun s _ => s.ofIssueJson?_toIssueJson, List.map_id]
  unfold ofJson? toJson
  rw [fields?_record_zip _ (by decide) (by rfl)]
  simp [Json.text, string?, hissues, Coupling.ofJson?_toJson, Option.map_eq_bind]

theorem lawful_codec : codec.Lawful where
  respelled_write number f := by
    have hissues (s : Severity) : s.toIssueJson.respelled = s.toIssueJson :=
      Severity.lawful_issueCodec.respelled_write number s
    have hmetrics := Metrics.lawful_codec.respelled_write number f.metrics
    have hcoupling := Coupling.lawful_codec.respelled_write number f.coupling
    show (f.toJson number).respelled = f.toJson fun x => (number x).respelled
    unfold toJson
    rw [respelled_record_zip]
    simp only [List.map_cons, List.map_nil, respelled_text, respelled_array, List.map_map,
      Function.comp_def, hissues]
    rw [show (f.metrics.toJson number).respelled = _ from hmetrics,
      show f.coupling.toJson.respelled = _ from hcoupling]
    rfl
  read?_write := by
    intro number reading f h
    have hmetrics := Metrics.lawful_codec.read?_write h
    show ofJson? (f.toJson number) = _
    rw [ofJson?_toJson, show Metrics.ofJson? (f.metrics.toJson number) = _ from hmetrics]
    rfl
  isSome_of_read? := by
    intro number f h
    change (ofJson? (f.toJson number)).isSome at h
    rw [ofJson?_toJson, Option.isSome_map] at h
    exact Metrics.lawful_codec.isSome_of_read? h
  mapNumbers_eq_self_iff reading f hfinite := by
    have hmetrics := Metrics.lawful_codec.mapNumbers_eq_self_iff reading hfinite
    cases f
    simpa [codec] using hmetrics

end SourceFile

/-! ### Scores -/

namespace FileScore

def codec : Codec FileScore where
  write := toJson
  read? := ofJson?
  numbers f :=
    [f.complexity, f.duplication, f.size, f.health, f.criticism.toFloat, f.issuePenalty,
     f.escalationPenalty]
  mapNumbers reading f :=
    { f with
      complexity := reading f.complexity
      duplication := reading f.duplication
      size := reading f.size
      health := reading f.health
      criticism := .ofFloat (reading f.criticism.toFloat)
      issuePenalty := reading f.issuePenalty
      escalationPenalty := reading f.escalationPenalty }

theorem lawful_codec : codec.Lawful where
  respelled_write number f := by
    show (f.toJson number).respelled = f.toJson fun x => (number x).respelled
    unfold toJson
    rw [respelled_record_zip]
    simp
  read?_write := by
    intro number reading f h
    simp only [codec, List.forall_mem_cons] at h
    show ofJson? (f.toJson number) = _
    unfold ofJson? toJson
    rw [fields?_record_zip _ (by decide) (by rfl)]
    simp [Json.text, string?, codec, h]
  isSome_of_read? := by
    intro number f h
    change (ofJson? (f.toJson number)).isSome at h
    unfold ofJson? toJson at h
    rw [fields?_record_zip _ (by decide) (by rfl)] at h
    simp [Json.text, string?, Option.isSome_iff_exists, Option.bind_eq_some_iff] at h
    simpa [codec, Option.isSome_iff_exists] using h
  mapNumbers_eq_self_iff reading f hfinite := by
    -- The bits of a finite double are those of the double that they make.
    have hbits : DoubleBits.ofFloat f.criticism.toFloat = f.criticism := by
      obtain ⟨r, hr⟩ := Double.exists_denotes_of_isFinite
        (hfinite f.criticism.toFloat (by simp [codec]))
      exact DoubleBits.ofFloat_toFloat ((DoubleBits.isNaN_toFloat _).symm.trans hr.isNaN_eq_false)
    have hcriticism : DoubleBits.ofFloat (reading f.criticism.toFloat) = f.criticism ↔
        reading f.criticism.toFloat = f.criticism.toFloat := by
      rw [← DoubleBits.ofFloat_inj, hbits]
    cases f
    simp [codec, hcriticism]

end FileScore

namespace ProjectScore

def codec : Codec ProjectScore where
  write := toJson
  read? := ofJson?
  numbers p := [p.means.complexity, p.means.maintainability, p.means.duplication, p.overall]
  mapNumbers reading p := { p with means := p.means.map reading, overall := reading p.overall }

theorem ofJson?_toJson_mode (mode : DuplicationMode) :
    DuplicationMode.ofJson? mode.toJson = some mode := mode.ofName?_name

theorem ofJson?_toJson_scheme (scheme : Scheme) : Scheme.ofJson? scheme.toJson = some scheme :=
  scheme.ofName?_name

theorem lawful_codec : codec.Lawful where
  respelled_write number p := by
    show (p.toJson number).respelled = p.toJson fun x => (number x).respelled
    unfold toJson
    rw [respelled_record_zip]
    simp [DuplicationMode.toJson, Scheme.toJson]
  read?_write := by
    intro number reading p h
    simp only [codec, List.forall_mem_cons] at h
    show ofJson? (p.toJson number) = _
    unfold ofJson? toJson
    rw [fields?_record_zip _ (by decide) (by rfl)]
    simp [ofJson?_toJson_mode, ofJson?_toJson_scheme, Dimensions.map, codec, h]
  isSome_of_read? := by
    intro number p h
    change (ofJson? (p.toJson number)).isSome at h
    unfold ofJson? toJson at h
    rw [fields?_record_zip _ (by decide) (by rfl)] at h
    simp [ofJson?_toJson_mode, ofJson?_toJson_scheme, Option.isSome_iff_exists,
      Option.bind_eq_some_iff] at h
    simpa [codec, Option.isSome_iff_exists] using h
  mapNumbers_eq_self_iff reading p _ := by
    rcases p with ⟨⟨_, _, _⟩, _⟩
    simp [codec, Dimensions.map, and_assoc]

end ProjectScore

end CodeQuality
