import CodeQuality.Proofs.Json.Records
import Mathlib.Data.List.Forall2

/-!
Ways to write a record.

Members may stand in any order, strays may stand among them, a field that is left out may be written
with its default, and the whole may be written as an array. A reader that looks at nothing but the
entries of the fields reads the same from all of these, at any depth. A record that gives a field
twice is not read at all.
-/

namespace CodeQuality.Json

/-- How a field is written: its name, its default if it has one, which values may be written for
one another, and which values give a field of their own twice. -/
structure FieldForm where
  name : String
  default? : Option Json
  Rewrites : Json → Json → Prop
  Repeats : Json → Prop

def valuesOf (members : List (JsonText × Json)) (name : String) : List Json :=
  (members.filter (·.1 == some name)).map (·.2)

/-- The value of a field in an object: that of its only member, or else its default. -/
def FieldForm.Holds (f : FieldForm) (members : List (JsonText × Json)) (v : Json) : Prop :=
  valuesOf members f.name = [v] ∨ valuesOf members f.name = [] ∧ f.default? = some v

section

variable (fields : List FieldForm)

/-- Two ways to write a record with some fields. -/
inductive Rewrites : Json → Json → Prop
  | refl (j : Json) : Rewrites j j
  | symm {j k : Json} : Rewrites j k → Rewrites k j
  | trans {j k l : Json} : Rewrites j k → Rewrites k l → Rewrites j l
  | reorder {members others : List (JsonText × Json)} :
      members.Perm others → Rewrites (object members) (object others)
  | stray (members : List (JsonText × Json)) {name : String} (v : Json) :
      name ∉ fields.map FieldForm.name →
        Rewrites (object members) (object ((some name, v) :: members))
  | default (members : List (JsonText × Json)) {f : FieldForm} {d : Json} :
      f ∈ fields → f.default? = some d → valuesOf members f.name = [] →
        Rewrites (object members) (object ((some f.name, d) :: members))
  | member (members : List (JsonText × Json)) {f : FieldForm} {v w : Json} :
      f ∈ fields → f.Rewrites v w →
        Rewrites (object ((some f.name, v) :: members)) (object ((some f.name, w) :: members))
  -- All fields in their order, with a default for each that has no member.
  | positional {members : List (JsonText × Json)} {values : List Json} :
      (∀ m ∈ members, m.1.isSome) → List.Forall₂ (fun f v => f.Holds members v) fields values →
        Rewrites (object members) (array values)
  -- The first field that the array leaves out, as long as it has a default.
  | trailing (items : List Json) {f : FieldForm} {d : Json} :
      fields[items.length]? = some f → f.default? = some d →
        Rewrites (array items) (array (items ++ [d]))
  | item (front back : List Json) {f : FieldForm} {v w : Json} :
      fields[front.length]? = some f → f.Rewrites v w →
        Rewrites (array (front ++ v :: back)) (array (front ++ w :: back))

/-- A record, or one in it, gives a field twice. -/
inductive Repeats : Json → Prop
  | here {members : List (JsonText × Json)} {f : FieldForm} :
      f ∈ fields → 2 ≤ (valuesOf members f.name).length → Repeats (object members)
  | member {members : List (JsonText × Json)} {f : FieldForm} {v : Json} :
      f ∈ fields → v ∈ valuesOf members f.name → f.Repeats v → Repeats (object members)
  | item {items : List Json} {f : FieldForm} {v : Json} (i : ℕ) :
      fields[i]? = some f → items[i]? = some v → f.Repeats v → Repeats (array items)

/-- Lists whose items are written in other ways, one by one. -/
inductive RewritesItems : Json → Json → Prop
  | intro {items others : List Json} :
      List.Forall₂ (Rewrites fields) items others → RewritesItems (array items) (array others)

inductive RepeatsInItem : Json → Prop
  | intro {items : List Json} {v : Json} :
      v ∈ items → Repeats fields v → RepeatsInItem (array items)

end

namespace FieldForm

/-- A field with a value that is written in one way only. -/
def plain (name : String) : FieldForm := ⟨name, none, (· = ·), fun _ => False⟩

/-- A field with a record as its value. -/
def nested (name : String) (fields : List FieldForm) : FieldForm :=
  ⟨name, none, Json.Rewrites fields, Json.Repeats fields⟩

/-- A field with a list of records as its value. -/
def listed (name : String) (fields : List FieldForm) : FieldForm :=
  ⟨name, none, RewritesItems fields, RepeatsInItem fields⟩

def withDefault (f : FieldForm) (d : Json) : FieldForm := { f with default? := some d }

end FieldForm

/-! ## Readers -/

/-- Entries that a reader need not tell apart. -/
inductive FieldForm.Same (f : FieldForm) : Option Json → Option Json → Prop
  | refl (entry : Option Json) : Same f entry entry
  | rewritten {v w : Json} : f.Rewrites v w → Same f (some v) (some w)
  | default {d : Json} : f.default? = some d → Same f none (some d)

/-- Lists of entries, one for each field. -/
inductive Agree : List FieldForm → List (Option Json) → List (Option Json) → Prop
  | nil : Agree [] [] []
  | cons {f : FieldForm} {fields : List FieldForm} {e e' : Option Json}
      {es es' : List (Option Json)} :
      f.Same e e' → Agree fields es es' → Agree (f :: fields) (e :: es) (e' :: es')

inductive HoldsRepeat : List FieldForm → List (Option Json) → Prop
  | head {f : FieldForm} {fields : List FieldForm} {v : Json} {es : List (Option Json)} :
      f.Repeats v → HoldsRepeat (f :: fields) (some v :: es)
  | tail {f : FieldForm} {fields : List FieldForm} {e : Option Json} {es : List (Option Json)} :
      HoldsRepeat fields es → HoldsRepeat (f :: fields) (e :: es)

variable {α β : Type}

/-- A reader of a field does not look at how the field is written. -/
structure FieldForm.Respected (f : FieldForm) (read : Option Json → Option α) : Prop where
  rewrites : ∀ {v w}, f.Rewrites v w → read (some v) = read (some w)
  default : ∀ {d}, f.default? = some d → read none = read (some d)
  repeats : ∀ {v}, f.Repeats v → read (some v) = none

/-- A reader of all fields does not look at how they are written. -/
structure Follows (fields : List FieldForm) (read : List (Option Json) → Option α) : Prop where
  agree : ∀ {es es'}, Agree fields es es' → read es = read es'
  fails : ∀ {es}, HoldsRepeat fields es → read es = none

/-- Reads the first entry and then the others. -/
def readNext (read : Option Json → Option α) (rest : α → List (Option Json) → Option β) :
    List (Option Json) → Option β
  | [] => none
  | e :: es => (read e).bind fun x => rest x es

def readDone (x : β) : List (Option Json) → Option β
  | [] => some x
  | _ :: _ => none

variable {f : FieldForm} {fields : List FieldForm}

theorem FieldForm.Respected.same {read : Option Json → Option α} (h : f.Respected read)
    {e e' : Option Json} (hsame : f.Same e e') : read e = read e' := by
  cases hsame with
  | refl => rfl
  | rewritten hrewrites => exact h.rewrites hrewrites
  | default hdefault => exact h.default hdefault

theorem Follows.done (x : β) : Follows [] (readDone x) where
  agree h := by
    cases h
    rfl
  fails h := nomatch h

theorem Follows.next {read : Option Json → Option α} {rest : α → List (Option Json) → Option β}
    (hf : f.Respected read) (hrest : ∀ x, Follows fields (rest x)) :
    Follows (f :: fields) (readNext read rest) where
  agree h := by
    obtain _ | ⟨hsame, hothers⟩ := h
    rw [readNext, readNext, hf.same hsame]
    exact Option.bind_congr fun x _ => (hrest x).agree hothers
  fails h := by
    cases h with
    | head hrepeats => rw [readNext, hf.repeats hrepeats, Option.bind_none]
    | tail hothers =>
      rw [readNext]
      exact Option.bind_eq_none_iff.mpr fun x _ => (hrest x).fails hothers

theorem FieldForm.Respected.required {read : Json → Option α} (hdefault : f.default? = none)
    (hrewrites : ∀ {v w}, f.Rewrites v w → read v = read w)
    (hrepeats : ∀ {v}, f.Repeats v → read v = none) : f.Respected (requiredField read) where
  rewrites := hrewrites
  default h := by rw [hdefault] at h; cases h
  repeats := hrepeats

theorem FieldForm.Respected.defaulted {read : Json → Option α} {d : Json} {x : α}
    (hdefault : f.default? = some d) (hread : read d = some x)
    (hrewrites : ∀ {v w}, f.Rewrites v w → read v = read w)
    (hrepeats : ∀ {v}, f.Repeats v → read v = none) : f.Respected (defaultedField x read) where
  rewrites := hrewrites
  default h := by
    obtain rfl : d = _ := Option.some.inj (hdefault.symm.trans h)
    exact hread.symm
  repeats := hrepeats

/-! ## Members -/

section

variable {members others : List (JsonText × Json)} {name : String}

theorem member?_eq_head? (members : List (JsonText × Json)) (name : String) :
    member? members name = (valuesOf members name).head? := by
  rw [member?, valuesOf, List.head?_map, List.head?_filter]

theorem fitsRecord_ignored_iff {names : List String} :
    fitsRecord .ignored names members = true ↔
      (∀ m ∈ members, m.1.isSome) ∧ ∀ name ∈ names, (valuesOf members name).length ≤ 1 := by
  simp [fitsRecord, valuesOf]

theorem valuesOf_cons_self (name : String) (v : Json) (members : List (JsonText × Json)) :
    valuesOf ((some name, v) :: members) name = v :: valuesOf members name := by
  simp [valuesOf]

theorem valuesOf_cons_of_ne {key : String} (h : key ≠ name) (v : Json)
    (members : List (JsonText × Json)) :
    valuesOf ((some key, v) :: members) name = valuesOf members name := by
  simp [valuesOf, h]

theorem valuesOf_perm (h : members.Perm others) (name : String) :
    (valuesOf members name).Perm (valuesOf others name) := (h.filter _).map _

theorem head?_of_mem {values : List Json} {v : Json} (hone : values.length ≤ 1) (hv : v ∈ values) :
    values.head? = some v := by
  match values, hone with
  | [u], _ => rw [List.mem_singleton.mp hv, List.head?_cons]

/-- Of a name with at most one member, order does not change the value. -/
theorem member?_perm (h : members.Perm others) (hone : (valuesOf members name).length ≤ 1) :
    member? members name = member? others name := by
  have hperm := valuesOf_perm h name
  rw [member?_eq_head?, member?_eq_head?]
  match hvalues : valuesOf members name, hone with
  | [], _ =>
    rw [hvalues] at hperm
    rw [hperm.nil_eq]
  | [v], _ =>
    rw [hvalues] at hperm
    rw [hperm.singleton_eq]

end

/-! ## Records that agree -/

theorem Agree.refl : {fields : List FieldForm} → {es : List (Option Json)} →
    es.length = fields.length → Agree fields es es
  | [], [], _ => .nil
  | _ :: _, e :: _, h => .cons (.refl e) (Agree.refl (Nat.succ.inj h))

theorem agree_map {entry entry' : FieldForm → Option Json}
    (h : ∀ f ∈ fields, f.Same (entry f) (entry' f)) :
    Agree fields (fields.map entry) (fields.map entry') := by
  induction fields with
  | nil => exact .nil
  | cons f fields ih =>
    obtain ⟨hf, hfields⟩ := List.forall_mem_cons.mp h
    exact .cons hf (ih hfields)

theorem holdsRepeat_map {entry : FieldForm → Option Json} {v : Json} (hf : f ∈ fields)
    (hv : entry f = some v) (hrepeats : f.Repeats v) : HoldsRepeat fields (fields.map entry) := by
  induction fields with
  | nil => cases hf
  | cons g fields ih =>
    cases hf with
    | head =>
      rw [List.map_cons, hv]
      exact .head hrepeats
    | tail _ hf => exact .tail (ih hf)

/-- The entries of a record that is written as an array. -/
def placed (count : ℕ) (items : List Json) : List (Option Json) :=
  items.map some ++ List.replicate (count - items.length) none

theorem placed_cons (count : ℕ) (v : Json) (items : List Json) :
    placed (count + 1) (v :: items) = some v :: placed count items := by
  simp [placed]

theorem length_placed {count : ℕ} {items : List Json} (h : items.length ≤ count) :
    (placed count items).length = count := by
  simp [placed, h]

theorem agree_placed_trailing {items : List Json} {d : Json}
    (hf : fields[items.length]? = some f) (hd : f.default? = some d) :
    Agree fields (placed fields.length items) (placed fields.length (items ++ [d])) := by
  induction items generalizing fields with
  | nil =>
    cases fields with
    | nil => cases hf
    | cons g fields =>
      obtain rfl : g = f := Option.some.inj hf
      have hrest : Agree fields (placed fields.length []) (placed fields.length []) :=
        .refl (length_placed (Nat.zero_le _))
      rw [List.nil_append, List.length_cons, placed_cons]
      exact .cons (.default hd) hrest
  | cons v items ih =>
    cases fields with
    | nil => cases hf
    | cons g fields =>
      rw [List.cons_append, List.length_cons, placed_cons, placed_cons]
      exact .cons (.refl _) (ih hf)

theorem agree_placed_item {front back : List Json} {v w : Json}
    (hf : fields[front.length]? = some f) (h : f.Rewrites v w)
    (hlength : (front ++ v :: back).length ≤ fields.length) :
    Agree fields (placed fields.length (front ++ v :: back))
      (placed fields.length (front ++ w :: back)) := by
  induction front generalizing fields with
  | nil =>
    cases fields with
    | nil => cases hf
    | cons g fields =>
      obtain rfl : g = f := Option.some.inj hf
      rw [List.nil_append, List.nil_append, List.length_cons, placed_cons, placed_cons]
      exact .cons (.rewritten h) (.refl (length_placed (Nat.succ_le_succ_iff.mp hlength)))
  | cons u front ih =>
    cases fields with
    | nil => cases hf
    | cons g fields =>
      rw [List.cons_append, List.cons_append, List.length_cons, placed_cons, placed_cons]
      exact .cons (.refl _) (ih hf (Nat.succ_le_succ_iff.mp hlength))

theorem holdsRepeat_placed {items : List Json} {v : Json} {i : ℕ} (hf : fields[i]? = some f)
    (hv : items[i]? = some v) (hrepeats : f.Repeats v) :
    HoldsRepeat fields (placed fields.length items) := by
  induction i generalizing fields items with
  | zero =>
    cases fields with
    | nil => cases hf
    | cons g fields =>
      cases items with
      | nil => cases hv
      | cons u items =>
        obtain rfl : g = f := Option.some.inj hf
        obtain rfl : u = v := Option.some.inj hv
        rw [List.length_cons, placed_cons]
        exact .head hrepeats
  | succ i ih =>
    cases fields with
    | nil => cases hf
    | cons g fields =>
      cases items with
      | nil => cases hv
      | cons u items =>
        rw [List.length_cons, placed_cons]
        exact .tail (ih hf hv)

theorem length_valuesOf_le_one {members : List (JsonText × Json)} {values : List Json}
    (h : List.Forall₂ (fun f v => f.Holds members v) fields values) :
    ∀ f ∈ fields, (valuesOf members f.name).length ≤ 1 := by
  induction h with
  | nil => exact List.forall_mem_nil _
  | cons hholds _ ih =>
    refine List.forall_mem_cons.mpr ⟨?_, ih⟩
    rcases hholds with hone | ⟨hnone, -⟩
    · rw [hone]
      exact Nat.le_refl 1
    · rw [hnone]
      exact Nat.zero_le 1

/-- The entries of an object agree with those of the array of its values. -/
theorem agree_positional {members : List (JsonText × Json)} {values : List Json}
    (h : List.Forall₂ (fun f v => f.Holds members v) fields values) :
    Agree fields (fields.map fun f => member? members f.name) (placed fields.length values) := by
  induction h with
  | nil => exact .nil
  | cons hholds _ ih =>
    rw [List.map_cons, List.length_cons, placed_cons, member?_eq_head?]
    rcases hholds with hone | ⟨hnone, hdefault⟩
    · rw [hone]
      exact .cons (.refl _) ih
    · rw [hnone]
      exact .cons (.default hdefault) ih

/-! ## Reading records -/

/-- Reads a record among whose members strays are ignored. -/
def readFields (fields : List FieldForm) (read : List (Option Json) → Option α) (j : Json) :
    Option α :=
  (j.fields? .ignored (fields.map FieldForm.name)).bind read

theorem readFields_object (read : List (Option Json) → Option α)
    (members : List (JsonText × Json)) :
    readFields fields read (object members) =
      if fitsRecord .ignored (fields.map FieldForm.name) members then
        read (fields.map fun f => member? members f.name)
      else none := by
  simp only [readFields, fields?]
  split_ifs
  · rw [Option.bind_some, List.map_map]
    rfl
  · rfl

theorem readFields_array (read : List (Option Json) → Option α) (items : List Json) :
    readFields fields read (array items) =
      if items.length ≤ fields.length then read (placed fields.length items) else none := by
  simp only [readFields, fields?, List.length_map]
  split_ifs
  · rfl
  · rfl

namespace Follows

variable {read : List (Option Json) → Option α}

theorem readFields_object_eq (h : Follows fields read) {members others : List (JsonText × Json)}
    (hfits : fitsRecord .ignored (fields.map FieldForm.name) members =
      fitsRecord .ignored (fields.map FieldForm.name) others)
    (hsame : fitsRecord .ignored (fields.map FieldForm.name) members = true →
      ∀ f ∈ fields, f.Same (member? members f.name) (member? others f.name)) :
    readFields fields read (object members) = readFields fields read (object others) := by
  rw [readFields_object, readFields_object, ← hfits]
  split_ifs with hmembers
  · exact h.agree (agree_map (hsame hmembers))
  · rfl

theorem readFields_array_eq (h : Follows fields read) {items others : List Json}
    (hitems : items.length ≤ fields.length) (hothers : others.length ≤ fields.length)
    (hagree : Agree fields (placed fields.length items) (placed fields.length others)) :
    readFields fields read (array items) = readFields fields read (array others) := by
  rw [readFields_array, readFields_array, if_pos hitems, if_pos hothers, h.agree hagree]

theorem readFields_item (h : Follows fields read) {front back : List Json} {v w : Json}
    (hf : fields[front.length]? = some f) (hrewrites : f.Rewrites v w) :
    readFields fields read (array (front ++ v :: back)) =
      readFields fields read (array (front ++ w :: back)) := by
  have hlengths : (front ++ w :: back).length = (front ++ v :: back).length := by simp
  by_cases hlength : (front ++ v :: back).length ≤ fields.length
  · exact h.readFields_array_eq hlength (hlengths ▸ hlength)
      (agree_placed_item hf hrewrites hlength)
  · rw [readFields_array, readFields_array, hlengths, if_neg hlength, if_neg hlength]

theorem readFields_positional (h : Follows fields read) {members : List (JsonText × Json)}
    {values : List Json} (hkeys : ∀ m ∈ members, m.1.isSome)
    (hvalues : List.Forall₂ (fun f v => f.Holds members v) fields values) :
    readFields fields read (object members) = readFields fields read (array values) := by
  have hfits := fitsRecord_ignored_iff.mpr ⟨hkeys, List.forall_mem_map.mpr fun f hf =>
    (length_valuesOf_le_one hvalues f hf)⟩
  rw [readFields_object, if_pos hfits, readFields_array,
    if_pos (Nat.le_of_eq hvalues.length_eq.symm)]
  exact h.agree (agree_positional hvalues)

theorem readFields_reorder (h : Follows fields read) {members others : List (JsonText × Json)}
    (hperm : members.Perm others) :
    readFields fields read (object members) = readFields fields read (object others) := by
  apply h.readFields_object_eq
  · rw [Bool.eq_iff_iff, fitsRecord_ignored_iff, fitsRecord_ignored_iff]
    simp only [hperm.mem_iff, (valuesOf_perm hperm _).length_eq]
  · intro hfits f hf
    have hone := (fitsRecord_ignored_iff.mp hfits).2 f.name (List.mem_map_of_mem hf)
    rw [member?_perm hperm hone]
    exact .refl _

theorem readFields_stray (h : Follows fields read) (members : List (JsonText × Json))
    {name : String} (v : Json) (hname : name ∉ fields.map FieldForm.name) :
    readFields fields read (object members) =
      readFields fields read (object ((some name, v) :: members)) := by
  have hvalues : ∀ key ∈ fields.map FieldForm.name,
      valuesOf ((some name, v) :: members) key = valuesOf members key :=
    fun key hkey => valuesOf_cons_of_ne (fun (heq : name = key) => hname (heq ▸ hkey)) v members
  apply h.readFields_object_eq
  · rw [Bool.eq_iff_iff, fitsRecord_ignored_iff, fitsRecord_ignored_iff, List.forall_mem_cons]
    refine and_congr (iff_and_self.mpr fun _ => rfl) (forall₂_congr fun key hkey => ?_)
    rw [hvalues key hkey]
  · intro _ f hf
    rw [member?_eq_head?, member?_eq_head?, hvalues f.name (List.mem_map_of_mem hf)]
    exact .refl _

/-- A member in front that is changed or added changes no more than the entry of its field. -/
theorem readFields_front (h : Follows fields read) (hnodup : (fields.map FieldForm.name).Nodup)
    (hf : f ∈ fields) {members others : List (JsonText × Json)}
    (hkeys : (∀ m ∈ members, m.1.isSome) ↔ ∀ m ∈ others, m.1.isSome)
    (hone : (valuesOf members f.name).length ≤ 1 ↔ (valuesOf others f.name).length ≤ 1)
    (hothers : ∀ key, f.name ≠ key → valuesOf members key = valuesOf others key)
    (hsame : f.Same (member? members f.name) (member? others f.name)) :
    readFields fields read (object members) = readFields fields read (object others) := by
  apply h.readFields_object_eq
  · rw [Bool.eq_iff_iff, fitsRecord_ignored_iff, fitsRecord_ignored_iff]
    refine and_congr hkeys (forall₂_congr fun key hkey => ?_)
    by_cases heq : f.name = key
    · rw [← heq, hone]
    · rw [hothers key heq]
  · intro _ g hg
    by_cases heq : f.name = g.name
    · rwa [← List.inj_on_of_nodup_map hnodup hf hg heq]
    · rw [member?_eq_head?, member?_eq_head?, hothers g.name heq]
      exact .refl _

/-- Whichever way a record is written, the same is read. -/
theorem readFields_eq (h : Follows fields read) (hnodup : (fields.map FieldForm.name).Nodup)
    {j k : Json} (hjk : Rewrites fields j k) :
    readFields fields read j = readFields fields read k := by
  induction hjk with
  | refl _ => rfl
  | symm _ ih => exact ih.symm
  | trans _ _ ih₁ ih₂ => exact ih₁.trans ih₂
  | reorder hperm => exact h.readFields_reorder hperm
  | stray members v hname => exact h.readFields_stray members v hname
  | default members hf hd habsent =>
    apply h.readFields_front hnodup hf
    · rw [List.forall_mem_cons]
      exact iff_and_self.mpr fun _ => rfl
    · simp [valuesOf_cons_self, habsent]
    · exact fun key hkey => (valuesOf_cons_of_ne hkey _ _).symm
    · rw [member?_cons_self, member?_eq_head?, habsent]
      exact .default hd
  | member members hf hrewrites =>
    apply h.readFields_front hnodup hf
    · simp only [List.forall_mem_cons]
    · rw [valuesOf_cons_self, valuesOf_cons_self, List.length_cons, List.length_cons]
    · intro key hkey
      rw [valuesOf_cons_of_ne hkey, valuesOf_cons_of_ne hkey]
    · rw [member?_cons_self, member?_cons_self]
      exact .rewritten hrewrites
  | positional hkeys hvalues => exact h.readFields_positional hkeys hvalues
  | trailing items hf hd =>
    have hlength : items.length < fields.length := (List.getElem?_eq_some_iff.mp hf).1
    apply h.readFields_array_eq (Nat.le_of_lt hlength)
    · rwa [List.length_append, List.length_singleton]
    · exact agree_placed_trailing hf hd
  | item front back hf hrewrites => exact h.readFields_item hf hrewrites

theorem readFields_eq_none (h : Follows fields read) {j : Json} (hj : Repeats fields j) :
    readFields fields read j = none := by
  cases hj with
  | here hf htwice =>
    rw [readFields_object]
    split_ifs with hfits
    · have hone := (fitsRecord_ignored_iff.mp hfits).2 _ (List.mem_map_of_mem hf)
      omega
    · rfl
  | member hf hv hrepeats =>
    rw [readFields_object]
    split_ifs with hfits
    · have hone := (fitsRecord_ignored_iff.mp hfits).2 _ (List.mem_map_of_mem hf)
      refine h.fails (holdsRepeat_map hf ?_ hrepeats)
      rw [member?_eq_head?]
      exact head?_of_mem hone hv
    · rfl
  | item i hf hv hrepeats =>
    rw [readFields_array]
    split_ifs
    · exact h.fails (holdsRepeat_placed hf hv hrepeats)
    · rfl

end Follows

/-! ## Records in records -/

/-- A reader of a record reads the same from all ways to write it, and nothing from one that gives
a field twice. -/
structure ReadsRecord (fields : List FieldForm) (read : Json → Option α) : Prop where
  rewrites : ∀ {j k}, Rewrites fields j k → read j = read k
  repeats : ∀ {j}, Repeats fields j → read j = none

theorem Follows.readsRecord {read : Json → Option α} {entries : List (Option Json) → Option α}
    (h : Follows fields entries) (hnodup : (fields.map FieldForm.name).Nodup)
    (hread : ∀ j, read j = readFields fields entries j) : ReadsRecord fields read where
  rewrites hjk := by rw [hread, hread, h.readFields_eq hnodup hjk]
  repeats hj := by rw [hread, h.readFields_eq_none hj]

namespace ReadsRecord

variable {read : Json → Option α}

theorem list?_eq (h : ReadsRecord fields read) {j k : Json} (hjk : RewritesItems fields j k) :
    list? read j = list? read k := by
  obtain ⟨hitems⟩ := hjk
  show List.mapM read _ = List.mapM read _
  induction hitems with
  | nil => rfl
  | cons hv _ ih => rw [List.mapM_cons, List.mapM_cons, h.rewrites hv, ih]

theorem list?_eq_none (h : ReadsRecord fields read) {j : Json} (hj : RepeatsInItem fields j) :
    list? read j = none := by
  obtain ⟨hv, hrepeats⟩ := hj
  rw [← Option.not_isSome_iff_eq_none]
  intro hsome
  have hread := isSome_of_list? hsome _ hv
  rw [h.repeats hrepeats] at hread
  cases hread

end ReadsRecord

namespace FieldForm

variable {read : Json → Option α} {name : String}

theorem respected_plain (name : String) (read : Json → Option α) :
    (plain name).Respected (requiredField read) :=
  .required rfl (fun heq => congrArg read heq) False.elim

theorem respected_plain_withDefault (name : String) {d : Json} {x : α} (hread : read d = some x) :
    ((plain name).withDefault d).Respected (defaultedField x read) :=
  .defaulted rfl hread (fun heq => congrArg read heq) False.elim

theorem respected_nested (name : String) (h : ReadsRecord fields read) :
    (nested name fields).Respected (requiredField read) :=
  .required rfl h.rewrites h.repeats

theorem respected_nested_withDefault (name : String) (h : ReadsRecord fields read) {d : Json}
    {x : α} (hread : read d = some x) :
    ((nested name fields).withDefault d).Respected (defaultedField x read) :=
  .defaulted rfl hread h.rewrites h.repeats

theorem respected_listed (name : String) (h : ReadsRecord fields read) :
    (listed name fields).Respected (requiredField (list? read)) :=
  .required rfl h.list?_eq h.list?_eq_none

theorem respected_listed_withDefault (name : String) (h : ReadsRecord fields read) {d : Json}
    {xs : List α} (hread : list? read d = some xs) :
    ((listed name fields).withDefault d).Respected (defaultedField xs (list? read)) :=
  .defaulted rfl hread h.list?_eq h.list?_eq_none

end FieldForm

/-! ## Records that are refused -/

theorem fields?_eq_none_of_repeats (strays : Strays) {names : List String} {name : String}
    {members : List (JsonText × Json)} (hname : name ∈ names)
    (htwice : 2 ≤ (valuesOf members name).length) :
    fields? strays names (object members) = none := by
  have hfits : ¬ fitsRecord strays names members = true := by
    intro hfits
    have hcounts := (Bool.and_eq_true_iff.mp (Bool.and_eq_true_iff.mp hfits).1).2
    have hone := of_decide_eq_true (List.all_eq_true.mp hcounts name hname)
    rw [valuesOf, List.length_map] at htwice
    omega
  exact if_neg hfits

/-- Where no value is a record, only the members of the record itself can repeat a field. -/
theorem fields?_eq_none_of_repeats_plain (strays : Strays) {names : List String} {j : Json}
    (h : Repeats (names.map .plain) j) :
    fields? strays ((names.map .plain).map FieldForm.name) j = none := by
  have hplain : ∀ f ∈ names.map FieldForm.plain, ∀ v, ¬ f.Repeats v := by
    intro f hf v hv
    obtain ⟨name, -, rfl⟩ := List.mem_map.mp hf
    exact hv
  cases h with
  | here hf htwice => exact fields?_eq_none_of_repeats strays (List.mem_map_of_mem hf) htwice
  | member hf _ hrepeats => exact absurd hrepeats (hplain _ hf _)
  | item i hf _ hrepeats => exact absurd hrepeats (hplain _ (List.mem_of_getElem? hf) _)

theorem fields?_refused_eq_none {names : List String} {members : List (JsonText × Json)}
    {m : JsonText × Json} (hm : m ∈ members) (hstray : m.1 ∉ names.map some) :
    fields? .refused names (object members) = none := by
  have hfits : ¬ fitsRecord .refused names members = true := by
    intro hfits
    simp only [fitsRecord, Bool.and_eq_true, Bool.or_eq_true, List.all_eq_true] at hfits
    have hknown := hfits.2.resolve_left (by decide) m hm
    obtain ⟨key, v⟩ := m
    cases key with
    | none => cases hknown
    | some key => exact hstray (List.mem_map_of_mem (List.contains_iff_mem.mp hknown))
  exact if_neg hfits

end CodeQuality.Json
