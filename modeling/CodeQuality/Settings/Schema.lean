import CodeQuality.Fields
import CodeQuality.Settings.Basic
import CodeQuality.Toml.Basic

/-!
The schema of settings files.

A section is written as a table, or as an array of its fields in their order. A table has no keys
but the fields of its section. An array may have more items than its section has fields; they
have no meaning in a file, but settings that are merged are refused because of them.
-/

namespace CodeQuality

/-- Which fields may be left out of an array. -/
inductive ArrayForm where
  /-- None, since all of them are open when they are not set. -/
  | whole
  /-- Those at the end, since they have a value of their own. -/
  | shortened
  deriving DecidableEq

namespace Toml

def fields? (form : ArrayForm) (names : List String) : Toml → Option (List (Option Toml))
  | table entries =>
    if entries.all fun entry => names.contains entry.1 then
      some (names.map fun name => entries.lookup name)
    else none
  | array items =>
    if form = .whole ∧ items.length < names.length then none
    else
      some ((items.take names.length).map some
        ++ List.replicate (names.length - items.length) none)
  | _ => none

def openFields? (names : List String) : Option Toml → Option (List (Option Toml))
  | none => some (names.map fun _ => none)
  | some v => v.fields? .whole names

def openField? {α : Type} (read : Toml → Option α) : Option Toml → Option (Option α)
  | none => some none
  | some v => (read v).map some

-- A number. A whole number will do for a double.
def number? : Toml → Option Float
  | float x => some x
  | integer i => some (Decimal.toFloat ⟨decide (i < 0), i.natAbs, 0⟩)
  | _ => none

def word? : Toml → Option UInt32
  | integer i => if 0 ≤ i ∧ i < (twoPow 32 : Int) then some i.toNat.toUInt32 else none
  | _ => none

def string? : Toml → Option String
  | string s => some s
  | _ => none

instance : NumberSource Toml := ⟨number?, word?⟩

def numberTable? : Toml → Option (List (String × Float))
  | table entries => entries.mapM fun (key, v) => do return (key, ← v.number?)
  | _ => none

end Toml

def Curve.ofToml? (v : Toml) : Option Curve := (v.fields? .shortened fieldNames).bind ofFields?

def Escalation.ofToml? (v : Toml) : Option Escalation :=
  (v.fields? .shortened fieldNames).bind ofFields?

def Severity.Weights.ofToml? (v : Toml) : Option Severity.Weights :=
  (v.fields? .shortened fieldNames).bind ofFields?

def Criticism.Weights.ofToml? (v : Toml) : Option Criticism.Weights :=
  (v.fields? .shortened fieldNames).bind ofFields?

namespace Settings

def ofEntries? (root : Toml.Entries) : Option Settings := do
  let [scoring, issues, aggregation, criticism, curves] ← (Toml.table root).fields? .whole
    ["scoring", "issues", "aggregation", "criticism", "curves"] | none
  let [mode] ← Toml.openFields? ["duplication_mode"] scoring | none
  let [severities] ← Toml.openFields? ["weights"] issues | none
  let [scheme, shares] ← Toml.openFields? ["scheme", "weights"] aggregation | none
  let [complexity, size, legacy, strict, escalation] ← Toml.openFields?
    ["complexity", "size", "duplication_legacy", "duplication_strict", "extreme_complexity"]
    curves | none
  return {
    mode := ← Toml.openField? Toml.string? mode
    severities := ← Toml.openField? Severity.Weights.ofToml? severities
    scheme := ← Toml.openField? Toml.string? scheme
    shares := ← Toml.openField? Toml.numberTable? shares
    criticism := ← Toml.openField? Criticism.Weights.ofToml? criticism
    complexity := ← Toml.openField? Curve.ofToml? complexity
    size := ← Toml.openField? Curve.ofToml? size
    duplicationLegacy := ← Toml.openField? Curve.ofToml? legacy
    duplicationStrict := ← Toml.openField? Curve.ofToml? strict
    escalation := ← Toml.openField? Escalation.ofToml? escalation }

end Settings

/-! ## Arrays with too many items -/

inductive SectionShape where
  /-- Anything but a section. -/
  | plain
  | fields (shapes : List (String × SectionShape))

namespace SectionShape

def flat (names : List String) : SectionShape := fields (names.map fun name => (name, plain))

def settings : SectionShape :=
  fields
    [("scoring", flat ["duplication_mode"]),
     ("issues", fields [("weights", flat Severity.Weights.fieldNames)]),
     ("aggregation", flat ["scheme", "weights"]),
     ("criticism", flat Criticism.Weights.fieldNames),
     ("curves", fields
       [("complexity", flat Curve.fieldNames), ("size", flat Curve.fieldNames),
        ("duplication_legacy", flat Curve.fieldNames),
        ("duplication_strict", flat Curve.fieldNames),
        ("extreme_complexity", flat Escalation.fieldNames)])]

mutual

/-- The length of an array that has more items than its section has fields, with the keys that
lead to it. What is inside an array is looked at before its length. -/
def surplus? : SectionShape → Toml → Option (Nat × List String)
  | fields shapes, .table entries => surplusInTable? shapes entries
  | fields shapes, .array items => surplusInArray? items.length shapes items
  | _, _ => none

-- Of several such arrays in a table, the one whose keys come first in order.
def surplusInTable? : List (String × SectionShape) → Toml.Entries → Option (Nat × List String)
  | [], _ => none
  | (name, shape) :: rest, entries =>
    let here := match entries.lookup name with
      | none => none
      | some v => (surplus? shape v).map fun (length, keys) => (length, name :: keys)
    Option.merge (fun a b => if b.2 < a.2 then b else a) here (surplusInTable? rest entries)

def surplusInArray? (length : Nat) :
    List (String × SectionShape) → List Toml → Option (Nat × List String)
  | [], [] => none
  | [], _ :: _ => some (length, [])
  | _ :: _, [] => none
  | (_, shape) :: shapes, v :: rest =>
    (surplus? shape v).or (surplusInArray? length shapes rest)

end

end SectionShape

end CodeQuality
