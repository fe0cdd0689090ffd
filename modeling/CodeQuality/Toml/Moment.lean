import CodeQuality.Number.Decimal
import CodeQuality.Toml.Basic

/-!
Dates and times in TOML.

Apart from the words of the language, a table can stand for a date or time: one whose first key is
a reserved name, with the date or time as a text. Such a text may name midnight as the hour 24,
and its offset is limited as a whole and not part by part.
-/

namespace CodeQuality.Toml

namespace Grammar

def twoDigitNumber? (a b : Char) : Option Nat :=
  if a.isDigit && b.isDigit then some (Decimal.ofDigitChars [a, b]) else none

def twoDigits? (least greatest : Nat) (a b : Char) : Option Nat :=
  (twoDigitNumber? a b).filter fun n => least ≤ n && n ≤ greatest

def daysOfMonth (year month : Nat) : Nat :=
  if month = 2 then
    if year % 4 = 0 && (year % 100 ≠ 0 || year % 400 = 0) then 29 else 28
  else if month = 4 || month = 6 || month = 9 || month = 11 then 30
  else 31

def date? : List Char → Option (List Char)
  | y₁ :: y₂ :: y₃ :: y₄ :: '-' :: m₁ :: m₂ :: '-' :: d₁ :: d₂ :: rest => do
    if [y₁, y₂, y₃, y₄].all Char.isDigit then
      let month ← twoDigits? 1 12 m₁ m₂
      let _ ← twoDigits? 1 (daysOfMonth (Decimal.ofDigitChars [y₁, y₂, y₃, y₄]) month) d₁ d₂
      return rest
    else none
  | _ => none

-- What follows a time of day, which may have a leap second and a fraction of a second.
def time? (lastHour : Nat) : List Char → Option (List Char)
  | h₁ :: h₂ :: ':' :: m₁ :: m₂ :: ':' :: s₁ :: s₂ :: rest => do
    let _ ← twoDigits? 0 lastHour h₁ h₂
    let _ ← twoDigits? 0 59 m₁ m₂
    let _ ← twoDigits? 0 60 s₁ s₂
    match rest with
    | '.' :: fraction =>
      if (fraction.takeWhile Char.isDigit).isEmpty then none
      else return fraction.dropWhile Char.isDigit
    | rest => return rest
  | _ => none

-- Whether the whole of a word is an offset from universal time, or nothing; `fits` limits its hours
-- and minutes.
def isOffset (fits : Nat → Nat → Bool) : List Char → Bool
  | [] => true
  | ['Z'] | ['z'] => true
  | [sign, h₁, h₂, ':', m₁, m₂] =>
    (sign = '+' || sign = '-') &&
      match twoDigitNumber? h₁ h₂, twoDigitNumber? m₁ m₂ with
      | some hours, some minutes => fits hours minutes
      | _, _ => false
  | _ => false

def isTimeWord (cs : List Char) : Bool :=
  (time? 23 cs).any (isOffset fun hours minutes => hours ≤ 23 && minutes ≤ 59)

/-- A date, a date and a time with or without an offset, or a time. A blank may stand for the
letter between date and time, in which case the time is a word of its own, `next`. -/
def isMoment (word : List Char) (next : Option (List Char)) : Bool :=
  match date? word with
  | some [] => match next with
    | none => true
    | some timeWord => isTimeWord timeWord
  | some (mark :: rest) => next.isNone && (mark = 'T' || mark = 't') && isTimeWord rest
  | none => next.isNone && (time? 23 word).any List.isEmpty

def isMomentText (cs : List Char) : Bool :=
  match date? cs with
  | some [] => true
  | some (mark :: rest) =>
    (mark = 'T' || mark = 't' || mark = ' ') &&
      (time? 24 rest).any (isOffset fun hours minutes => 60 * hours + minutes ≤ 24 * 60)
  | none => (time? 24 cs).any List.isEmpty

end Grammar

/-! ## Tables for dates and times -/

-- The reserved key of a table that stands for a date or time.
def momentKey : String := "$__toml_private_datetime"

def isMomentString : Toml → Bool
  | string s => Grammar.isMomentText s.toList
  | _ => false

mutual

/-- Whether each table that is to stand for a date or time has one. What such a table has besides
is not looked at. -/
def momentsFit : Toml → Bool
  | array items => itemMomentsFit items
  | table ((key, v) :: rest) =>
    if key = momentKey then v.isMomentString else v.momentsFit && entryMomentsFit rest
  | _ => true

def itemMomentsFit : List Toml → Bool
  | [] => true
  | v :: rest => v.momentsFit && itemMomentsFit rest

def entryMomentsFit : Entries → Bool
  | [] => true
  | (_, v) :: rest => v.momentsFit && entryMomentsFit rest

end

end CodeQuality.Toml
