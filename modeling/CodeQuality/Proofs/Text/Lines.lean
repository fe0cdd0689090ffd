import Mathlib.Data.List.Basic
import Mathlib.Data.String.Basic

/-!
Lines of a text and cells of a table.

A text put together line by line has these lines again exactly if none of them holds the end of a
line: each end that one of them holds makes one line more. A row put together cell by cell has a
cell for each of them that holds no bar.
-/

namespace CodeQuality

/-! ## Lines -/

/-- The characters that end a line. The line feed is one of them, a printable character is not. -/
structure LineEnds where
  ends : Char → Bool
  ends_feed : ends '\n' = true
  not_ends_printable : ∀ c, ' ' ≤ c → c ≤ '~' → ends c = false

namespace LineEnds

/-- Lines end in line feeds. -/
def feed : LineEnds where
  ends c := c = '\n'
  ends_feed := rfl
  not_ends_printable := by
    intro c hlow _
    simp only [decide_eq_false_iff_not]
    rintro rfl
    exact absurd hlow (by decide)

/-- Lines end in line feeds or carriage returns, as in Markdown. -/
def feedOrReturn : LineEnds where
  ends c := c = '\n' || c = '\r'
  ends_feed := rfl
  not_ends_printable := by
    intro c hlow _
    simp only [Bool.or_eq_false_iff, decide_eq_false_iff_not]
    constructor <;> rintro rfl <;> exact absurd hlow (by decide)

variable (e : LineEnds)

def split : List Char → List (List Char)
  | [] => []
  | c :: rest =>
    if e.ends c then [] :: split rest
    else
      match split rest with
      | [] => [[c]]
      | line :: lines => (c :: line) :: lines

def lines (s : String) : List String := (e.split s.toList).map String.ofList

/-- A text that stays within one line. -/
def Within (s : String) : Prop := ∀ c ∈ s.toList, e.ends c = false

variable {e}

theorem split_cons_of_ends {c : Char} (h : e.ends c = true) (rest : List Char) :
    e.split (c :: rest) = [] :: e.split rest := by
  rw [split, if_pos h]

theorem split_cons {c : Char} {rest line : List Char} {lines : List (List Char)}
    (h : e.ends c = false) (hrest : e.split rest = line :: lines) :
    e.split (c :: rest) = (c :: line) :: lines := by
  rw [split, if_neg (by rw [h]; decide), hrest]

theorem split_append {line : List Char} (hline : ∀ c ∈ line, e.ends c = false) {d : Char}
    (hd : e.ends d = true) (rest : List Char) :
    e.split (line ++ d :: rest) = line :: e.split rest := by
  induction line with
  | nil => exact split_cons_of_ends hd rest
  | cons c line ih =>
    obtain ⟨hc, hline⟩ := List.forall_mem_cons.mp hline
    exact split_cons hc (ih hline)

/-- Every end of a line makes a line, wherever it stands. -/
theorem length_split_append (cs : List Char) {d : Char} (hd : e.ends d = true)
    (rest : List Char) :
    (e.split (cs ++ d :: rest)).length = cs.countP e.ends + 1 + (e.split rest).length := by
  induction cs with
  | nil =>
    rw [List.nil_append, split_cons_of_ends hd, List.length_cons, List.countP_nil]
    omega
  | cons c cs ih =>
    rw [List.cons_append]
    by_cases hc : e.ends c = true
    · rw [split_cons_of_ends hc, List.length_cons, ih, List.countP_cons_of_pos hc]
      omega
    · -- The character belongs to the line that follows, which there is.
      have hne : e.split (cs ++ d :: rest) ≠ [] := List.ne_nil_of_length_pos (by omega)
      obtain ⟨line, lines, hsplit⟩ := List.exists_cons_of_ne_nil hne
      rw [List.countP_cons_of_neg hc, ← ih, split_cons (by simpa using hc) hsplit, hsplit,
        List.length_cons, List.length_cons]

/-- A text of lines that each end in a line feed. -/
def joined (ls : List String) : String := String.join (ls.map (· ++ "\n"))

theorem toList_joined_cons (l : String) (ls : List String) :
    (joined (l :: ls)).toList = l.toList ++ '\n' :: (joined ls).toList := by
  simp [joined]

theorem lines_joined_cons {l : String} (h : e.Within l) (ls : List String) :
    e.lines (joined (l :: ls)) = l :: e.lines (joined ls) := by
  rw [lines, toList_joined_cons, split_append h e.ends_feed, List.map_cons, String.ofList_toList]
  rfl

theorem lines_joined_append {front : List String} (h : ∀ l ∈ front, e.Within l)
    (ls : List String) : e.lines (joined (front ++ ls)) = front ++ e.lines (joined ls) := by
  induction front with
  | nil => rfl
  | cons l front ih =>
    obtain ⟨hl, hfront⟩ := List.forall_mem_cons.mp h
    rw [List.cons_append, lines_joined_cons hl, ih hfront, List.cons_append]

theorem lines_joined {ls : List String} (h : ∀ l ∈ ls, e.Within l) : e.lines (joined ls) = ls := by
  have hlines := lines_joined_append h []
  rwa [List.append_nil, show e.lines (joined []) = [] from rfl, List.append_nil] at hlines

theorem length_le_length_lines_joined (ls : List String) :
    ls.length ≤ (e.lines (joined ls)).length := by
  induction ls with
  | nil => exact Nat.zero_le _
  | cons l ls ih =>
    rw [lines, List.length_map] at ih ⊢
    rw [toList_joined_cons, length_split_append _ e.ends_feed, List.length_cons]
    omega

/-- A text of so many lines was put together from lines without an end in them. -/
theorem within_of_length_lines_joined {ls : List String}
    (h : (e.lines (joined ls)).length = ls.length) : ∀ l ∈ ls, e.Within l := by
  induction ls with
  | nil => exact List.forall_mem_nil _
  | cons l ls ih =>
    have hrest := length_le_length_lines_joined (e := e) ls
    rw [lines, List.length_map] at h ih hrest
    rw [toList_joined_cons, length_split_append _ e.ends_feed, List.length_cons] at h
    have hnone : l.toList.countP e.ends = 0 := by omega
    refine List.forall_mem_cons.mpr ⟨?_, ih (by omega)⟩
    intro c hc
    simpa using List.countP_eq_zero.mp hnone c hc

end LineEnds

theorem within_of_printable (e : LineEnds) {s : String}
    (h : s.toList.all (fun c => ' ' ≤ c && c ≤ '~') = true) : e.Within s := by
  intro c hc
  have hprintable := List.all_eq_true.mp h c hc
  simp only [Bool.and_eq_true, decide_eq_true_eq] at hprintable
  exact e.not_ends_printable c hprintable.1 hprintable.2

theorem within_append_iff {e : LineEnds} {s t : String} :
    e.Within (s ++ t) ↔ e.Within s ∧ e.Within t := by
  simp only [LineEnds.Within, String.toList_append, List.forall_mem_append]

/-! ## Cells -/

/-- What stands between the bars of a row. A bar after a backslash is part of a text. -/
def betweenBars : List Char → List (List Char)
  | [] => [[]]
  | '\\' :: '|' :: rest => (betweenBars rest).modifyHead ('|' :: ·)
  | '|' :: rest => [] :: betweenBars rest
  | c :: rest => (betweenBars rest).modifyHead (c :: ·)

/-- The cells of a row that starts and ends with a bar. -/
def tableCells (row : String) : List String :=
  (betweenBars row.toList).tail.dropLast.map String.ofList

/-- A text as a cell, with a blank on each side. -/
def asCell (s : String) : String := " " ++ s ++ " "

/-- A row of cells. -/
def tableRow (cells : List String) : String := "|" ++ String.join (cells.map (asCell · ++ "|"))

theorem within_tableRow_iff {e : LineEnds} {cells : List String} :
    e.Within (tableRow cells) ↔ ∀ s ∈ cells, e.Within s := by
  have hblank : e.Within " " := within_of_printable e (by simp)
  have hbar : e.Within "|" := within_of_printable e (by simp)
  have hcells : e.Within (String.join (cells.map (asCell · ++ "|"))) ↔ ∀ s ∈ cells, e.Within s := by
    induction cells with
    | nil => simp [LineEnds.Within]
    | cons s cells ih =>
      simp only [List.map_cons, String.join_cons, asCell, within_append_iff, hblank, hbar,
        true_and, and_true, List.forall_mem_cons]
      rw [← ih]
      rfl
  rw [tableRow, within_append_iff, hcells]
  exact and_iff_right hbar

theorem betweenBars_cons {c : Char} {rest : List Char} (hbar : c ≠ '|')
    (hescape : c = '\\' → rest.head? ≠ some '|') :
    betweenBars (c :: rest) = (betweenBars rest).modifyHead (c :: ·) := by
  rw [betweenBars.eq_def]
  split
  · contradiction
  next heq =>
    obtain ⟨rfl, rfl⟩ := List.cons.inj heq
    exact absurd rfl (hescape rfl)
  next heq => exact absurd (List.cons.inj heq).1 hbar
  next heq =>
    obtain ⟨rfl, rfl⟩ := List.cons.inj heq
    rfl

theorem betweenBars_ne_nil (cs : List Char) : betweenBars cs ≠ [] := by
  induction cs using betweenBars.induct with
  | case1 => exact List.cons_ne_nil _ _
  | case2 rest ih => simpa [betweenBars] using ih
  | case3 rest _ => exact List.cons_ne_nil _ _
  | case4 c rest _ _ ih => simpa [betweenBars] using ih

/-- A bar after a blank ends a cell, whatever the cell holds. -/
theorem betweenBars_append (cs rest : List Char) :
    betweenBars (cs ++ ' ' :: '|' :: rest) = betweenBars (cs ++ [' ']) ++ betweenBars rest := by
  induction cs using betweenBars.induct with
  | case1 => rfl
  | case2 cs ih =>
    obtain ⟨piece, pieces, hpieces⟩ := List.exists_cons_of_ne_nil (betweenBars_ne_nil (cs ++ [' ']))
    simp [betweenBars, ih, hpieces]
  | case3 cs ih => simp [betweenBars, ih]
  | case4 c cs hescape hbar ih =>
    obtain ⟨piece, pieces, hpieces⟩ := List.exists_cons_of_ne_nil (betweenBars_ne_nil (cs ++ [' ']))
    have hnext (tail : List Char) : c = '\\' → (cs ++ ' ' :: tail).head? ≠ some '|' := by
      intro hc hhead
      cases cs with
      | nil => exact absurd (Option.some.inj hhead) (by decide)
      | cons d cs => exact hescape cs hc (by rw [Option.some.inj hhead])
    rw [List.cons_append, List.cons_append, betweenBars_cons hbar (hnext _),
      betweenBars_cons hbar (hnext _), ih, hpieces]
    rfl

theorem betweenBars_of_not_mem {cs : List Char} (h : '|' ∉ cs) : betweenBars cs = [cs] := by
  induction cs with
  | nil => rfl
  | cons c cs ih =>
    obtain ⟨hc, hcs⟩ := List.ne_and_not_mem_of_not_mem_cons h
    have hnext : c = '\\' → cs.head? ≠ some '|' := fun _ hhead =>
      hcs (List.mem_of_mem_head? (Option.mem_def.mpr hhead))
    rw [betweenBars_cons (Ne.symm hc) hnext, ih hcs]
    rfl

/-- Each bar of a text, escaped or not, is a character that no cell shows beside the others. -/
theorem length_flatten_betweenBars (cs : List Char) :
    (betweenBars cs).flatten.length + cs.count '|' ≤ cs.length := by
  induction cs using betweenBars.induct with
  | case1 => exact Nat.le_refl _
  | case2 cs ih =>
    obtain ⟨piece, pieces, hpieces⟩ := List.exists_cons_of_ne_nil (betweenBars_ne_nil cs)
    simp [betweenBars, hpieces] at ih ⊢
    omega
  | case3 cs ih =>
    simp [betweenBars] at ih ⊢
    omega
  | case4 c cs hescape hbar ih =>
    obtain ⟨piece, pieces, hpieces⟩ := List.exists_cons_of_ne_nil (betweenBars_ne_nil cs)
    rw [List.count_cons_of_ne hbar]
    simp [betweenBars, hpieces] at ih ⊢
    omega

theorem betweenBars_eq_singleton_iff {cs : List Char} : betweenBars cs = [cs] ↔ '|' ∉ cs := by
  refine ⟨fun h => ?_, betweenBars_of_not_mem⟩
  have hlength := length_flatten_betweenBars cs
  rw [h, List.flatten_singleton] at hlength
  exact List.count_eq_zero.mp (by omega)

theorem betweenBars_asCell (s t : String) :
    betweenBars (asCell s ++ "|" ++ t).toList =
      betweenBars (asCell s).toList ++ betweenBars t.toList := by
  have hcell : (asCell s).toList = (' ' :: s.toList) ++ [' '] := by simp [asCell]
  have htext : (asCell s ++ "|" ++ t).toList = (' ' :: s.toList) ++ ' ' :: '|' :: t.toList := by
    simp [hcell]
  rw [htext, betweenBars_append, ← hcell]

theorem betweenBars_tableRow (cells : List String) :
    betweenBars (tableRow cells).toList =
      [] :: (cells.flatMap fun s => betweenBars (asCell s).toList) ++ [[]] := by
  have hcells : betweenBars (String.join (cells.map (asCell · ++ "|"))).toList =
      (cells.flatMap fun s => betweenBars (asCell s).toList) ++ [[]] := by
    induction cells with
    | nil => rfl
    | cons s cells ih =>
      rw [List.map_cons, String.join_cons, betweenBars_asCell, ih, List.flatMap_cons,
        List.append_assoc]
  rw [tableRow, String.toList_append, List.cons_append, ← hcells]
  rfl

theorem tableCells_tableRow (cells : List String) :
    tableCells (tableRow cells) =
      cells.flatMap fun s => (betweenBars (asCell s).toList).map String.ofList := by
  rw [tableCells, betweenBars_tableRow, List.cons_append, List.tail_cons, List.dropLast_concat,
    List.map_flatMap]

/-- A text is one cell of its row exactly if it holds no bar. -/
theorem cells_eq_singleton_iff {s : String} :
    (betweenBars (asCell s).toList).map String.ofList = [asCell s] ↔ '|' ∉ s.toList := by
  have hpieces : (betweenBars (asCell s).toList).map String.ofList = [asCell s] ↔
      betweenBars (asCell s).toList = [(asCell s).toList] := by
    rw [← (List.map_injective_iff.mpr fun _ _ => String.ofList_injective).eq_iff,
      List.map_singleton, String.ofList_toList]
  rw [hpieces, betweenBars_eq_singleton_iff]
  simp [asCell]

end CodeQuality
