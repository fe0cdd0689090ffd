import CodeQuality.Proofs.Batches
import CodeQuality.Proofs.FiniteReports
import CodeQuality.Proofs.Ranks
import CodeQuality.Proofs.Text.Lines
import CodeQuality.Report.Markdown

/-!
The table of the order of review in a report as Markdown.

Paths are written as they are. The table shows the files that it should exactly if none of their
paths holds a bar or ends a line: an end of a line makes a line too many, and a bar a cell too many
or, after a backslash, another path.
-/

namespace CodeQuality

/-! ## Plain texts -/

/-- A printable character that is not a bar. -/
def isPlain (c : Char) : Bool := ' ' ≤ c && c ≤ '~' && c != '|'

def IsPlainText (s : String) : Prop := ∀ c ∈ s.toList, isPlain c = true

namespace IsPlainText

variable {s t : String}

theorem within (h : IsPlainText s) (e : LineEnds) : e.Within s := by
  apply within_of_printable e
  apply List.all_eq_true.mpr
  intro c hc
  exact (Bool.and_eq_true_iff.mp (h c hc)).1

theorem not_mem_bar (h : IsPlainText s) : '|' ∉ s.toList := fun hc => absurd (h _ hc) (by decide)

end IsPlainText

theorem isPlainText_append {s t : String} :
    IsPlainText (s ++ t) ↔ IsPlainText s ∧ IsPlainText t := by
  simp only [IsPlainText, String.toList_append, List.forall_mem_append]

theorem toString_text (s : String) : toString s = s := rfl

theorem isPlain_of_isDigit {c : Char} (h : c.isDigit = true) : isPlain c = true := by
  simp only [Char.isDigit, Bool.and_eq_true, decide_eq_true_eq] at h
  have hlow : ' ' ≤ c := le_trans (by decide : (' ' : Char) ≤ '0') h.1
  have hhigh : c ≤ '9' := h.2
  have hbar : c ≠ '|' := fun hc => absurd (hc ▸ hhigh) (by decide)
  simp [isPlain, hlow, hbar, hhigh.trans (by decide : ('9' : Char) ≤ '~')]

theorem isPlainText_toString (n : ℕ) : IsPlainText (toString n) := by
  intro c hc
  rw [Nat.toString_eq_repr, Nat.repr, String.toList_ofList] at hc
  exact isPlain_of_isDigit (Nat.isDigit_of_mem_toDigits (by decide) (by decide) hc)

theorem isPlainText_withPoint (places digits : ℕ) : IsPlainText (withPoint places digits) := by
  have hdigits : ∀ c ∈ List.replicate (places + 1 - (Decimal.digitChars digits).length) '0'
      ++ Decimal.digitChars digits, isPlain c = true := by
    intro c hc
    rcases List.mem_append.mp hc with hc | hc
    · rw [List.eq_of_mem_replicate hc]
      decide
    · exact isPlain_of_isDigit (Nat.isDigit_of_mem_toDigits (by decide) (by decide) hc)
  unfold withPoint
  dsimp only
  generalize List.replicate _ _ ++ _ = cs at hdigits ⊢
  intro c hc
  split_ifs at hc <;> rw [String.toList_ofList] at hc
  · exact hdigits c (List.mem_of_mem_take hc)
  · rcases List.mem_append.mp hc with hc | hc
    · exact hdigits c (List.mem_of_mem_take hc)
    · rcases List.mem_cons.mp hc with rfl | hc
      · decide
      · exact hdigits c (List.mem_of_mem_drop hc)

theorem isPlainText_fixedPlaces (places : ℕ) (x : Float) : IsPlainText (fixedPlaces places x) := by
  unfold fixedPlaces
  split
  · split_ifs <;> simp [IsPlainText, isPlain]
  · refine isPlainText_append.mpr ⟨?_, isPlainText_withPoint _ _⟩
    split_ifs <;> simp [IsPlainText, isPlain]

theorem isPlainText_schemeName (scheme : Scheme) : IsPlainText scheme.name := by
  cases scheme <;> simp [Scheme.name, IsPlainText, isPlain]

theorem isPlainText_modeName (mode : DuplicationMode) : IsPlainText mode.name := by
  cases mode <;> simp [DuplicationMode.name, IsPlainText, isPlain]

namespace Report

open LineEnds

/-! ## The lines of a report -/

theorem markdown_eq_joined (r : Report) (limit : ℕ) :
    r.markdown limit = joined (summaryLines r.project ++ r.priorityLines limit) := rfl

theorem row_eq_tableRow (f : RankedFile) :
    row f =
      tableRow
        [toString f.rank, f.path, fixedPlaces 1 f.criticism.toFloat, fixedPlaces 0 f.health] := by
  apply String.toList_inj.mp
  simp [row, tableRow, asCell, toString_text]

theorem isPlainText_summaryLines (p : ProjectScore) : ∀ l ∈ summaryLines p, IsPlainText l := by
  simp only [summaryLines, toString_text, List.forall_mem_cons, isPlainText_append,
    isPlainText_fixedPlaces, isPlainText_toString, isPlainText_schemeName, isPlainText_modeName]
  simp [IsPlainText, isPlain]

/-- The lines under the heading of the order of review, without the empty line after it. -/
def reviewSection (lines : List String) : List String :=
  (lines.dropWhile (· ≠ "## Review Priority")).drop 2

theorem reviewSection_summaryLines (p : ProjectScore) (lines : List String) :
    reviewSection (summaryLines p ++ lines) = lines := by
  -- A line with another first character is not the heading, whatever it shows.
  have hother (c : Char) (label : String) (hhead : label.toList.head? = some c) (hc : c ≠ '#')
      (shown : String) : label ++ shown ≠ "## Review Priority" := by
    intro heq
    have hfirst := congrArg (fun s => s.toList.head?) heq
    simp [hhead, hc] at hfirst
  have hoverall := hother 'O' "Overall score: " (by simp) (by decide)
  have hcomplexity := hother '-' "- complexity: " (by simp) (by decide)
  have hmaintainability := hother '-' "- maintainability: " (by simp) (by decide)
  have hduplication := hother '-' "- duplication: " (by simp) (by decide)
  have hfiles := hother '-' "- files: " (by simp) (by decide)
  simp [reviewSection, summaryLines, toString_text, String.append_assoc, hoverall,
    hcomplexity, hmaintainability, hduplication, hfiles]

theorem reviewSection_lines_markdown (e : LineEnds) (r : Report) (limit : ℕ) :
    reviewSection (e.lines (r.markdown limit)) = e.lines (joined (r.priorityLines limit)) := by
  rw [markdown_eq_joined,
    lines_joined_append fun l hl => (isPlainText_summaryLines r.project l hl).within e,
    reviewSection_summaryLines]

/-! ## Tables -/

/-- A row shows a file under its rank, with two more cells. -/
def IsRowOf (rank : ℕ) (path line : String) : Prop :=
  ∃ criticism health, tableCells line = [asCell (toString rank), asCell path, criticism, health]

def tableHeader : List String :=
  ["| # | File | Criticism | Health |", "|---|------|-----------|--------|"]

/-- What is said of the files that the table leaves out. -/
def remainder (hidden : ℕ) : List String :=
  if 0 < hidden then ["", toString hidden ++ " more file(s) not shown"] else []

/-- A section shows the first files of an order of review, ranked from one, and how many others
there are. -/
def ShowsRanking (r : Report) (limit : ℕ) (lines : List String) : Prop :=
  let shown := min limit r.ranking.length
  if shown = 0 then lines = ["- none"]
  else
    ∃ rows, lines = tableHeader ++ rows ++ remainder (r.ranking.length - shown) ∧
      rows.length = shown ∧
      ∀ (i : ℕ) (hi : i < rows.length) (hr : i < r.ranking.length),
        IsRowOf (i + 1) r.ranking[i].path rows[i]

theorem within_row_iff {e : LineEnds} {f : RankedFile} : e.Within (row f) ↔ e.Within f.path := by
  have hrank := (isPlainText_toString f.rank).within e
  have hcriticism := (isPlainText_fixedPlaces 1 f.criticism.toFloat).within e
  have hhealth := (isPlainText_fixedPlaces 0 f.health).within e
  rw [row_eq_tableRow, within_tableRow_iff]
  simp only [List.forall_mem_cons, hrank, hcriticism, hhealth, true_and]
  exact and_iff_left (List.forall_mem_nil _)

theorem isRowOf_row_iff {f : RankedFile} : IsRowOf f.rank f.path (row f) ↔ '|' ∉ f.path.toList := by
  have hcells : tableCells (row f) = asCell (toString f.rank) ::
      ((betweenBars (asCell f.path).toList).map String.ofList
        ++ [asCell (fixedPlaces 1 f.criticism.toFloat), asCell (fixedPlaces 0 f.health)]) := by
    rw [row_eq_tableRow, tableCells_tableRow]
    simp only [List.flatMap_cons, List.flatMap_nil,
      cells_eq_singleton_iff.mpr (isPlainText_toString f.rank).not_mem_bar,
      cells_eq_singleton_iff.mpr (isPlainText_fixedPlaces 1 f.criticism.toFloat).not_mem_bar,
      cells_eq_singleton_iff.mpr (isPlainText_fixedPlaces 0 f.health).not_mem_bar]
    rfl
  constructor
  · rintro ⟨criticism, health, hrow⟩
    rw [hcells] at hrow
    have htail : (betweenBars (asCell f.path).toList).map String.ofList
        ++ [asCell (fixedPlaces 1 f.criticism.toFloat), asCell (fixedPlaces 0 f.health)] =
          [asCell f.path] ++ [criticism, health] := (List.cons.inj hrow).2
    exact cells_eq_singleton_iff.mp (List.append_inj' htail rfl).1
  · intro hbar
    exact ⟨_, _, by rw [hcells, cells_eq_singleton_iff.mpr hbar]; rfl⟩

theorem priorityLines_eq (r : Report) (limit : ℕ) :
    r.priorityLines limit =
      if min limit r.ranking.length = 0 then ["- none"]
      else tableHeader ++ (r.top limit).map row
        ++ remainder (r.ranking.length - min limit r.ranking.length) := by
  rw [← length_top]
  unfold priorityLines
  simp only [List.isEmpty_iff_length_eq_zero]
  rfl

variable {e : LineEnds} {r : Report} {limit : ℕ}

theorem rank_getElem (hranks : r.ranking.map RankedFile.rank = List.range' 1 r.ranking.length)
    {i : ℕ} (hi : i < r.ranking.length) : r.ranking[i].rank = i + 1 := by
  have hrank := List.getElem_of_eq hranks (by rwa [List.length_map])
  rw [List.getElem_map, List.getElem_range'] at hrank
  omega

theorem within_tableHeader (e : LineEnds) : ∀ l ∈ tableHeader, e.Within l := by
  simp only [tableHeader, List.forall_mem_cons]
  exact ⟨within_of_printable e (by simp), within_of_printable e (by simp), List.forall_mem_nil _⟩

theorem within_remainder (e : LineEnds) (hidden : ℕ) : ∀ l ∈ remainder hidden, e.Within l := by
  unfold remainder
  split_ifs
  · simp only [List.forall_mem_cons, within_append_iff]
    exact ⟨within_of_printable e (by simp), ⟨(isPlainText_toString hidden).within e,
      within_of_printable e (by simp)⟩, List.forall_mem_nil _⟩
  · exact List.forall_mem_nil _

/-- The lines under the heading are those that were written if and only if no path ends one. -/
theorem within_priorityLines_iff (hshown : min limit r.ranking.length ≠ 0) :
    (∀ l ∈ r.priorityLines limit, e.Within l) ↔ ∀ f ∈ r.top limit, e.Within f.path := by
  rw [priorityLines_eq, if_neg hshown]
  simp only [List.forall_mem_append, List.forall_mem_map, within_row_iff]
  exact ⟨fun h => h.1.2, fun h => ⟨⟨within_tableHeader e, h⟩, within_remainder e _⟩⟩

/-- Each row that was written shows its file if and only if no path holds a bar. -/
theorem isRowOf_rows_iff
    (hranks : r.ranking.map RankedFile.rank = List.range' 1 r.ranking.length) :
    (∀ (i : ℕ) (hi : i < ((r.top limit).map row).length) (hr : i < r.ranking.length),
      IsRowOf (i + 1) r.ranking[i].path ((r.top limit).map row)[i]) ↔
        ∀ f ∈ r.top limit, '|' ∉ f.path.toList := by
  have hrow (i : ℕ) (hi : i < (r.top limit).length) (hr : i < r.ranking.length) :
      IsRowOf (i + 1) r.ranking[i].path (row (r.top limit)[i]) ↔
        '|' ∉ (r.top limit)[i].path.toList := by
    have hfile : (r.top limit)[i] = r.ranking[i] := List.getElem_take
    rw [← rank_getElem hranks hr, hfile, isRowOf_row_iff]
  constructor
  · intro hrows f hf
    obtain ⟨i, hi, rfl⟩ := List.getElem_of_mem hf
    have hr : i < r.ranking.length := hi.trans_le (List.length_take_le' _ _)
    have hshown := hrows i (by rwa [List.length_map]) hr
    rwa [List.getElem_map, hrow i hi hr] at hshown
  · intro hbars i hi hr
    rw [List.length_map] at hi
    rw [List.getElem_map, hrow i hi hr]
    exact hbars _ (List.getElem_mem hi)

/-- Which reports show their ranking: those whose shown paths neither hold a bar nor end a line. -/
theorem showsRanking_iff
    (hranks : r.ranking.map RankedFile.rank = List.range' 1 r.ranking.length) :
    r.ShowsRanking limit (reviewSection (e.lines (r.markdown limit))) ↔
      ∀ f ∈ r.top limit, e.Within f.path ∧ '|' ∉ f.path.toList := by
  rw [reviewSection_lines_markdown, ShowsRanking]
  by_cases hshown : min limit r.ranking.length = 0
  · -- No file is shown.
    have hnone : r.top limit = [] := List.eq_nil_of_length_eq_zero (by rw [length_top, hshown])
    have hwithin : ∀ l ∈ ["- none"], e.Within l :=
      List.forall_mem_singleton.mpr (within_of_printable e (by simp))
    rw [priorityLines_eq, if_pos hshown, if_pos hshown, lines_joined hwithin, hnone]
    exact iff_of_true rfl (List.forall_mem_nil _)
  rw [if_neg hshown, forall₂_and, ← within_priorityLines_iff hshown, ← isRowOf_rows_iff hranks]
  have hlines := priorityLines_eq r limit
  rw [if_neg hshown] at hlines
  constructor
  · rintro ⟨rows, hsection, hlength, hrows⟩
    -- The section has as many lines as were written, so each of them is one.
    have hcount : (e.lines (joined (r.priorityLines limit))).length =
        (r.priorityLines limit).length := by
      rw [hsection, hlines]
      simp only [List.length_append, List.length_map, hlength, length_top]
    have hwithin := within_of_length_lines_joined hcount
    rw [lines_joined hwithin, hlines] at hsection
    obtain rfl : (r.top limit).map row = rows :=
      List.append_cancel_left (List.append_cancel_right hsection)
    exact ⟨hwithin, hrows⟩
  · rintro ⟨hwithin, hrows⟩
    refine ⟨(r.top limit).map row, ?_, ?_, hrows⟩
    · rw [lines_joined hwithin, hlines]
    · rw [List.length_map, length_top]

end Report

namespace Profile

open Report (reviewSection)

variable {power : Power} {p : Profile}

theorem ranks_ofScores (p : Profile) (scores : List FileScore) :
    (Report.ofScores p scores).ranking.map RankedFile.rank =
      List.range' 1 (Report.ofScores p scores).ranking.length := by
  change (rankFiles scores).map RankedFile.rank = List.range' 1 (rankFiles scores).length
  rw [map_rank_rankFiles, length_rankFiles]

/-- The report on a project as Markdown shows its ranking, whichever characters end a line, exactly
if no path that is shown holds a bar or one of these characters. -/
theorem scoreProject_markdown {files : List SourceFile} {r : Report}
    (h : p.scoreProject power files = .ok r) (limit : ℕ) (e : LineEnds) :
    r.ShowsRanking limit (reviewSection (e.lines (r.markdown limit))) ↔
      ∀ f ∈ r.top limit, e.Within f.path ∧ '|' ∉ f.path.toList := by
  obtain ⟨-, -, -, rfl⟩ := scoreProject_eq_ok_iff.mp h
  exact Report.showsRanking_iff (ranks_ofScores p _)

theorem rankFiles_singleton (f : FileScore) :
    rankFiles [f] = [⟨1, f.path, f.criticism, f.health⟩] := by
  rw [rankFiles_eq, List.mergeSort_singleton]
  rfl

theorem scoreProject_markdown_plainFile :
    ∃ r, standard.scoreProject Power.square [plainFile "a"] = .ok r ∧
      ∀ limit, r.ShowsRanking limit
        (reviewSection (LineEnds.feedOrReturn.lines (r.markdown limit))) := by
  have hreport := scoreProject_singleton Power.square accepted_standard
    (show (plainFile "a").validate = .ok () from rfl)
  refine ⟨_, hreport, fun limit =>
    (scoreProject_markdown hreport limit LineEnds.feedOrReturn).mpr ?_⟩
  intro shown hshown
  have hranked := List.mem_of_mem_take hshown
  rw [Report.ofScores, rankFiles_singleton, List.mem_singleton] at hranked
  rw [hranked]
  change LineEnds.feedOrReturn.Within "a" ∧ '|' ∉ "a".toList
  exact ⟨within_of_printable _ (by simp), by simp⟩

/-- A path with a bar gives a row of five cells. -/
theorem exists_not_showsRanking :
    ∃ r, standard.scoreProject Power.square [plainFile "a|b"] = .ok r ∧
      ¬ r.ShowsRanking 10 (reviewSection (LineEnds.feed.lines (r.markdown 10))) := by
  have hreport := scoreProject_singleton Power.square accepted_standard
    (show (plainFile "a|b").validate = .ok () from rfl)
  refine ⟨_, hreport, ?_⟩
  rw [Report.showsRanking_iff (ranks_ofScores standard _)]
  intro hshown
  have htop := hshown ⟨1, "a|b", _, _⟩ (by
    rw [Report.top, Report.ofScores, rankFiles_singleton]
    exact List.mem_singleton.mpr rfl)
  exact htop.2 (by simp)

end Profile

end CodeQuality
