import CodeQuality.Json.Parser
import CodeQuality.Proofs.Json.Numerals
import CodeQuality.Proofs.Json.Strings

/-!
JSON values that are written and read back.

Whatever blanks a layout puts between the parts of a value, its characters are scanned as the tokens
of the value, and from these the reader builds the value again. Only a number may come back in
another form, as the one that its characters are read as.
-/

namespace CodeQuality

namespace Json

mutual

/-- A value with every number in the form in which it is read back. -/
def respelled : Json → Json
  | null => null
  | bool b => bool b
  | number n => number n.respelled
  | string t => string t
  | array items => array (respelledItems items)
  | object members => object (respelledMembers members)

def respelledItems : List Json → List Json
  | [] => []
  | v :: rest => respelled v :: respelledItems rest

def respelledMembers : List (JsonText × Json) → List (JsonText × Json)
  | [] => []
  | (k, v) :: rest => (k, respelled v) :: respelledMembers rest

end

mutual

/-- The tokens of a value, in the order in which they are written. -/
def tokens : Json → List JsonToken
  | null => [.scalar null]
  | bool b => [.scalar (bool b)]
  | number n => [.scalar (number n)]
  | string t => [.string t]
  | array [] => [.openBracket, .closeBracket]
  | array (v :: rest) => .openBracket :: tokens v ++ itemTokens rest
  | object [] => [.openBrace, .closeBrace]
  | object ((k, v) :: rest) => .openBrace :: .string k :: .colon :: tokens v ++ memberTokens rest

def itemTokens : List Json → List JsonToken
  | [] => [.closeBracket]
  | v :: rest => .comma :: tokens v ++ itemTokens rest

def memberTokens : List (JsonText × Json) → List JsonToken
  | [] => [.closeBrace]
  | (k, v) :: rest => .comma :: .string k :: .colon :: tokens v ++ memberTokens rest

end

end Json

/-! ## From tokens to values -/

namespace Json.ParseState

/-- The first token of a value is not the end of an array, so an array may begin with it. -/
theorem foldlM_firstItem (v : Json) (ts : List JsonToken) (stack : List Frame) :
    (v.tokens ++ ts).foldlM step (firstItem stack) =
      (v.tokens ++ ts).foldlM step (value (.array [] :: stack)) := by
  cases v with
  | array items => cases items <;> rfl
  | object members =>
    cases members with
    | nil => rfl
    | cons m rest => rfl
  | _ => rfl

mutual

theorem foldlM_tokens (stack : List Frame) (ts : List JsonToken) : (v : Json) →
    (v.tokens ++ ts).foldlM step (value stack) = ts.foldlM step (after v stack)
  | .null => rfl
  | .bool _ => rfl
  | .number _ => rfl
  | .string _ => rfl
  | .array [] => rfl
  | .array (v :: rest) => by
    simp only [tokens, List.cons_append, List.append_assoc]
    show (v.tokens ++ (itemTokens rest ++ ts)).foldlM step (firstItem stack) = _
    rw [foldlM_firstItem, foldlM_tokens, foldlM_itemTokens]
    rfl
  | .object [] => rfl
  | .object ((k, v) :: rest) => by
    simp only [tokens, List.cons_append, List.append_assoc]
    show (v.tokens ++ (memberTokens rest ++ ts)).foldlM step (value (.object [] k :: stack)) = _
    rw [foldlM_tokens, foldlM_memberTokens]
    rfl

theorem foldlM_itemTokens (stack : List Frame) (ts : List JsonToken) (before : List Json)
    (v : Json) : (items : List Json) →
    (itemTokens items ++ ts).foldlM step (after v (.array before :: stack)) =
      ts.foldlM step (after (.array (before.reverse ++ v :: items)) stack)
  | [] => by
    show ts.foldlM step (after (.array (v :: before).reverse) stack) = _
    rw [List.reverse_cons]
  | w :: rest => by
    simp only [itemTokens, List.cons_append, List.append_assoc]
    show (w.tokens ++ (itemTokens rest ++ ts)).foldlM step
      (value (.array (v :: before) :: stack)) = _
    rw [foldlM_tokens, foldlM_itemTokens, List.reverse_cons, List.append_assoc]
    rfl

theorem foldlM_memberTokens (stack : List Frame) (ts : List JsonToken)
    (before : List (JsonText × Json)) (k : JsonText) (v : Json) :
    (members : List (JsonText × Json)) →
    (memberTokens members ++ ts).foldlM step (after v (.object before k :: stack)) =
      ts.foldlM step (after (.object (before.reverse ++ (k, v) :: members)) stack)
  | [] => by
    show ts.foldlM step (after (.object ((k, v) :: before).reverse) stack) = _
    rw [List.reverse_cons]
  | (l, w) :: rest => by
    simp only [memberTokens, List.cons_append, List.append_assoc]
    show (w.tokens ++ (memberTokens rest ++ ts)).foldlM step
      (value (.object ((k, v) :: before) l :: stack)) = _
    rw [foldlM_tokens, foldlM_memberTokens, List.reverse_cons, List.append_assoc]
    rfl

end

end Json.ParseState

/-! ## From characters to tokens -/

namespace JsonToken

/-- Characters are scanned as tokens, whatever the number of steps beyond their own. -/
def Scans (cs : List Char) (ts : List JsonToken) : Prop :=
  ∀ steps, cs.length ≤ steps → scanSteps steps cs = some ts

theorem Scans.nil : Scans [] [] := by
  intro steps _
  cases steps <;> rfl

theorem Scans.blanks {blanks rest : List Char} {ts : List JsonToken} (h : Scans rest ts)
    (hblanks : ∀ c ∈ blanks, isSpace c = true) : Scans (blanks ++ rest) ts := by
  induction blanks with
  | nil => exact h
  | cons c cs ih =>
    intro steps hsteps
    cases steps with
    | zero => exact absurd hsteps (by simp)
    | succ steps =>
      rw [List.cons_append, scanSteps, if_pos (hblanks c List.mem_cons_self)]
      apply ih fun d hd => hblanks d (List.mem_cons_of_mem c hd)
      rw [List.cons_append, List.length_cons] at hsteps
      omega

theorem isSpace_of_next? {c : Char} {cs : List Char} {found : JsonToken × List Char}
    (h : next? (c :: cs) = some found) : ¬ isSpace c = true := by
  intro hspace
  simp only [isSpace, Bool.or_eq_true, decide_eq_true_eq] at hspace
  rcases hspace with ((rfl | rfl) | rfl) | rfl
  · cases h
  · cases h
  · cases h
  · cases h

/-- A token that is read from its own characters is scanned ahead of what follows. -/
theorem Scans.token {cs rest : List Char} {token : JsonToken} {ts : List JsonToken}
    (h : Scans rest ts) (hnext : next? (cs ++ rest) = some (token, rest)) (hne : cs ≠ []) :
    Scans (cs ++ rest) (token :: ts) := by
  intro steps hsteps
  cases cs with
  | nil => exact absurd rfl hne
  | cons c cs =>
    rw [List.cons_append] at hnext hsteps ⊢
    cases steps with
    | zero => exact absurd hsteps (by simp)
    | succ steps =>
      rw [scanSteps, if_neg (isSpace_of_next? hnext), hnext]
      rw [List.length_cons, List.length_append] at hsteps
      simp [h steps (by omega)]

theorem Scans.mark {c : Char} {rest : List Char} {token : JsonToken} {ts : List JsonToken}
    (h : Scans rest ts) (hnext : next? (c :: rest) = some (token, rest)) :
    Scans (c :: rest) (token :: ts) := by
  have hone : next? ([c] ++ rest) = some (token, rest) := hnext
  exact h.token hone (List.cons_ne_nil c [])

end JsonToken

namespace Json

open JsonToken (Scans isSpace)

/-- A layout that puts nothing but blanks between the parts. -/
structure Layout.IsBlank (layout : Layout) : Prop where
  lineBreak : ∀ depth, ∀ c ∈ layout.lineBreak depth, isSpace c = true
  afterColon : ∀ c ∈ layout.afterColon, isSpace c = true

theorem Layout.isBlank_oneLine : oneLine.IsBlank := ⟨nofun, nofun⟩

theorem Layout.isBlank_indented : indented.IsBlank where
  lineBreak := by
    intro depth c hc
    rcases List.mem_cons.mp hc with rfl | hc
    · decide
    · rw [List.eq_of_mem_replicate hc]
      decide
  afterColon := List.forall_mem_singleton.mpr (by decide)

theorem endsNumber_cons {c : Char} (h : c.isDigit = false ∧ c ≠ '.' ∧ c ≠ 'e' ∧ c ≠ 'E')
    (rest : List Char) : EndsNumber (c :: rest) := by
  intro d hd
  obtain rfl : c = d := Option.some.inj hd
  exact h

theorem endsNumber_blanks {blanks rest : List Char} (hblanks : ∀ c ∈ blanks, isSpace c = true)
    (h : EndsNumber rest) : EndsNumber (blanks ++ rest) := by
  cases blanks with
  | nil => exact h
  | cons c cs =>
    apply endsNumber_cons
    have hspace := hblanks c List.mem_cons_self
    simp only [isSpace, Bool.or_eq_true, decide_eq_true_eq] at hspace
    rcases hspace with ((rfl | rfl) | rfl) | rfl
    · decide
    · decide
    · decide
    · decide

section

variable {layout : Layout} (hl : layout.IsBlank) (depth : Nat)

include hl

theorem endsNumber_itemChars (items : List Json) (rest : List Char) :
    EndsNumber (itemChars layout depth items ++ rest) := by
  cases items with
  | nil =>
    rw [itemChars, List.append_assoc]
    exact endsNumber_blanks (hl.lineBreak depth) (endsNumber_cons (by decide) rest)
  | cons v items =>
    rw [itemChars]
    exact endsNumber_cons (by decide) _

theorem endsNumber_memberChars (members : List (JsonText × Json)) (rest : List Char) :
    EndsNumber (memberChars layout depth members ++ rest) := by
  cases members with
  | nil =>
    rw [memberChars, List.append_assoc]
    exact endsNumber_blanks (hl.lineBreak depth) (endsNumber_cons (by decide) rest)
  | cons m members =>
    rw [memberChars]
    exact endsNumber_cons (by decide) _

end

theorem textChars_ne_nil (t : JsonText) : textChars t ≠ [] := by
  cases t with
  | none => exact List.cons_ne_nil _ _
  | some s => exact List.cons_ne_nil _ _

theorem numberChars_ne_nil (n : JsonNumber) : numberChars n ≠ [] := by
  obtain ⟨negative, whole, fraction, exponent, hchars, hwhole, -⟩ := n.exists_numeralChars
  obtain ⟨c, cs, hcons, -⟩ :=
    JsonToken.exists_cons_numeralChars negative hwhole fraction exponent
  rw [hchars, hcons]
  exact List.cons_ne_nil c cs

/-- A key with its colon, each followed by blanks, ahead of the value that it names. -/
theorem scans_key {layout : Layout} (hl : layout.IsBlank) (depth : Nat) (k : JsonText)
    {rest : List Char} {ts : List JsonToken} (h : Scans rest ts) :
    Scans (layout.lineBreak depth ++ (textChars k ++ ':' :: (layout.afterColon ++ rest)))
      (.string k :: .colon :: ts) := by
  have hcolon := (h.blanks hl.afterColon).mark (c := ':') rfl
  have hkey := hcolon.token (next?_textChars k _) (textChars_ne_nil k)
  exact hkey.blanks (hl.lineBreak depth)

mutual

/-- The characters of a value are scanned as its tokens, ahead of what ends a number. -/
theorem scans_chars {layout : Layout} (hl : layout.IsBlank) (depth : Nat) {rest : List Char}
    {ts : List JsonToken} (hrest : EndsNumber rest) (h : Scans rest ts) : (v : Json) →
    Scans (v.chars layout depth ++ rest) (v.respelled.tokens ++ ts)
  | .null => h.token (by rfl) (List.cons_ne_nil _ _)
  | .bool true => h.token (by rfl) (List.cons_ne_nil _ _)
  | .bool false => h.token (by rfl) (List.cons_ne_nil _ _)
  | .number n => h.token (JsonToken.next?_numberChars n hrest) (numberChars_ne_nil n)
  | .string t => h.token (next?_textChars t rest) (textChars_ne_nil t)
  | .array [] => (h.mark rfl).mark rfl
  | .array (v :: items) => by
    have hitems := scans_itemChars hl depth h items
    have hv := scans_chars hl (depth + 1) (endsNumber_itemChars hl depth items rest) hitems v
    simp only [chars, respelled, respelledItems, tokens, List.cons_append, List.append_assoc]
    exact (hv.blanks (hl.lineBreak _)).mark rfl
  | .object [] => (h.mark rfl).mark rfl
  | .object ((k, v) :: members) => by
    have hmembers := scans_memberChars hl depth h members
    have hv := scans_chars hl (depth + 1) (endsNumber_memberChars hl depth members rest) hmembers v
    simp only [chars, respelled, respelledMembers, tokens, List.cons_append, List.append_assoc]
    exact (scans_key hl (depth + 1) k hv).mark rfl

theorem scans_itemChars {layout : Layout} (hl : layout.IsBlank) (depth : Nat) {rest : List Char}
    {ts : List JsonToken} (h : Scans rest ts) : (items : List Json) →
    Scans (itemChars layout depth items ++ rest) (itemTokens (respelledItems items) ++ ts)
  | [] => by
    simp only [itemChars, respelledItems, itemTokens, List.append_assoc]
    exact (h.mark rfl).blanks (hl.lineBreak depth)
  | v :: items => by
    have hitems := scans_itemChars hl depth h items
    have hv := scans_chars hl (depth + 1) (endsNumber_itemChars hl depth items rest) hitems v
    simp only [itemChars, respelledItems, itemTokens, List.cons_append, List.append_assoc]
    exact (hv.blanks (hl.lineBreak _)).mark rfl

theorem scans_memberChars {layout : Layout} (hl : layout.IsBlank) (depth : Nat)
    {rest : List Char} {ts : List JsonToken} (h : Scans rest ts) :
    (members : List (JsonText × Json)) →
    Scans (memberChars layout depth members ++ rest)
      (memberTokens (respelledMembers members) ++ ts)
  | [] => by
    simp only [memberChars, respelledMembers, memberTokens, List.append_assoc]
    exact (h.mark rfl).blanks (hl.lineBreak depth)
  | (k, v) :: members => by
    have hmembers := scans_memberChars hl depth h members
    have hv := scans_chars hl (depth + 1) (endsNumber_memberChars hl depth members rest) hmembers v
    simp only [memberChars, respelledMembers, memberTokens, List.cons_append, List.append_assoc]
    exact (scans_key hl (depth + 1) k hv).mark rfl

end

/-! ## Texts -/

/-- What is written of a value in any layout of blanks is read as its respelled form. -/
theorem parse?_chars {layout : Layout} (hl : layout.IsBlank) (v : Json) :
    parse? (String.ofList (v.chars layout 0)) = some v.respelled := by
  have hscan : JsonToken.scan (v.chars layout 0) = some v.respelled.tokens := by
    have h := scans_chars hl 0 endsNumber_nil Scans.nil v
    rw [List.append_nil, List.append_nil] at h
    exact h _ (Nat.le_refl _)
  have hfold := ParseState.foldlM_tokens [] [] v.respelled
  rw [List.append_nil] at hfold
  unfold parse?
  rw [String.toList_ofList, hscan]
  show (v.respelled.tokens.foldlM ParseState.step (ParseState.value [])).bind _ = _
  rw [hfold]
  rfl

theorem parse?_compact (v : Json) : parse? v.compact = some v.respelled :=
  parse?_chars Layout.isBlank_oneLine v

theorem parse?_pretty (v : Json) : parse? v.pretty = some v.respelled :=
  parse?_chars Layout.isBlank_indented v

end Json

end CodeQuality
