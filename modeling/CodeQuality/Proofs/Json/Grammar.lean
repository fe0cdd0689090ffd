import CodeQuality.Proofs.Json.Reading

/-!
What the parser accepts.

The tokens that the parser has taken can be read off its state: those of the arrays and objects that
are open, as far as they go, and those of the value at hand. Each step adds the token that it takes.
So a text is parsed as a value exactly if its tokens are those of the value, however deep it nests.
-/

namespace CodeQuality

/-! ## Scalars -/

/-- A token for a scalar holds a value that is written as this token. -/
def JsonToken.Proper : JsonToken → Prop
  | .scalar v => v.tokens = [.scalar v]
  | _ => True

namespace JsonToken

theorem proper_of_next? {cs rest : List Char} {token : JsonToken}
    (h : next? cs = some (token, rest)) : token.Proper := by
  unfold next? at h
  split at h
  case h_10 =>
    obtain ⟨⟨units, after⟩, -, hstring⟩ := Option.bind_eq_some_iff.mp h
    obtain ⟨rfl, -⟩ := Prod.mk.inj (Option.some.inj hstring)
    trivial
  case h_11 =>
    obtain ⟨⟨n, after⟩, -, hnumber⟩ := Option.bind_eq_some_iff.mp h
    obtain ⟨rfl, -⟩ := Prod.mk.inj (Option.some.inj hnumber)
    rfl
  all_goals
    obtain ⟨rfl, -⟩ := Prod.mk.inj (Option.some.inj h)
    trivial

theorem proper_of_scanSteps {steps : ℕ} {cs : List Char} {ts : List JsonToken}
    (h : scanSteps steps cs = some ts) : ∀ t ∈ ts, t.Proper := by
  induction steps, cs using scanSteps.induct generalizing ts with
  | case1 _ =>
    obtain rfl : [] = ts := by simpa [scanSteps] using h
    exact List.forall_mem_nil _
  | case2 c cs => simp [scanSteps] at h
  | case3 steps c cs hspace ih =>
    rw [scanSteps, if_pos hspace] at h
    exact ih h
  | case4 steps c cs hspace ih =>
    rw [scanSteps, if_neg hspace] at h
    obtain ⟨⟨token, rest⟩, hnext, h⟩ := Option.bind_eq_some_iff.mp h
    obtain ⟨others, hothers, h⟩ := Option.bind_eq_some_iff.mp h
    obtain rfl : token :: others = ts := Option.some.inj h
    exact List.forall_mem_cons.mpr ⟨proper_of_next? hnext, ih rest hothers⟩

end JsonToken

/-! ## Tokens that are taken -/

namespace Json

/-- The items before the one at hand, each with its comma, the last first. -/
def openItems : List Json → List JsonToken
  | [] => [.openBracket]
  | v :: before => openItems before ++ v.tokens ++ [.comma]

def openMembers : List (JsonText × Json) → List JsonToken
  | [] => [.openBrace]
  | (k, v) :: before => openMembers before ++ [.string k, .colon] ++ v.tokens ++ [.comma]

theorem openItems_append (before : List Json) (v : Json) (items : List Json) :
    openItems before ++ v.tokens ++ itemTokens items =
      (array (before.reverse ++ v :: items)).tokens := by
  induction before generalizing v items with
  | nil => simp [openItems, tokens]
  | cons w before ih =>
    rw [List.reverse_cons, List.append_assoc]
    have h := ih w (v :: items)
    simp only [itemTokens, List.append_assoc, List.cons_append, openItems] at h ⊢
    exact h

theorem openMembers_append (before : List (JsonText × Json)) (k : JsonText) (v : Json)
    (members : List (JsonText × Json)) :
    openMembers before ++ [.string k, .colon] ++ v.tokens ++ memberTokens members =
      (object (before.reverse ++ (k, v) :: members)).tokens := by
  induction before generalizing k v members with
  | nil => simp [openMembers, tokens]
  | cons m before ih =>
    obtain ⟨l, w⟩ := m
    rw [List.reverse_cons, List.append_assoc]
    have h := ih l w ((k, v) :: members)
    simp only [memberTokens, List.append_assoc, List.cons_append, openMembers] at h ⊢
    exact h

namespace ParseState

/-- The tokens of the arrays and objects that are open, up to the value at hand. -/
def stackTokens : List Frame → List JsonToken
  | [] => []
  | .array before :: stack => stackTokens stack ++ openItems before
  | .object before k :: stack => stackTokens stack ++ openMembers before ++ [.string k, .colon]

/-- The tokens that have led to a state. -/
def taken : ParseState → List JsonToken
  | value stack => stackTokens stack
  | firstItem stack => stackTokens stack ++ [.openBracket]
  | key _ before stack => stackTokens stack ++ openMembers before
  | colon before k stack => stackTokens stack ++ openMembers before ++ [.string k]
  | after v stack => stackTokens stack ++ v.tokens

/-- Before an object may close without a comma, it has no members. -/
def Tidy : ParseState → Prop
  | key true before _ => before = []
  | _ => True

theorem taken_onValue {stack : List Frame} {token : JsonToken} {next : ParseState}
    (h : onValue stack token = some next) (hproper : token.Proper) :
    next.taken = stackTokens stack ++ [token] ∧ next.Tidy := by
  unfold onValue at h
  split at h
  case h_1 v =>
    obtain rfl := Option.some.inj h
    have hscalar : v.tokens = [.scalar v] := hproper
    exact ⟨by rw [taken, hscalar], trivial⟩
  case h_5 => cases h
  all_goals
    obtain rfl := Option.some.inj h
    exact ⟨rfl, by trivial⟩

/-- One step takes one token. -/
theorem taken_step {state next : ParseState} {token : JsonToken}
    (h : state.step token = some next) (hproper : token.Proper) (htidy : state.Tidy) :
    next.taken = state.taken ++ [token] ∧ next.Tidy := by
  unfold step at h
  split at h
  case h_1 stack token => exact taken_onValue h hproper
  case h_2 stack =>
    obtain rfl := Option.some.inj h
    simp [taken, tokens, Tidy]
  case h_3 stack token _ =>
    obtain ⟨htaken, hnext⟩ := taken_onValue h hproper
    exact ⟨by rw [htaken, stackTokens, taken, openItems], hnext⟩
  case h_4 mayClose before stack k =>
    obtain rfl := Option.some.inj h
    simp [taken, Tidy]
  case h_5 before stack =>
    obtain rfl := Option.some.inj h
    obtain rfl : before = [] := htidy
    simp [taken, tokens, openMembers, Tidy]
  case h_7 before k stack =>
    obtain rfl := Option.some.inj h
    simp [taken, stackTokens, Tidy]
  case h_9 v before stack =>
    obtain rfl := Option.some.inj h
    simp [taken, stackTokens, openItems, Tidy]
  case h_10 v before stack =>
    obtain rfl := Option.some.inj h
    have hclosed := openItems_append before v []
    simpa [taken, stackTokens, Tidy, itemTokens] using hclosed.symm
  case h_11 v before k stack =>
    obtain rfl := Option.some.inj h
    simp [taken, stackTokens, openMembers, Tidy]
  case h_12 v before k stack =>
    obtain rfl := Option.some.inj h
    have hclosed := openMembers_append before k v []
    simpa [taken, stackTokens, Tidy, memberTokens] using hclosed.symm
  all_goals cases h

theorem taken_foldlM {state final : ParseState} {ts : List JsonToken}
    (h : ts.foldlM step state = some final) (hproper : ∀ t ∈ ts, t.Proper) (htidy : state.Tidy) :
    final.taken = state.taken ++ ts := by
  induction ts generalizing state with
  | nil =>
    obtain rfl : state = final := Option.some.inj h
    rw [List.append_nil]
  | cons t ts ih =>
    obtain ⟨ht, hts⟩ := List.forall_mem_cons.mp hproper
    rw [List.foldlM_cons] at h
    obtain ⟨next, hstep, hrest⟩ := Option.bind_eq_some_iff.mp h
    obtain ⟨htaken, hnext⟩ := taken_step hstep ht htidy
    rw [ih hrest hts hnext, htaken, List.append_assoc, List.singleton_append]

end ParseState

/-- A text that spells a value: its tokens are those of the value. -/
def Spells (s : String) (v : Json) : Prop := JsonToken.scan s.toList = some v.tokens

/-- The parser accepts exactly the texts that spell a value, and each as this value. -/
theorem parse?_eq_some_iff {s : String} {v : Json} : parse? s = some v ↔ Spells s v := by
  unfold parse? Spells
  constructor
  · intro h
    obtain ⟨ts, hscan, h⟩ := Option.bind_eq_some_iff.mp h
    obtain ⟨final, hfold, h⟩ := Option.bind_eq_some_iff.mp h
    -- Nothing is open at the end, so the tokens taken are those of the value.
    obtain rfl : final = .after v [] := by
      unfold ParseState.result? at h
      split at h
      · rw [Option.some.inj h]
      · cases h
    have htaken := ParseState.taken_foldlM hfold (JsonToken.proper_of_scanSteps hscan) trivial
    rw [hscan]
    exact congrArg some htaken.symm
  · intro hscan
    have hfold := ParseState.foldlM_tokens [] [] v
    rw [List.append_nil] at hfold
    rw [hscan]
    show (v.tokens.foldlM ParseState.step (ParseState.value [])).bind _ = _
    rw [hfold]
    rfl

end Json

end CodeQuality
