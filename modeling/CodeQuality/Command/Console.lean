import CodeQuality.Failure

/-!
Steps that print.

A command prints as it goes. Where a step fails the steps behind it are left out, and what is
printed by then stays printed.
-/

namespace CodeQuality

/-- What is printed so far. -/
structure Streams where
  stdout : String
  stderr : String

def Streams.empty : Streams := ⟨"", ""⟩

/-- Steps of a command, which may print and may fail. -/
abbrev Console := ExceptT Failure (StateM Streams)

namespace Console

variable {α β : Type}

def println (line : String) : Console Unit :=
  modify fun printed => { printed with stdout := printed.stdout ++ (line ++ "\n") }

def eprintln (line : String) : Console Unit :=
  modify fun printed => { printed with stderr := printed.stderr ++ (line ++ "\n") }

theorem except_ok_bind (a : α) (next : α → Console β) :
    liftM (Except.ok a : Except Failure α) >>= next = next a := rfl

/-- How the steps end, and what is printed then, if something is printed before them. -/
def runFrom (steps : Console α) (printed : Streams) : Except Failure α × Streams :=
  (ExceptT.run steps).run printed

def result (steps : Console α) : Except Failure α := (steps.runFrom .empty).1

theorem runFrom_bind (steps : Console α) (next : α → Console β) (printed : Streams) :
    runFrom (steps >>= next) printed =
      match steps.runFrom printed with
      | (.ok a, printed) => (next a).runFrom printed
      | (.error failure, printed) => (.error failure, printed) := by
  unfold runFrom
  rw [ExceptT.run_bind, StateT.run_bind]
  show (match (ExceptT.run steps).run printed with | (r, printed) => _) = _
  rcases (ExceptT.run steps).run printed with ⟨_ | _, _⟩ <;> rfl

/-- Steps that only compute print nothing. -/
theorem runFrom_except_bind (r : Except Failure α) (next : α → Console β) (printed : Streams) :
    runFrom (liftM r >>= next) printed =
      match r with
      | .ok a => (next a).runFrom printed
      | .error failure => (.error failure, printed) := by
  rw [runFrom_bind]
  cases r <;> rfl

theorem runFrom_println_bind (line : String) (next : Unit → Console β) (printed : Streams) :
    runFrom (println line >>= next) printed =
      (next ()).runFrom { printed with stdout := printed.stdout ++ (line ++ "\n") } :=
  runFrom_bind ..

/-- Printing never fails. -/
theorem runFrom_forM_println (f : α → String) (items : List α) (printed : Streams) :
    ∃ after, runFrom (items.forM fun a => println (f a)) printed = (.ok (), after) := by
  induction items generalizing printed with
  | nil => exact ⟨printed, rfl⟩
  | cons a items ih =>
    rw [List.forM_eq_forM, List.forM_cons, runFrom_println_bind]
    exact ih _

end Console

end CodeQuality
