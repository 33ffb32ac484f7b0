namespace Asm16

inductive Reporting
  | first
  | all
  deriving DecidableEq, Repr

variable {ε α β : Type}

def failure? : Except ε α → Option ε
  | .error error => some error
  | .ok _ => none

/-- Applies `f` everywhere. The results count only if nothing failed; otherwise every failure is
reported, in order. -/
def collect (f : α → Except ε β) (inputs : List α) : Except (List ε) (List β) :=
  let results := inputs.map f
  match results.filterMap failure? with
  | [] => .ok (results.filterMap Except.toOption)
  | errors => .error errors

/-- Applies `f` in order, with one failure or all of them in the report. -/
def Reporting.traverse (reporting : Reporting) (f : α → Except ε β) (inputs : List α) :
    Except (List ε) (List β) :=
  match reporting with
  | .first => (inputs.mapM f).mapError ([·])
  | .all => collect f inputs

end Asm16
