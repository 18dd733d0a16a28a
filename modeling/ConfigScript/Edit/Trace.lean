import ConfigScript.EditError
import ConfigScript.Edit.Mask
import ConfigScript.Edit.Occurrence
/-!
# Traced scripts

In a traced copy of a script every located assignment is replaced by one that appends its id to a
variable. Running the copy tells which of them ran last: that one is live.
-/

namespace ConfigScript.Edit

/-- Whether a script leaves room for the trace. -/
def checkTraceable (script : Text) : Except TraceFault Unit :=
  if script.contains sentinel then .error .reservedCharacter
  else if Text.hasPart traceName script then .error .reservedName
  else .ok ()

/-- Appends an id to the trace. -/
def appendId (id : Nat) : Text :=
  traceName ++ " = [".toList ++ traceName ++ ", ".toList ++ Text.ofNat id ++ "];".toList

/-- The bytes from `start` to `stop` replaced. -/
def replaceSpan (t : Text) (start stop : Nat) (new : Text) : Text :=
  t.takeBytes start ++ new ++ t.dropBytes stop

/-- Masked text with every occurrence replaced, the last one first so that the offsets of the
others stay right. -/
def replaceAll (masked : Text) (occurrences : List Occurrence) : Text :=
  occurrences.foldr (fun o t => replaceSpan t o.start o.stop (appendId o.id)) masked

/-- The traced copy of a masked script. -/
def instrument (masked : Text) (occurrences : List Occurrence) : Text :=
  traceName ++ " = [];\n".toList ++ unmask (replaceAll masked occurrences)

/-- The ids that a traced run has collected. -/
def tracedIds (w : Workspace) : Except TraceFault (List Float) :=
  match w.lookup traceName with
  | none => .error .unbound
  | some (.double x) => .ok [x]
  | some (.matrix m) =>
    if m.isEmpty then .error .nothingRan
    else if m.rows = 1 then .ok m.data.toList
    else .error (.kind .matrix)
  | some v => .error (.kind v.kind)

/-- The id that a number stands for, out of `count`. -/
def idOf (count : Nat) (x : Float) : Except TraceFault Nat :=
  if Number.isWhole x && 1.0 ≤ x && x ≤ Number.ofNat count then .ok (Number.toNat x)
  else .error (.badId x count)

/-- The id of the assignment that ran last in a traced run. -/
def liveId (w : Workspace) (count : Nat) : Except TraceFault Nat := do
  let ids ← (← tracedIds w).mapM (idOf count)
  return ids.getLast?.getD 0

end ConfigScript.Edit
