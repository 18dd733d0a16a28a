/-!
# Phases of an edit

An edit goes through its phases in this order, up to `done`; whichever fails leads to `aborted`.
`Editor.setValueByPhases` is the edit that writes down the phases it enters.
-/

namespace ConfigScript.Edit

inductive Phase where
  | reading
  | sanitizing
  | locating
  | instrumenting
  | verifying
  | backingUp
  | writing
  | done
  | aborted
deriving Repr, DecidableEq

namespace Phase

def all : List Phase :=
  [reading, sanitizing, locating, instrumenting, verifying, backingUp, writing, done, aborted]

def name : Phase → String
  | reading => "reading"
  | sanitizing => "sanitizing"
  | locating => "locating"
  | instrumenting => "instrumenting"
  | verifying => "verifying"
  | backingUp => "backing-up"
  | writing => "writing"
  | done => "done"
  | aborted => "aborted"

end Phase

end ConfigScript.Edit
