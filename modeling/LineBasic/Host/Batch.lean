import LineBasic.Host.Session

/-!
# Batches

In a batch every line comes from one input, which also holds the replies that lines ask for. The
first problem ends the batch.

## Main definitions

* `Session.batch` — executes the lines of an input
-/

namespace LineBasic.Session

/-- Executes the lines of an input until it ends, the user says `BYE`, or there is a problem. -/
def batch (s : Session) (input : List Reply) : Option Problem × Session :=
  if s.exiting then (none, s)
  else
    match input with
    | [] => (none, s)
    | .failure problem :: _ => (some problem, s)
    | .interrupt :: _ => (some .interrupted, s)
    | .line line :: rest =>
      match h : s.execute line rest with
      | (some problem, _, t) => (some problem, t)
      | (none, left, t) =>
        have : left.length ≤ rest.length := by simpa [h] using length_execute_le s line rest
        batch t left
termination_by input.length
decreasing_by simp_wf; omega

end LineBasic.Session
